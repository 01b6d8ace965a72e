import Gloop.Foundation.BitString
import Mathlib.Data.Nat.Log
import Mathlib.Tactic.Ring

/-!
# Numbers in base 128

`base128 n` writes a number in groups of seven bits, lowest first, with the high bit of a byte set
when more bytes follow. `value128` reads the groups back, `Terminated` says that a byte string is
one such sequence, and `length_base128` gives its length from the position of the highest bit.
`takeTerminated` cuts the first such sequence off a byte string, within given bounds.
-/

namespace Gloop.Foundation

open List Nat

/-- The base-128 bytes of a number. -/
def base128 (n : Nat) : List Byte :=
  if n < 128 then [BitVec.ofNat 8 n]
  else BitVec.ofNat 8 (n % 128 + 128) :: base128 (n / 128)
termination_by n
decreasing_by omega

/-- The number whose groups of seven bits the bytes hold. -/
def value128 : List Byte → Nat
  | [] => 0
  | b :: bs => b.toNat % 128 + 128 * value128 bs

/-- Every byte but the last says that more follow. -/
def Terminated : List Byte → Prop
  | [] => False
  | [b] => b.toNat < 128
  | b :: c :: bs => 128 ≤ b.toNat ∧ Terminated (c :: bs)

theorem base128_of_lt {n : Nat} (h : n < 128) : base128 n = [BitVec.ofNat 8 n] := by
  rw [base128, if_pos h]

/-- A larger number has its low bits in a byte with the continuation bit. -/
theorem base128_of_le {n : Nat} (h : 128 ≤ n) :
    base128 n = BitVec.ofNat 8 (n % 128 + 128) :: base128 (n / 128) := by
  rw [base128, if_neg (by omega)]

/-- The first groups of a number that has more than them. -/
theorem base128_unroll {n count : Nat} (h : 128 ^ count ≤ n) : base128 n =
      (range count).map (fun i => BitVec.ofNat 8 (n / 128 ^ i % 128 + 128)) ++
        base128 (n / 128 ^ count) := by
  induction count with
  | zero => simp
  | succ count ih =>
    have hpow : 0 < 128 ^ count := Nat.pow_pos (by decide)
    have hle : 128 ≤ n / 128 ^ count := by
      rw [Nat.le_div_iff_mul_le hpow]
      exact (by ring : 128 * 128 ^ count = 128 ^ (count + 1)).trans_le h
    rw [ih ((Nat.pow_le_pow_right (by decide) (le_succ count)).trans h), base128_of_le hle,
      Nat.div_div_eq_div_mul, ← Nat.pow_succ]
    simp [range_succ]

theorem base128_ne_nil (n : Nat) : base128 n ≠ [] := by
  rw [base128]
  split <;> simp

theorem Terminated.ne_nil {bytes : List Byte} (h : Terminated bytes) : bytes ≠ [] := by
  rintro rfl
  exact h

/-- A byte with the continuation bit goes before a terminated group. -/
theorem terminated_cons {b : Byte} {bs : List Byte} (hb : 128 ≤ b.toNat) (h : Terminated bs) :
    Terminated (b :: bs) := by
  cases bs with
  | nil => exact h.elim
  | cons c bs => exact ⟨hb, h⟩

/-- Only the last byte of an encoding is without the continuation bit. -/
theorem terminated_base128 (n : Nat) : Terminated (base128 n) := by
  induction n using Nat.strongRecOn with
  | ind n ih =>
    by_cases h : n < 128
    · rw [base128_of_lt h]
      show (BitVec.ofNat 8 n).toNat < 128
      rw [BitVec.toNat_ofNat]
      omega
    · rw [base128_of_le (by omega)]
      refine terminated_cons ?_ (ih (n / 128) (by omega))
      rw [BitVec.toNat_ofNat]
      omega

/-- An encoding has the value of its number. -/
theorem value128_base128 (n : Nat) : value128 (base128 n) = n := by
  induction n using Nat.strongRecOn with
  | ind n ih =>
    by_cases h : n < 128
    · rw [base128_of_lt h, value128, value128, BitVec.toNat_ofNat]
      omega
    · rw [base128_of_le (by omega), value128, ih (n / 128) (by omega), BitVec.toNat_ofNat]
      omega

/-- Each byte holds seven bits, up to the highest bit that is set. -/
theorem length_base128 (n : Nat) : (base128 n).length = n.log2 / 7 + 1 := by
  induction n using Nat.strongRecOn with
  | ind n ih =>
    by_cases h : n < 128
    · have hlog : n.log2 < 7 := by
        by_cases hn : n = 0
        · simp [hn]
        · exact (log2_lt hn).2 h
      rw [base128_of_lt h, length_singleton]
      omega
    · have hseven : 7 ≤ n.log2 := (le_log2 (by omega)).2 (by omega)
      have hlog : (n / 128).log2 = n.log2 - 7 := by
        rw [log2_eq_log_two, log2_eq_log_two]
        exact log_div_base_pow 2 n 7
      rw [base128_of_le (by omega), length_cons, ih (n / 128) (by omega)]
      omega

/-- The last byte holds what the bytes before it leave. -/
theorem base128_last {n bound steps : Nat} (h : n < bound * 128 ^ steps)
    (hlength : (base128 n).length = steps + 1) : ∀ b ∈ (base128 n).getLast?, b.toNat < bound := by
  induction steps generalizing n with
  | zero =>
    by_cases hn : n < 128
    · rw [base128_of_lt hn]
      simp only [getLast?_singleton, Option.mem_some_iff, forall_eq', BitVec.toNat_ofNat]
      omega
    · rw [base128_of_le (by omega)] at hlength
      simp [base128_ne_nil] at hlength
  | succ steps ih =>
    by_cases hn : n < 128
    · rw [base128_of_lt hn] at hlength
      simp at hlength
    · rw [base128_of_le (by omega)] at hlength ⊢
      rw [getLast?_cons_of_ne_nil (base128_ne_nil _)]
      refine ih ?_ (by simpa using hlength)
      rw [Nat.div_lt_iff_lt_mul (by omega)]
      calc n < bound * 128 ^ (steps + 1) := h
        _ = bound * 128 ^ steps * 128 := by ring

/-- A group has seven bits for each byte. -/
theorem value128_lt (bytes : List Byte) : value128 bytes < 2 ^ (7 * bytes.length) := by
  induction bytes with
  | nil => exact Nat.one_pos
  | cons b bytes ih =>
    rw [value128, length_cons, mul_succ, pow_add]
    omega

/-- An encoding is long enough for its number. -/
theorem lt_of_length_base128 (n : Nat) : n < 2 ^ (7 * (base128 n).length) := by
  have hlt := value128_lt (base128 n)
  rwa [value128_base128] at hlt

/-- An encoding is no longer than its number needs. -/
theorem length_base128_le {n groups : Nat} (h : n < 128 ^ (groups + 1)) :
    (base128 n).length ≤ groups + 1 := by
  by_cases hn : n = 0
  · rw [hn, base128_of_lt (by decide), length_singleton]
    omega
  · have hlog : n.log2 < 7 * (groups + 1) := (log2_lt hn).2 (by rwa [pow_mul])
    rw [length_base128]
    omega

variable {bytes : List Byte} {i : Nat} {b : Byte}

/-- Each byte holds seven bits of the number. -/
theorem testBit_value128 (hb : bytes[i]? = some b) {j : Nat} (hj : j < 7) :
    (value128 bytes).testBit (7 * i + j) = b.getLsbD j := by
  induction bytes generalizing i with
  | nil => cases hb
  | cons c bytes ih =>
    have hsplit : value128 (c :: bytes) = 2 ^ 7 * value128 bytes + c.toNat % 2 ^ 7 := by
      rw [value128, add_comm, show 2 ^ 7 = 128 from rfl]
    rw [hsplit, testBit_two_pow_mul_add _ (mod_lt _ (by decide))]
    cases i with
    | zero =>
      obtain rfl : c = b := by simpa using hb
      rw [testBit_mod_two_pow, BitVec.testBit_toNat]
      simp [hj]
    | succ i =>
      rw [if_neg (by omega), ← ih hb]
      congr 1
      omega

/-- A byte of an encoding has seven bits of the number. -/
theorem getLsbD_base128 {n : Nat} (hb : (base128 n)[i]? = some b) :
    ∀ j < 7, b.getLsbD j = n.testBit (7 * i + j) := by
  intro j hj
  rw [← testBit_value128 hb hj, value128_base128]

/-! ## The first of several numbers -/

/-- The bytes up to the first one below 128. There are at most `steps` of them, and the last of as
many must be below `bound`. -/
def takeTerminated (bound : Nat) : (steps : Nat) → List Byte → Option (List Byte)
  | steps + 1, b :: bytes =>
    if b.toNat < (if steps = 0 then bound else 128) then some [b]
    else (takeTerminated bound steps bytes).map (b :: ·)
  | _, _ => none

section TakeTerminated

variable {bound steps : Nat} {group : List Byte}

/-- A terminated group is found in front of anything else. -/
theorem takeTerminated_append (h : Terminated group) (hsteps : group.length ≤ steps)
    (hlast : group.length = steps → ∀ b ∈ group.getLast?, b.toNat < bound) (rest : List Byte) :
    takeTerminated bound steps (group ++ rest) = some group := by
  induction group generalizing steps with
  | nil => exact h.elim
  | cons b group ih =>
    obtain ⟨steps, rfl⟩ : ∃ n, steps = n + 1 := ⟨steps - 1, by simp at hsteps; omega⟩
    rw [cons_append, takeTerminated]
    cases group with
    | nil =>
      have hstop : b.toNat < if steps = 0 then bound else 128 := by
        split
        next hzero => exact hlast (by simp [hzero]) b rfl
        next => exact h
      rw [if_pos hstop]
    | cons c group =>
      have hne : steps ≠ 0 := by simp at hsteps; omega
      rw [if_neg hne, if_neg (not_lt.2 h.1), ih h.2 (by simpa using hsteps)
        fun hlength => hlast (by simpa using hlength)]
      rfl

/-- A string that is cut has the first number only if the whole of it is left. -/
theorem takeTerminated_take (k : Nat) : takeTerminated bound steps (bytes.take k) =
      (takeTerminated bound steps bytes).filter (·.length ≤ k) := by
  induction steps, bytes using takeTerminated.induct bound generalizing k with
  | case1 steps b bytes hstop =>
    cases k <;> simp [takeTerminated, hstop, Option.filter]
  | case2 steps b bytes hgo ih =>
    rw [takeTerminated, if_neg hgo]
    cases k with
    | zero => cases takeTerminated bound steps bytes <;> simp [takeTerminated, Option.filter]
    | succ k =>
      rw [take_succ_cons, takeTerminated, if_neg hgo, ih]
      cases takeTerminated bound steps bytes with
      | none => rfl
      | some group => by_cases hk : group.length ≤ k <;> simp [Option.filter, hk]
  | case3 steps bytes hnone =>
    cases steps <;> cases bytes <;> simp_all [takeTerminated]

/-- What is found is a terminated group at the front. -/
theorem takeTerminated_spec (hbound : bound ≤ 128)
    (h : takeTerminated bound steps bytes = some group) : group <+: bytes ∧ Terminated group ∧
      group.length ≤ steps := by
  induction steps, bytes using takeTerminated.induct bound generalizing group with
  | case1 steps b bytes hstop =>
    rw [takeTerminated, if_pos hstop] at h
    cases h
    have hsmall : b.toNat < 128 := by
      split at hstop <;> omega
    exact ⟨by simp, hsmall, by simp⟩
  | case2 steps b bytes hgo ih =>
    rw [takeTerminated, if_neg hgo] at h
    obtain ⟨rest, hrest, rfl⟩ := Option.map_eq_some_iff.mp h
    obtain ⟨hfront, hterm, hlength⟩ := ih hrest
    cases steps with
    | zero => simp [takeTerminated] at hrest
    | succ steps =>
      exact ⟨(prefix_cons_inj b).mpr hfront, terminated_cons (not_lt.1 hgo) hterm,
        succ_le_succ hlength⟩
  | case3 steps bytes hnone => simp [takeTerminated] at h

end TakeTerminated

end Gloop.Foundation
