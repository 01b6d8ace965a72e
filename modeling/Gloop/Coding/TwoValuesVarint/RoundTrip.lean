import Gloop.Coding.TwoValuesVarint.Model
import Gloop.Coding.Varint.RoundTrip
import Mathlib.Tactic.IntervalCases

/-!
# Pair decoding undoes pair encoding

`Interleaved a b n` says that `n` has the nibbles of `a` and `b` in turn. The encoders append the
base-128 bytes of such a number (`encode32_eq`, `encode64_eq`), and the decoders take its bits apart
seven at a time. `addAll_addTwo` is the invariant of their unrolled loops, and
`two_values_round_trip` the result for both widths.
-/

namespace Gloop.Coding.TwoValuesVarint

section

open Gloop.Foundation Gloop.Coding.Varint BitVec Nat

/-- Where bit `j` of the first value stands. The same bit of the second value is four places up. -/
def position (j : Nat) : Nat :=
  8 * (j / 4) + j % 4

/-- The number has the nibbles of the two values in turn. -/
structure Interleaved (a b n : Nat) : Prop where
  first : ∀ j, n.testBit (position j) = a.testBit j
  second : ∀ j, n.testBit (position j + 4) = b.testBit j

theorem getLsbD_low_nibble (x : BitVec 32) (j : Nat) :
    (x &&& 0xf#32).getLsbD j = (x.getLsbD j && decide (j < 4)) := by
  rw [← testBit_toNat, toNat_and, show (0xf#32).toNat = 2 ^ 4 - 1 from rfl,
    and_two_pow_sub_one_eq_mod, testBit_mod_two_pow, testBit_toNat, Bool.and_comm]

/-- One iteration of `InterleaveNibbles` packs a nibble of each value into a byte. -/
theorem getLsbD_oneByte (a b : BitVec 32) {j : Nat} (hj : j < 8) :
    (((a &&& 0xf#32) ||| ((b &&& 0xf#32) <<< 4)).setWidth 8).getLsbD j =
      if j < 4 then a.getLsbD j else b.getLsbD (j - 4) := by
  rw [getLsbD_setWidth, getLsbD_or, getLsbD_shiftLeft, getLsbD_low_nibble, getLsbD_low_nibble]
  by_cases hlow : j < 4
  · simp [hj, hlow]
  · simp [hj, hlow, show j < 32 by omega, show j - 4 < 4 by omega]

/-- The loop keeps what it has written and adds the nibbles of the values that remain. -/
theorem interleaveLoop_bits (a b : BitVec 32) (v : BitVec 64) (shift : Nat)
    (hshift : shift % 8 = 0) (ha : a.toNat * 2 ^ (shift / 2) < 2 ^ 32)
    (hb : b.toNat * 2 ^ (shift / 2) < 2 ^ 32) (hv : ∀ j, shift ≤ j → v.getLsbD j = false) :
    (∀ j < shift, (interleaveLoop a b v shift).getLsbD j = v.getLsbD j) ∧
      (∀ j, (interleaveLoop a b v shift).getLsbD (shift + position j) = a.getLsbD j) ∧
      ∀ j, (interleaveLoop a b v shift).getLsbD (shift + (position j + 4)) = b.getLsbD j := by
  fun_induction interleaveLoop a b v shift with
  | case1 a b v shift hmore oneByte ih =>
    have hroom : shift < 64 := by
      by_contra hroom
      have hpow : 2 ^ 32 ≤ 2 ^ (shift / 2) := Nat.pow_le_pow_right (by omega) (by omega)
      cases hmore with
      | inl h => exact absurd ha (not_lt.2 (hpow.trans (Nat.le_mul_of_pos_left _ h)))
      | inr h => exact absurd hb (not_lt.2 (hpow.trans (Nat.le_mul_of_pos_left _ h)))
    have hnext : ∀ x : BitVec 32, x.toNat * 2 ^ (shift / 2) < 2 ^ 32 →
        (x >>> 4).toNat * 2 ^ ((shift + 8) / 2) < 2 ^ 32 := by
      intro x hx
      refine lt_of_le_of_lt ?_ hx
      rw [toNat_ushiftRight, shiftRight_eq_div_pow,
        show (shift + 8) / 2 = 4 + shift / 2 by omega, pow_add, ← mul_assoc]
      exact Nat.mul_le_mul_right _ (div_mul_le_self _ _)
    -- The byte of this iteration fills the eight bits from `shift` on.
    have hbits : ∀ j, (v ||| (oneByte.setWidth 64 <<< shift)).getLsbD j =
        if j < shift then v.getLsbD j else oneByte.getLsbD (j - shift) := by
      intro j
      rw [getLsbD_or]
      by_cases hj : j < shift
      · simp [hj]
      · rw [hv j (by omega)]
        by_cases hlt : j - shift < 8
        · simp [show j < 64 by omega]
        · simp [getLsbD_of_ge oneByte (j - shift) (by omega)]
    obtain ⟨hlow, hfirst, hsecond⟩ := ih (by omega) (hnext a ha) (hnext b hb) (by
      intro j hj
      rw [hbits, if_neg (by omega), getLsbD_of_ge _ _ (by omega)])
    refine ⟨fun j hj => ?_, fun j => ?_, fun j => ?_⟩
    · rw [hlow j (by omega), hbits, if_pos hj]
    · by_cases hj : j < 4
      · rw [show position j = j by unfold position; omega, hlow _ (by omega), hbits,
          if_neg (by omega), Nat.add_sub_cancel_left, getLsbD_oneByte a b (by omega), if_pos hj]
      · have := hfirst (j - 4)
        rw [show shift + 8 + position (j - 4) = shift + position j by unfold position; omega,
          getLsbD_ushiftRight, show 4 + (j - 4) = j by omega] at this
        exact this
    · by_cases hj : j < 4
      · rw [show position j = j by unfold position; omega, hlow _ (by omega), hbits,
          if_neg (by omega), Nat.add_sub_cancel_left, getLsbD_oneByte a b (by omega),
          if_neg (by omega), Nat.add_sub_cancel]
      · have := hsecond (j - 4)
        rw [show shift + 8 + (position (j - 4) + 4) = shift + (position j + 4) by
            unfold position; omega,
          getLsbD_ushiftRight, show 4 + (j - 4) = j by omega] at this
        exact this
  | case2 a b v shift hdone =>
    have ha : a = 0 := eq_of_toNat_eq (by simp; omega)
    have hb : b = 0 := eq_of_toNat_eq (by simp; omega)
    subst ha hb
    simp only [ofNat_eq_ofNat, getLsbD_zero]
    exact ⟨fun _ _ => trivial, fun j => hv _ (by omega), fun j => hv _ (by omega)⟩

/-- `InterleaveNibbles` interleaves the nibbles of two values. -/
theorem interleaved_interleaveNibbles (a b : BitVec 32) :
    Interleaved a.toNat b.toNat (interleaveNibbles a b).toNat := by
  obtain ⟨-, hfirst, hsecond⟩ := interleaveLoop_bits a b 0 0 rfl (by simpa using a.isLt)
    (by simpa using b.isLt) (by simp)
  constructor
  · intro j
    have := hfirst j
    rwa [zero_add] at this
  · intro j
    have := hsecond j
    rwa [zero_add] at this

/-- Two interleaved words make up an interleaved double word. -/
theorem Interleaved.append {a b a' b' lo hi : Nat} (hlo : Interleaved a b lo)
    (hhi : Interleaved a' b' hi) (ha : a < 2 ^ 32) (hb : b < 2 ^ 32) (hlt : lo < 2 ^ 64) :
    Interleaved (2 ^ 32 * a' + a) (2 ^ 32 * b' + b) (2 ^ 64 * hi + lo) := by
  constructor
  · intro j
    rw [testBit_two_pow_mul_add _ hlt, testBit_two_pow_mul_add _ ha, ← hlo.first j,
      ← hhi.first (j - 32)]
    by_cases hj : j < 32
    · rw [if_pos (by unfold position; omega), if_pos hj]
    · rw [if_neg (by unfold position; omega), if_neg hj,
        show position j - 64 = position (j - 32) by unfold position; omega]
  · intro j
    rw [testBit_two_pow_mul_add _ hlt, testBit_two_pow_mul_add _ hb, ← hlo.second j,
      ← hhi.second (j - 32)]
    by_cases hj : j < 32
    · rw [if_pos (by unfold position; omega), if_pos hj]
    · rw [if_neg (by unfold position; omega), if_neg hj,
        show position j + 4 - 64 = position (j - 32) + 4 by unfold position; omega]

section Append

variable (lzcnt hasRoom : Bool) (uninit : Nat → Byte) (s : List Byte)

/-- `Append64` appends an encoding. -/
theorem append64_eq (value : BitVec 64) :
    append64 lzcnt hasRoom uninit s value = some (s ++ base128 value.toNat) := by
  have hlength : length64 lzcnt value = (base128 value.toNat).length :=
    lengthImpl_eq lzcnt (by decide) (by decide) value
  unfold append64
  split
  next hshort => rw [base128_of_lt hshort.1, ← ofNat_toNat]
  next => rw [Varint.encode64_eq, hlength, store_resizeUninitialized]

/-- `Encode32` appends the encoding of the interleaved values. -/
theorem encode32_eq (a b : BitVec 32) :
    encode32 lzcnt hasRoom uninit s a b = some (s ++ base128 (interleaveNibbles a b).toNat) :=
  append64_eq lzcnt hasRoom uninit s _

end Append

/-! ## Double words -/

section Encode128

variable {hi lo : BitVec 64}

/-- The highest bit of a value of two words. -/
theorem log2_double (hhi : hi ≠ 0) : (2 ^ 64 * hi.toNat + lo.toNat).log2 = 64 + hi.toNat.log2 := by
  have hpos : hi.toNat ≠ 0 := by
    intro h
    exact hhi (eq_of_toNat_eq h)
  have hlow := log2_self_le hpos
  have hhigh := @lt_log2_self hi.toNat
  refine (log2_eq_iff (by omega)).2 ⟨?_, ?_⟩
  · rw [pow_add]
    exact (Nat.mul_le_mul_left _ hlow).trans (Nat.le_add_right _ _)
  · rw [show 64 + hi.toNat.log2 + 1 = 64 + (hi.toNat.log2 + 1) by ring, pow_add]
    calc 2 ^ 64 * hi.toNat + lo.toNat < 2 ^ 64 * hi.toNat + 2 ^ 64 := by omega
      _ = 2 ^ 64 * (hi.toNat + 1) := by ring
      _ ≤ 2 ^ 64 * 2 ^ (hi.toNat.log2 + 1) := Nat.mul_le_mul_left _ hhigh

/-- Seventy-three 512ths are close enough to a seventh for a double word. -/
theorem length128_eq (lzcnt : Bool) (hhi : hi ≠ 0) :
    length128 lzcnt hi lo = (base128 (2 ^ 64 * hi.toNat + lo.toNat)).length := by
  have hpos : hi.toNat ≠ 0 := by
    intro h
    exact hhi (eq_of_toNat_eq h)
  have hlog : hi.toNat.log2 < 64 := (log2_lt hpos).2 hi.isLt
  have hfloor : log2FloorNonZero128 hi lo = 64 + hi.toNat.log2 := by
    rw [log2FloorNonZero128, if_pos hhi, bitWidth, if_neg hpos, Nat.add_sub_cancel]
  rw [length128, if_neg hhi, length_base128, log2_double hhi]
  omega

/-- The first nine groups lie in the low word. -/
theorem low_group (i : Nat) (hi9 : i < 9) : (lo >>> (7 * i) ||| 128#64).setWidth 8 =
      BitVec.ofNat 8 ((2 ^ 64 * hi.toNat + lo.toNat) / 128 ^ i % 128 + 128) := by
  have hgroup : (2 ^ 64 * hi.toNat + lo.toNat) / 128 ^ i % 128 = lo.toNat / 128 ^ i % 128 := by
    interval_cases i <;> omega
  rw [setWidth_or, show (128#64).setWidth 8 = 128#8 from rfl, ← ofNat_toNat,
    toNat_shift_seven, ofNat_or_128, hgroup]

/-- The tenth group has one bit of the low word. -/
theorem tenth_group : (lo >>> 63 ||| hi <<< 1).setWidth 8 =
      BitVec.ofNat 8 ((2 ^ 64 * hi.toNat + lo.toNat) / 128 ^ 9) := by
  have hor : (lo >>> 63 ||| hi <<< 1).toNat = 2 * (hi.toNat % 2 ^ 63) + lo.toNat / 2 ^ 63 := by
    rw [toNat_or, toNat_ushiftRight, toNat_shiftLeft, shiftRight_eq_div_pow, Nat.shiftLeft_eq,
      Nat.or_comm, show hi.toNat * 2 ^ 1 % 2 ^ 64 = 2 ^ 1 * (hi.toNat % 2 ^ 63) by omega,
      ← two_pow_add_eq_or_of_lt (by omega)]
  apply eq_of_toNat_eq
  rw [← ofNat_toNat, BitVec.toNat_ofNat, BitVec.toNat_ofNat]
  omega

/-- The bytes of a value of two words. -/
theorem encode128Bytes_eq (hhi : hi ≠ 0) :
    encode128Bytes hi lo = base128 (2 ^ 64 * hi.toNat + lo.toNat) := by
  have hpos : hi.toNat ≠ 0 := by
    intro h
    exact hhi (eq_of_toNat_eq h)
  rw [encode128Bytes, @base128_unroll (2 ^ 64 * hi.toNat + lo.toNat) 9 (by omega)]
  refine congrArg₂ _ (List.map_congr_left fun i hi9 => low_group i (List.mem_range.1 hi9)) ?_
  split
  · rw [base128_of_lt (by omega), tenth_group]
  · rw [base128_of_le (by omega), Varint.encode64_eq, setWidth_or, tenth_group,
      show (128#64).setWidth 8 = 128#8 from rfl, ofNat_or_128, toNat_ushiftRight]
    congr 2
    omega

/-- A value of two words is appended. -/
theorem encode128_eq (lzcnt : Bool) (uninit : Nat → Byte) (s : List Byte) (hhi : hi ≠ 0) :
    encode128 lzcnt uninit s hi lo = some (s ++ base128 (2 ^ 64 * hi.toNat + lo.toNat)) := by
  rw [encode128, encode128Bytes_eq hhi, length128_eq lzcnt hhi, store_resizeUninitialized]

end Encode128

section Encode64

variable (lzcnt hasRoom : Bool) (uninit : Nat → Byte) (s : List Byte)

/-- The test for two values of 32 bits. -/
theorem high_half_eq_zero (a b : BitVec 64) :
    (a ||| b) >>> 32 = 0 ↔ a.toNat < 2 ^ 32 ∧ b.toNat < 2 ^ 32 := by
  have hhalf : ∀ x : BitVec 64, x >>> 32 = 0 ↔ x.toNat < 2 ^ 32 := by
    intro x
    rw [← toNat_inj, toNat_ushiftRight, shiftRight_eq_div_pow]
    show x.toNat / 2 ^ 32 = 0 ↔ _
    omega
  rw [ushiftRight_or_distrib, ← hhalf a, ← hhalf b]
  exact or_eq_zero_iff

/-- A word is put together from its halves. -/
theorem toNat_halves (x : BitVec 64) :
    2 ^ 32 * ((x >>> 32).setWidth 32).toNat + (x.setWidth 32).toNat = x.toNat := by
  rw [toNat_setWidth, toNat_setWidth, toNat_ushiftRight]
  omega

theorem Interleaved.eq_zero {a b : Nat} (h : Interleaved a b 0) : a = 0 ∧ b = 0 := by
  constructor
  · apply eq_of_testBit_eq
    intro j
    rw [← h.first j, zero_testBit, zero_testBit]
  · apply eq_of_testBit_eq
    intro j
    rw [← h.second j, zero_testBit, zero_testBit]

/-- `Encode64` appends the code of a number that interleaves its arguments. -/
theorem encode64_eq (a b : BitVec 64) : ∃ n, Interleaved a.toNat b.toNat n ∧ n < 2 ^ 128 ∧
      encode64 lzcnt hasRoom uninit s a b = some (s ++ base128 n) := by
  have hlo := interleaved_interleaveNibbles (a.setWidth 32) (b.setWidth 32)
  have hhi := interleaved_interleaveNibbles ((a >>> 32).setWidth 32) ((b >>> 32).setWidth 32)
  have ha := toNat_halves a
  have hb := toNat_halves b
  unfold encode64
  split
  next hsmall =>
    obtain ⟨hsmallA, hsmallB⟩ := (high_half_eq_zero a b).1 hsmall
    refine ⟨_, ?_, ?_, append64_eq lzcnt hasRoom uninit s _⟩
    · rwa [show (a.setWidth 32).toNat = a.toNat by omega,
        show (b.setWidth 32).toNat = b.toNat by omega] at hlo
    · exact (isLt _).trans (by decide)
  next hlarge =>
    have hnonzero : interleaveNibbles ((a >>> 32).setWidth 32) ((b >>> 32).setWidth 32) ≠ 0 := by
      intro hzero
      rw [hzero] at hhi
      obtain ⟨hzeroA, hzeroB⟩ := hhi.eq_zero
      exact hlarge ((high_half_eq_zero a b).2 ⟨by omega, by omega⟩)
    refine ⟨_, ?_, ?_, encode128_eq lzcnt uninit s hnonzero⟩
    · rw [← ha, ← hb]
      exact hlo.append hhi (isLt _) (isLt _) (isLt _)
    · omega

/-- On values that fit into 32 bits `Encode64` does what `Encode32` does. -/
theorem encode64_setWidth (a b : BitVec 32) :
    encode64 lzcnt hasRoom uninit s (a.setWidth 64) (b.setWidth 64) =
      encode32 lzcnt hasRoom uninit s a b := by
  have hsmall : (a.setWidth 64 ||| b.setWidth 64) >>> 32 = 0 := by
    rw [high_half_eq_zero, toNat_setWidth, toNat_setWidth]
    omega
  rw [encode64, if_pos hsmall, setWidth_setWidth_of_le _ (by decide),
    setWidth_setWidth_of_le _ (by decide)]
  rfl

end Encode64

end

/-! ## What the decoders read -/

open Gloop.Foundation Gloop.Coding.Varint BitVec Option Nat

/-- The number of bits of the first value among the lowest `m` interleaved bits. -/
def firstBits (m : Nat) : Nat :=
  4 * (m / 8) + min (m % 8) 4

/-- The number of bits of the second value among the lowest `m` interleaved bits. -/
def secondBits (m : Nat) : Nat :=
  4 * (m / 8) + (m % 8 - 4)

/-- The word has the lowest `known` bits of the number and no others. -/
def Knows {w : Nat} (res : BitVec w) (known x : Nat) : Prop :=
  ∀ j < w, res.getLsbD j = (decide (j < known) && x.testBit j)

/-- The bits that are taken from a byte. -/
theorem getLsbD_getBits (byte : Byte) (offset : Nat) {bits : Nat} (hbits : bits ≤ 4) (j : Nat) :
    (getBits byte offset bits).getLsbD j = (decide (j < bits) && byte.getLsbD (offset + j)) := by
  have hmask : 1#32 <<< bits - 1#32 = BitVec.ofNat 32 (2 ^ bits - 1) := by
    interval_cases bits <;> rfl
  rw [getBits, hmask, getLsbD_setWidth, getLsbD_and, getLsbD_ofNat]
  by_cases hj : j < bits
  · by_cases hoff : offset + j < 32
    · simp [hj, hoff, show j < 64 by omega, show j < 32 by omega]
    · simp [getLsbD_of_ge byte (offset + j) (by omega)]
  · simp [hj]

/-- One group of bits moved to its place. -/
theorem getLsbD_group {w : Nat} (hw : w ≤ 64) (byte : Byte) (offset shift : Nat) {bits : Nat}
    (hbits : bits ≤ 4) {j : Nat} (hj : j < w) :
    ((getBits byte offset bits <<< shift).setWidth w).getLsbD j =
      (decide (shift ≤ j ∧ j < shift + bits) && byte.getLsbD (offset + (j - shift))) := by
  rw [getLsbD_setWidth, getLsbD_shiftLeft, getLsbD_getBits byte offset hbits]
  by_cases hlow : j < shift
  · simp [hlow]
  · by_cases hhigh : j < shift + bits
    · simp [hj, hhigh, show j < 64 by omega, show shift ≤ j by omega,
        show j - shift < bits by omega]
    · simp [hhigh, show ¬ j - shift < bits by omega]

/-- The place of a bit of the first value. -/
theorem position_four {q t : Nat} (ht : t < 4) : position (4 * q + t) = 8 * q + t := by
  unfold position
  omega

/-- The three bits on both sides of a nibble. -/
theorem position_three {q r t : Nat} (hr : r < 4) (ht : t < 3) :
    position (4 * q + 3 * r + t) + 4 = 8 * q + 7 * r + (if t < r then t else 4 + t) := by
  unfold position
  interval_cases r <;> interval_cases t <;> simp <;> omega

section Macro

variable {w r x y i c d u v : Nat} {byte : Byte} {a b : Partial w}

/-- A step reads four more bits of one value and three more of the other. -/
theorem parseBitsDecodeTwo_knows (hw : w ≤ 64) (hr : r < 4) (ha : Knows a.res a.shift x)
    (hb : Knows b.res b.shift y)
    (hx : ∀ j t, t < 7 → position j + c = 7 * i + t → byte.getLsbD t = x.testBit j)
    (hy : ∀ j t, t < 7 → position j + d = 7 * i + t → byte.getLsbD t = y.testBit j)
    (hu : a.shift = 4 * u) (hv : b.shift = 4 * v + 3 * r) (hc : 8 * u + c = 7 * i + r)
    (hd : 8 * v + 7 * r + d = 7 * i + 4) :
      Knows (parseBitsDecodeTwo r byte a b).1.res (a.shift + 4) x ∧
        Knows (parseBitsDecodeTwo r byte a b).2.res (b.shift + 3) y := by
  have hfour : ∀ t < 4, byte.getLsbD (r + t) = x.testBit (a.shift + t) := fun t ht =>
    hx _ _ (by omega) (by rw [hu, position_four ht]; omega)
  have hlow : ∀ t < r, byte.getLsbD t = y.testBit (b.shift + t) := fun t ht => by
    have hpos := position_three (q := v) hr (show t < 3 by omega)
    rw [if_pos ht, ← hv] at hpos
    exact hy _ _ (by omega) (by omega)
  have hhigh : ∀ t < 3, r ≤ t → byte.getLsbD (4 + t) = y.testBit (b.shift + t) := fun t ht hle => by
    have hpos := position_three (q := v) hr ht
    rw [if_neg (by omega), ← hv] at hpos
    exact hy _ _ (by omega) (by omega)
  constructor
  · intro j hj
    rw [parseBitsDecodeTwo, getLsbD_or, ha j hj, getLsbD_group hw _ _ _ (by omega) hj]
    by_cases hold : j < a.shift
    · simp [hold, show j < a.shift + 4 by omega]
    · by_cases hnew : j < a.shift + 4
      · have hbit := hfour (j - a.shift) (by omega)
        simp [hbit, show a.shift ≤ j by omega]
      · simp [hold, hnew]
  · intro j hj
    rw [parseBitsDecodeTwo, getLsbD_or, getLsbD_or, hb j hj,
      getLsbD_group hw _ _ _ (by omega) hj, getLsbD_group hw _ _ _ (by omega) hj]
    by_cases hold : j < b.shift
    · simp [hold, show j < b.shift + 3 by omega,
        show ¬ b.shift + r ≤ j by omega]
    by_cases hmid : j < b.shift + r
    · have hbit := hlow (j - b.shift) (by omega)
      simp [hold, hmid, hbit, show b.shift ≤ j by omega,
        show j < b.shift + 3 by omega]
    · by_cases hnew : j < b.shift + 3
      · have hbit := hhigh (j - b.shift) (by omega) (by omega)
        rw [show b.shift + (j - b.shift) = j by omega,
          show 4 + (j - b.shift) = r + 4 + (j - (b.shift + r)) by omega] at hbit
        simp [hold, hnew, hbit, show b.shift + r ≤ j by omega,
          show j < b.shift + r + (3 - r) by omega]
      · simp [hold, hmid, hnew, show ¬ j < b.shift + r + (3 - r) by omega]

end Macro

/-- A decoder of a width: its last step comes when only bits of the second value are missing. -/
structure Layout (w last lastShift : Nat) : Prop where
  width : w ≤ 64
  first : w ≤ firstBits (7 * last)
  second : secondBits (7 * last) = lastShift
  rest : w ≤ secondBits (7 * (last + 1))
  group : w ≤ lastShift + 7
  position : ∀ j, lastShift ≤ j → j < w → position j + 4 = 7 * last + (j - lastShift)

/-- The state of a decoder after `i` bytes. -/
structure Decoded {w : Nat} (last a b i : Nat) (res : Partial w × Partial w) : Prop where
  first : Knows res.1.res (firstBits (7 * i)) a
  second : Knows res.2.res (secondBits (7 * i)) b
  shifts : i ≤ last → res.1.shift = firstBits (7 * i) ∧ res.2.shift = secondBits (7 * i)

section Step

variable {w last lastShift a b n i : Nat} {byte : Byte} {res : Partial w × Partial w}

/-- Before the last step the value that has four bits in the byte is the first one in every other
block of four bytes. -/
theorem Decoded.step (hw : w ≤ 64) (hinter : Interleaved a b n)
    (hbyte : (base128 n)[i]? = some byte) (hi : i < last) (h : Decoded last a b i res) :
    Decoded last a b (i + 1) (addTwo w last lastShift i res byte) := by
  have hbits := getLsbD_base128 hbyte
  obtain ⟨hshift₁, hshift₂⟩ := h.shifts (by omega)
  have hfirst := h.first
  have hsecond := h.second
  rw [← hshift₁] at hfirst
  rw [← hshift₂] at hsecond
  have hbitA : ∀ j t, t < 7 → position j + 0 = 7 * i + t → byte.getLsbD t = a.testBit j := by
    intro j t ht hpos
    rw [hbits t ht, ← hpos, add_zero, hinter.first]
  have hbitB : ∀ j t, t < 7 → position j + 4 = 7 * i + t → byte.getLsbD t = b.testBit j := by
    intro j t ht hpos
    rw [hbits t ht, ← hpos, hinter.second]
  rw [addTwo, if_neg (by omega)]
  -- four bytes give more bits to the first value, and the next four to the second one
  obtain ⟨q, r, hr, hcase⟩ : ∃ q r, r < 4 ∧ (i = 8 * q + r ∨ i = 8 * q + 4 + r) :=
    ⟨i / 8, i % 4, by omega, by omega⟩
  cases hcase with
  | inl heq =>
    have hcount : firstBits (7 * i) = 4 * (7 * q + r) ∧ secondBits (7 * i) = 4 * (7 * q) + 3 * r ∧
        firstBits (7 * (i + 1)) = firstBits (7 * i) + 4 ∧
        secondBits (7 * (i + 1)) = secondBits (7 * i) + 3 := by
      unfold firstBits secondBits
      interval_cases r <;> omega
    rw [← hshift₁, ← hshift₂] at hcount
    obtain ⟨hfirstBits, hsecondBits, hgrow₁, hgrow₂⟩ := hcount
    rw [if_pos (by omega), show i % 4 = r by omega]
    obtain ⟨hknows₁, hknows₂⟩ :=
      parseBitsDecodeTwo_knows hw hr hfirst hsecond hbitA hbitB hfirstBits
      hsecondBits (by omega) (by omega)
    exact ⟨hgrow₁ ▸ hknows₁, hgrow₂ ▸ hknows₂, fun _ => ⟨hgrow₁.symm, hgrow₂.symm⟩⟩
  | inr heq =>
    have hcount : firstBits (7 * i) = 4 * (7 * q + 4) + 3 * r ∧
        secondBits (7 * i) = 4 * (7 * q + 3 + r) ∧ firstBits (7 * (i + 1)) = firstBits (7 * i) + 3 ∧
        secondBits (7 * (i + 1)) = secondBits (7 * i) + 4 := by
      unfold firstBits secondBits
      interval_cases r <;> omega
    rw [← hshift₁, ← hshift₂] at hcount
    obtain ⟨hfirstBits, hsecondBits, hgrow₁, hgrow₂⟩ := hcount
    rw [if_neg (by omega), show i % 4 = r by omega]
    obtain ⟨hknows₂, hknows₁⟩ :=
      parseBitsDecodeTwo_knows hw hr hsecond hfirst hbitB hbitA hsecondBits
      hfirstBits (by omega) (by omega)
    exact ⟨hgrow₁ ▸ hknows₁, hgrow₂ ▸ hknows₂, fun _ => ⟨hgrow₁.symm, hgrow₂.symm⟩⟩

/-- The last step adds the bits of the second value that are missing. -/
theorem Decoded.lastStep (hlayout : Layout w last lastShift) (hinter : Interleaved a b n)
    (hbyte : (base128 n)[last]? = some byte) (h : Decoded last a b last res) :
    Decoded last a b (last + 1) (addTwo w last lastShift last res byte) := by
  have hbits := getLsbD_base128 hbyte
  have hfirst := hlayout.first
  have hrest := hlayout.rest
  have hgrow : firstBits (7 * last) ≤ firstBits (7 * (last + 1)) := by
    unfold firstBits
    omega
  rw [addTwo, if_pos rfl]
  refine ⟨fun j hj => ?_, fun j hj => ?_, fun hle => absurd hle (by omega)⟩
  · rw [h.first j hj, decide_eq_true (by omega), decide_eq_true (by omega)]
  · have hpos := hlayout.position j
    rw [getLsbD_or, h.second j hj,
      hlayout.second, decide_eq_true (by omega : j < secondBits (7 * (last + 1)))]
    by_cases hold : j < lastShift
    · simp [hold]
    · have hbit := hbits (j - lastShift) (by have := hlayout.group; omega)
      rw [← hpos (by omega) hj, hinter.second] at hbit
      simp [hold, hj, hbit]

end Step

theorem layout32 : Layout 32 9 31 where
  width := by decide
  first := by decide
  second := by decide
  rest := by decide
  group := by decide
  position := by
    intro j hlow hhigh
    rw [show j = 31 by omega]
    rfl

theorem layout64 : Layout 64 18 62 where
  width := by decide
  first := by decide
  second := by decide
  rest := by decide
  group := by decide
  position := by
    unfold position
    omega

section Decode

variable {w last lastShift a b n : Nat}

/-- Once all bits below `m` are known there are no others. -/
theorem Interleaved.knows_all (hinter : Interleaved a b n) {m : Nat} (hn : n < 2 ^ m)
    {x y : BitVec w} (hx : Knows x (firstBits m) a) (hy : Knows y (secondBits m) b) :
    x = BitVec.ofNat w a ∧ y = BitVec.ofNat w b := by
  have hzero : ∀ p, m ≤ p → n.testBit p = false := fun p hp =>
    testBit_lt_two_pow (hn.trans_le (Nat.pow_le_pow_right (by decide) hp))
  constructor
  · apply eq_of_getLsbD_eq
    intro j hj
    rw [hx j hj, getLsbD_ofNat, decide_eq_true hj]
    by_cases hknown : j < firstBits m
    · rw [decide_eq_true hknown]
    · rw [← hinter.first, hzero (position j)
        (by unfold position; unfold firstBits at hknown; omega),
        Bool.and_false, Bool.and_false]
  · apply eq_of_getLsbD_eq
    intro j hj
    rw [hy j hj, getLsbD_ofNat, decide_eq_true hj]
    by_cases hknown : j < secondBits m
    · rw [decide_eq_true hknown]
    · rw [← hinter.second, hzero (position j + 4)
        (by unfold position; unfold secondBits at hknown; omega),
        Bool.and_false, Bool.and_false]

/-- The unrolled loop takes the two values apart. -/
theorem addAll_addTwo (hlayout : Layout w last lastShift) (hinter : Interleaved a b n)
    (hlength : (base128 n).length ≤ last + 1) :
    let res := addAll (addTwo w last lastShift) 0 (⟨0, 0⟩, ⟨0, 0⟩) (base128 n)
    res.1.res = BitVec.ofNat w a ∧ res.2.res = BitVec.ofNat w b := by
  have hstep : ∀ i byte res, (base128 n)[i]? = some byte → Decoded last a b i res →
      Decoded last a b (i + 1) (addTwo w last lastShift i res byte) := by
    intro i byte res hbyte h
    obtain ⟨hi, -⟩ := List.getElem?_eq_some_iff.1 hbyte
    by_cases hlast : i = last
    · subst hlast
      exact h.lastStep hlayout hinter hbyte
    · exact h.step hlayout.width hinter hbyte (by omega)
  have hstart : Decoded (w := w) last a b 0 (⟨0, 0⟩, ⟨0, 0⟩) :=
    ⟨fun j _ => by simp [firstBits], fun j _ => by simp [secondBits],
      fun _ => ⟨by simp [firstBits], by simp [secondBits]⟩⟩
  have hdecoded := addAll_invariant _ hstep hstart
  exact hinter.knows_all (lt_of_length_base128 n) hdecoded.first hdecoded.second

/-- The fast path for a single byte. -/
theorem single_byte (hw : 8 ≤ w) (hinter : Interleaved a b n) {byte : Byte}
    (hbyte : base128 n = [byte]) : byte.setWidth w &&& 0xf#w = BitVec.ofNat w a ∧
      byte.setWidth w >>> 4 = BitVec.ofNat w b := by
  have hn : n < 2 ^ 7 := by
    have := lt_of_length_base128 n
    rwa [hbyte] at this
  have hbits : ∀ j, byte.getLsbD j = n.testBit j := by
    intro j
    rw [base128_of_lt hn, List.cons.injEq] at hbyte
    rw [← hbyte.1, getLsbD_ofNat]
    by_cases hj : j < 8
    · simp [hj]
    · rw [testBit_lt_two_pow (hn.trans_le (Nat.pow_le_pow_right (by decide) (by omega))),
        Bool.and_false]
  have hmask : ∀ j < w, (0xf#w).getLsbD j = decide (j < 4) := by
    intro j hj
    rw [getLsbD_ofNat, show 15 = 2 ^ 4 - 1 from rfl, testBit_two_pow_sub_one,
      decide_eq_true hj, Bool.true_and]
  refine hinter.knows_all (m := 8) (hn.trans (by decide)) (fun j hj => ?_) (fun j hj => ?_)
  · rw [getLsbD_and, hmask j hj, getLsbD_setWidth, hbits, decide_eq_true hj]
    by_cases hlow : j < 4
    · rw [← hinter.first, show position j = j by unfold position; omega]
      simp [hlow, firstBits]
    · simp [hlow, firstBits]
  · rw [getLsbD_ushiftRight, getLsbD_setWidth, hbits]
    by_cases hlow : j < 4
    · rw [← hinter.second, show position j = j by unfold position; omega, add_comm 4 j]
      simp [hlow, secondBits, show j + 4 < w by omega]
    · rw [testBit_lt_two_pow (hn.trans_le (Nat.pow_le_pow_right (by decide) (by omega)))]
      simp [hlow, secondBits]

variable {buf : List Byte} {p : Nat}

section

variable (hinter : Interleaved a b n) (hholds : HoldsAt buf p (base128 n))
include hinter hholds

/-- The unrolled loop of a decoder, under any limit. -/
theorem scan_addTwo (hlayout : Layout w last lastShift) {bound : Nat} (hn : n < bound * 128 ^ last)
    (hbound : bound ≤ 128) (limit : Option Nat) :
    (scan buf limit (addTwo w last lastShift) bound (last + 1) 0 p (⟨0, 0⟩, ⟨0, 0⟩)).map
        (·.map output) =
      some (if limit.all (p + (base128 n).length ≤ ·) then
        some ((BitVec.ofNat w a, BitVec.ofNat w b), p + (base128 n).length) else none) := by
  have hlength : n < 128 ^ (last + 1) := by
    rw [pow_succ, mul_comm]
    exact hn.trans_le (Nat.mul_le_mul_right _ hbound)
  obtain ⟨hfirst, hsecond⟩ := addAll_addTwo hlayout hinter (length_base128_le hlength)
  rw [scan_base128 hn hbound hholds]
  split
  · simp only [map_some, output, hfirst, hsecond]
  · rfl

/-- A decoder that looks at the first byte before it enters the loop. -/
theorem decode_eq (hw : 8 ≤ w) {slow : Option (Option ((BitVec w × BitVec w) × Nat))}
    (hslow : slow = some (some ((BitVec.ofNat w a, BitVec.ofNat w b), p + (base128 n).length))) :
    ((buf[p]?).bind fun byte => if byte.toNat < 128 then
      some (some ((byte.setWidth w &&& 0xf#w, byte.setWidth w >>> 4), p + 1)) else slow) =
      some (some ((BitVec.ofNat w a, BitVec.ofNat w b), p + (base128 n).length)) := by
  have hterm := terminated_base128 n
  cases hbytes : base128 n with
  | nil => exact absurd hbytes (base128_ne_nil n)
  | cons first bytes =>
    rw [hbytes] at hholds hterm hslow
    rw [hholds.head, bind_some]
    cases bytes with
    | nil =>
      obtain ⟨hfirst, hsecond⟩ := single_byte hw hinter hbytes
      rw [if_pos (show first.toNat < 128 from hterm), hfirst, hsecond]
      rfl
    | cons second bytes => rwa [if_neg (not_lt.2 hterm.1)]

/-- `Decode32` reads two values. -/
theorem decode32_eq (hn : n < 2 ^ 64) : decode32 buf p =
      some (some ((BitVec.ofNat 32 a, BitVec.ofNat 32 b), p + (base128 n).length)) :=
  decode_eq hinter hholds (by decide) (scan_addTwo hinter hholds layout32 (by omega)
    (by decide) none)

/-- `Decode64` reads two values. -/
theorem decode64_eq (hn : n < 2 ^ 128) : decode64 buf p =
      some (some ((BitVec.ofNat 64 a, BitVec.ofNat 64 b), p + (base128 n).length)) :=
  decode_eq hinter hholds (by decide) (scan_addTwo hinter hholds layout64 (by omega)
    (by decide) none)

/-- `Decode32WithLimit` reads two values within the limit. -/
theorem decode32WithLimit_eq (hn : n < 2 ^ 64) (l : Nat) : decode32WithLimit buf p l =
      within ((BitVec.ofNat 32 a, BitVec.ofNat 32 b), p + (base128 n).length)
        (p + (base128 n).length) l := by
  have hlength := length_base128_le (show n < 128 ^ (9 + 1) by omega)
  unfold decode32WithLimit kMax64
  split
  · rw [decode32_eq hinter hholds hn, within, if_pos (by omega)]
  · rw [decode32Internal, scan_addTwo hinter hholds layout32 (by omega) (by decide)]
    simp [within]

/-- `Decode64WithLimit` reads two values within the limit. -/
theorem decode64WithLimit_eq (hn : n < 2 ^ 128) (l : Nat) : decode64WithLimit buf p l =
      within ((BitVec.ofNat 64 a, BitVec.ofNat 64 b), p + (base128 n).length)
        (p + (base128 n).length) l := by
  have hlength := length_base128_le (show n < 128 ^ (18 + 1) by omega)
  unfold decode64WithLimit kMax128
  split
  · rw [decode64_eq hinter hholds hn, within, if_pos (by omega)]
  · rw [decode64Internal, scan_addTwo hinter hholds layout64 (by omega) (by decide)]
    simp [within]

end

end Decode

/-- Encoding a pair and decoding it, at any place in a buffer. What the string held where it grew
does not matter, nor whether it had room for another byte. -/
theorem two_values_round_trip (lzcnt hasRoom : Bool) (uninit : Nat → Byte) (s rest : List Byte) :
    (∀ a b : BitVec 32, ∃ bytes,
      let buf := s ++ bytes ++ rest
      let stop := s.length + bytes.length
      encode32 lzcnt hasRoom uninit s a b = some (s ++ bytes) ∧
        encode64 lzcnt hasRoom uninit s (a.setWidth 64) (b.setWidth 64) = some (s ++ bytes) ∧
        decode32 buf s.length = some (some ((a, b), stop)) ∧
        decode64 buf s.length = some (some ((a.setWidth 64, b.setWidth 64), stop)) ∧
        ∀ l, decode32WithLimit buf s.length l = within ((a, b), stop) stop l ∧
          decode64WithLimit buf s.length l = within ((a.setWidth 64, b.setWidth 64), stop) stop l) ∧
    ∀ a b : BitVec 64, ∃ bytes,
      let buf := s ++ bytes ++ rest
      let stop := s.length + bytes.length
      encode64 lzcnt hasRoom uninit s a b = some (s ++ bytes) ∧
        decode64 buf s.length = some (some ((a, b), stop)) ∧
        ∀ l, decode64WithLimit buf s.length l = within ((a, b), stop) stop l := by
  refine ⟨fun a b => ?_, fun a b => ?_⟩
  · have hinter := interleaved_interleaveNibbles a b
    have hn := (interleaveNibbles a b).isLt
    have hholds := holdsAt_append s (base128 (interleaveNibbles a b).toNat) rest
    have hencode := encode32_eq lzcnt hasRoom uninit s a b
    have hdecode32 := decode32_eq hinter hholds hn
    have hdecode64 := decode64_eq hinter hholds (by omega)
    have hlimit32 := decode32WithLimit_eq hinter hholds hn
    have hlimit64 := decode64WithLimit_eq hinter hholds (by omega)
    simp only [ofNat_toNat] at hdecode32 hdecode64 hlimit32 hlimit64
    exact ⟨_, hencode, (encode64_setWidth lzcnt hasRoom uninit s a b).trans hencode, hdecode32,
      hdecode64, fun l => ⟨hlimit32 l, hlimit64 l⟩⟩
  · obtain ⟨n, hinter, hn, hencode⟩ := encode64_eq lzcnt hasRoom uninit s a b
    have hholds := holdsAt_append s (base128 n) rest
    have hdecode := decode64_eq hinter hholds hn
    have hlimit := decode64WithLimit_eq hinter hholds hn
    simp only [ofNat_toNat] at hdecode hlimit
    exact ⟨_, hencode, hdecode, hlimit⟩

end Gloop.Coding.TwoValuesVarint
