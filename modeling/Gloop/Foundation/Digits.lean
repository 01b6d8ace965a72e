import Gloop.Foundation.BitField
import Gloop.Foundation.Word
import Mathlib.Data.Nat.Digits.Lemmas
import Gloop.Foundation.BitString

/-!
# Digits, the most significant first

Byte strings of one length are ordered like the numbers of which they are the digits. `ofDigitsBE`
is the value of a list of digits: those of one radix are regrouped into those of another by
comparing values, with `ofDigitsBE_inj` to get back to the lists. `decimal` prints a number, and
`foldlM_decimal` says that any loop which takes over one digit after the other reads it back, as
long as it accepts all numbers up to a bound.
-/

namespace Gloop.Foundation

section

open List

/-- A number that fits can be read back from its bytes. -/
theorem ofBytes_toBytes {n k : Nat} (hn : n < 2 ^ (8 * k)) : ofBytes (toBytes n k) = n := by
  induction k generalizing n with
  | zero =>
    have hzero : n = 0 := by simpa using hn
    rw [hzero]
    rfl
  | succ k ih =>
    have hdiv : n / 256 < 2 ^ (8 * k) := by
      rw [Nat.div_lt_iff_lt_mul (by omega), ← Nat.pow_add 2 (8 * k) 8]
      exact hn
    rw [toBytes, ofBytes, ih hdiv, BitVec.toNat_ofNat]
    omega

/-- Bytes can be read back from their number. -/
theorem toBytes_ofBytes (bytes : List Byte) : toBytes (ofBytes bytes) bytes.length = bytes := by
  induction bytes with
  | nil => rfl
  | cons b bytes ih =>
    have hdiv : (b.toNat + 256 * ofBytes bytes) / 256 = ofBytes bytes := by omega
    have hbyte : BitVec.ofNat 8 (b.toNat + 256 * ofBytes bytes) = b := by
      apply BitVec.eq_of_toNat_eq
      rw [BitVec.toNat_ofNat]
      omega
    rw [length_cons, ofBytes, toBytes, hdiv, hbyte, ih]

/-- The number with the given big-endian bytes. -/
def ofBytesBE (bytes : List Byte) : Nat :=
  ofBytes bytes.reverse

theorem ofBytesBE_cons (b : Byte) (bytes : List Byte) :
    ofBytesBE (b :: bytes) = 2 ^ (8 * bytes.length) * b.toNat + ofBytesBE bytes := by
  rw [ofBytesBE, reverse_cons, ofBytes_append, length_reverse, ofBytes, ofBytes,
    Nat.mul_zero, add_zero, ofBytesBE]

/-- Bytes at the front count more. -/
theorem ofBytesBE_append (front back : List Byte) :
    ofBytesBE (front ++ back) = 2 ^ (8 * back.length) * ofBytesBE front + ofBytesBE back := by
  rw [ofBytesBE, reverse_append, ofBytes_append, length_reverse, ofBytesBE, ofBytesBE]

/-- A string of bytes is a number of its width. -/
theorem ofBytesBE_lt (bytes : List Byte) : ofBytesBE bytes < 2 ^ (8 * bytes.length) := by
  have hlt := ofBytes_lt bytes.reverse
  rwa [length_reverse] at hlt

/-- A higher first digit decides. -/
theorem mul_add_lt_of_lt {p a b x y : Nat} (ha : a < p) (hxy : x < y) : p * x + a < p * y + b := by
  calc
    p * x + a < p * x + p := Nat.add_lt_add_left ha _
    _ = p * (x + 1) := (Nat.mul_succ p x).symm
    _ ≤ p * y := Nat.mul_le_mul_left p hxy
    _ ≤ p * y + b := Nat.le_add_right _ _

/-- Lexicographic order is numeric order. -/
theorem lt_iff_ofBytesBE {bytes other : List Byte} (hlength : bytes.length = other.length) :
    bytes < other ↔ ofBytesBE bytes < ofBytesBE other := by
  induction bytes generalizing other with
  | nil =>
    cases other with
    | nil => exact ⟨fun h => absurd h (List.lt_irrefl []), fun h => absurd h (Nat.lt_irrefl _)⟩
    | cons c other => cases hlength
  | cons b bytes ih =>
    cases other with
    | nil => cases hlength
    | cons c other =>
      have htail : bytes.length = other.length := Nat.succ.inj hlength
      have hless := ofBytesBE_lt bytes
      have hless' := ofBytesBE_lt other
      rw [cons_lt_cons_iff, ih htail, ofBytesBE_cons, ofBytesBE_cons, htail]
      rw [htail] at hless
      rcases Nat.lt_trichotomy b.toNat c.toNat with hbc | hbc | hbc
      · have hnum := mul_add_lt_of_lt (b := ofBytesBE other) hless hbc
        exact ⟨fun _ => hnum, fun _ => Or.inl hbc⟩
      · have heq : b = c := BitVec.eq_of_toNat_eq hbc
        subst heq
        constructor
        · rintro (hlt | ⟨-, hlt⟩)
          · exact absurd hlt (Nat.lt_irrefl _)
          · exact Nat.add_lt_add_left hlt _
        · intro hlt
          exact Or.inr ⟨rfl, Nat.lt_of_add_lt_add_left hlt⟩
      · have hnum := mul_add_lt_of_lt (b := ofBytesBE bytes) hless' hbc
        constructor
        · rintro (hlt | ⟨heq, -⟩)
          · exact absurd (Nat.lt_trans hlt hbc) (Nat.lt_irrefl _)
          · rw [heq] at hbc
            exact absurd hbc (Nat.lt_irrefl _)
        · intro hlt
          exact absurd (Nat.lt_trans hlt hnum) (Nat.lt_irrefl _)

/-- The digits are shifted into a word one by one. -/
theorem foldl_shift_or {w : Nat} (bytes : List Byte) (n : Nat) :
    bytes.foldl (fun (acc : BitVec w) b => (acc <<< 8) ||| b.setWidth w) (BitVec.ofNat w n) =
      BitVec.ofNat w (2 ^ (8 * bytes.length) * n + ofBytesBE bytes) := by
  induction bytes generalizing n with
  | nil => simp [ofBytesBE, ofBytes]
  | cons b bytes ih =>
    rw [foldl_cons, ← BitVec.ofNat_toNat, shiftLeft_or_ofNat n b.isLt, ih, ofBytesBE_cons,
      length_cons]
    rw [mul_add, ← mul_assoc, ← pow_add, show 8 * bytes.length + 8 =
      8 * (bytes.length + 1) by omega, add_assoc]

end

/-! ## Digits of any radix -/

section

open List Nat

/-- The number with the given digits. -/
def ofDigitsBE (radix : Nat) (digits : List Nat) : Nat :=
  ofDigits radix digits.reverse

@[simp] theorem ofDigitsBE_nil (radix : Nat) : ofDigitsBE radix [] = 0 :=
  rfl

/-- Digits at the front count more. -/
theorem ofDigitsBE_append (radix : Nat) (front back : List Nat) : ofDigitsBE radix (front ++ back) =
      radix ^ back.length * ofDigitsBE radix front + ofDigitsBE radix back := by
  rw [ofDigitsBE, reverse_append, ofDigits_append, length_reverse, add_comm]
  rfl

variable {radix : Nat}

/-- Digits make up a number of their length. -/
theorem ofDigitsBE_lt (hradix : 1 < radix) {digits : List Nat} (hdigits : ∀ d ∈ digits, d < radix) :
    ofDigitsBE radix digits < radix ^ digits.length := by
  rw [← length_reverse]
  apply ofDigits_lt_base_pow_length hradix
  intro d hd
  exact hdigits d (mem_reverse.mp hd)

/-- Digits are determined by their number and their value. -/
theorem ofDigitsBE_inj (hradix : 1 < radix) {digits other : List Nat}
    (hlength : digits.length = other.length) (hdigits : ∀ d ∈ digits, d < radix)
    (hother : ∀ d ∈ other, d < radix) (h : ofDigitsBE radix digits = ofDigitsBE radix other) :
    digits = other := by
  rw [← reverse_inj]
  refine ofDigits_inj_of_len_eq hradix ?_ ?_ ?_ h
  · rw [length_reverse, length_reverse, hlength]
  · exact fun d hd => hdigits d (mem_reverse.mp hd)
  · exact fun d hd => hother d (mem_reverse.mp hd)

/-- The first digits alone. -/
theorem ofDigitsBE_take (hradix : 1 < radix) {digits : List Nat}
    (hdigits : ∀ d ∈ digits, d < radix) (k : Nat) : ofDigitsBE radix (digits.take k) =
      ofDigitsBE radix digits / radix ^ (digits.length - k) := by
  have hrest : ofDigitsBE radix (digits.drop k) < radix ^ (digits.drop k).length :=
    ofDigitsBE_lt hradix fun d hd => hdigits d (mem_of_mem_drop hd)
  have happend := ofDigitsBE_append radix (digits.take k) (digits.drop k)
  rw [length_drop] at hrest
  rw [take_append_drop, length_drop] at happend
  rw [happend, mul_add_div (Nat.pow_pos (zero_lt_of_lt hradix)), div_eq_of_lt hrest, Nat.add_zero]

/-! ## Bytes are digits -/

theorem ofBytesBE_nil : ofBytesBE [] = 0 :=
  rfl

theorem ofBytesBE_concat (bytes : List Byte) (b : Byte) :
    ofBytesBE (bytes ++ [b]) = 256 * ofBytesBE bytes + b.toNat := by
  rw [ofBytesBE_append, ofBytesBE_cons, ofBytesBE_nil]
  simp

/-- Strings of one length are told apart by their numbers. -/
theorem ofBytesBE_inj {bytes other : List Byte} (hlength : bytes.length = other.length)
    (h : ofBytesBE bytes = ofBytesBE other) : bytes = other := by
  have hbytes := toBytes_ofBytes bytes.reverse
  have hother := toBytes_ofBytes other.reverse
  rw [length_reverse] at hbytes hother
  rw [← reverse_inj, ← hbytes, ← hother, hlength]
  exact congrArg (toBytes · other.length) h

end

/-! ## Numbers in decimal -/

open List

/-- The character of a digit. -/
def digitChar (d : Nat) : Byte :=
  BitVec.ofNat 8 (0x30 + d)

/-- `absl::ascii_isdigit(c)`. -/
def isDigit (c : Byte) : Bool :=
  0x30#8 ≤ c ∧ c ≤ 0x39#8

/-- The digits of a number, without leading zeros. -/
def decimal (n : Nat) : List Byte :=
  if n < 10 then [digitChar n] else decimal (n / 10) ++ [digitChar (n % 10)]

theorem toNat_digitChar {d : Nat} (hd : d < 10) : (digitChar d).toNat = 0x30 + d := by
  rw [digitChar, BitVec.toNat_ofNat]
  omega

/-- The character of a digit is a digit. -/
theorem isDigit_digitChar {d : Nat} (hd : d < 10) : isDigit (digitChar d) = true := by
  have hvalue := toNat_digitChar hd
  simp only [isDigit, BitVec.le_def, BitVec.toNat_ofNat, decide_eq_true_eq]
  omega

theorem decimal_ne_nil (n : Nat) : decimal n ≠ [] := by
  rw [decimal]
  split <;> simp

/-- A decimal number is written in digits. -/
theorem isDigit_of_mem_decimal (n : Nat) : ∀ c ∈ decimal n, isDigit c = true := by
  fun_induction decimal n with
  | case1 n hn =>
    intro c hc
    rw [mem_singleton.mp hc]
    exact isDigit_digitChar hn
  | case2 n _ ih =>
    intro c hc
    rcases mem_append.mp hc with hfront | hlast
    · exact ih c hfront
    · rw [mem_singleton.mp hlast]
      exact isDigit_digitChar (Nat.mod_lt n (by decide))

/-- A loop over the digits reads the number. -/
theorem foldlM_decimal {f : Nat → Byte → Option Nat} (bound : Nat)
    (hf : ∀ v d, d < 10 → 10 * v + d ≤ bound → f v (digitChar d) = some (10 * v + d)) (n : Nat)
    (hn : n ≤ bound) : (decimal n).foldlM f 0 = some n := by
  fun_induction decimal n with
  | case1 n hlt =>
    rw [foldlM_cons, hf 0 n hlt (by omega)]
    simp
  | case2 n _ ih =>
    rw [foldlM_append, ih (by omega), Option.bind_eq_bind, Option.bind_some, foldlM_cons,
      hf _ _ (Nat.mod_lt n (by decide)) (by omega), Nat.div_add_mod]
    rfl

end Gloop.Foundation
