import Mathlib.Data.Nat.Bitwise

/-!
# Masks and shifts of machine words

Values and bits of the masks that bit-packing code builds by shifts.
-/

namespace Gloop.Foundation

open BitVec Nat

variable {w n : Nat}

theorem toNat_one_shiftLeft (hn : n < w) : (1#w <<< n).toNat = 2 ^ n := by
  rw [toNat_shiftLeft, BitVec.toNat_ofNat, Nat.shiftLeft_eq,
    mod_eq_of_lt (Nat.one_lt_two_pow (by omega)), one_mul,
    mod_eq_of_lt (Nat.pow_lt_pow_right (by omega) hn)]

/-- The mask of the `n` low bits. -/
theorem toNat_lowMask (hn : n < w) : ((1#w <<< n) - 1#w).toNat = 2 ^ n - 1 := by
  have hone := toNat_one_shiftLeft hn
  have honeNat : (1#w).toNat = 1 :=
    mod_eq_of_lt (Nat.one_lt_two_pow (by omega))
  have hle : 1#w ≤ 1#w <<< n := by
    rw [le_def, hone, honeNat]
    exact Nat.two_pow_pos n
  rw [toNat_sub_of_le hle, hone, honeNat]

theorem getLsbD_lowMask (hn : n < w) (j : Nat) :
    ((1#w <<< n) - 1#w).getLsbD j = decide (j < n) := by
  rw [← testBit_toNat, toNat_lowMask hn, testBit_two_pow_sub_one]

/-- A value of `n` bits that is put in place of the bits from `start` on. -/
theorem getLsbD_replace {start j : Nat} {word mask value : BitVec w} (hj : j < w)
    (hmask : ∀ k, mask.getLsbD k = decide (k < n)) (hvalue : value.toNat < 2 ^ n) :
    ((word &&& ~~~(mask <<< start)) ||| (value <<< start)).getLsbD j =
      if start ≤ j ∧ j < start + n then value.getLsbD (j - start) else word.getLsbD j := by
  simp only [getLsbD_or, getLsbD_and, getLsbD_not, getLsbD_shiftLeft, hmask, decide_eq_true hj]
  by_cases hlow : j < start
  · simp [hlow]
  · by_cases hhigh : j - start < n
    · simp [hlow, hhigh, show start ≤ j ∧ j < start + n by omega]
    · have hzero : value.getLsbD (j - start) = false := by
        exact testBit_lt_two_pow (hvalue.trans_le
          (Nat.pow_le_pow_right Nat.two_pos (Nat.le_of_not_lt hhigh)))
      simp [hhigh, hzero, show ¬ (start ≤ j ∧ j < start + n) by omega]

/-- A difference of words that does not wrap around. -/
theorem ofNat_sub_ofNat {x y : Nat} (h : y ≤ x) :
    BitVec.ofNat w x - BitVec.ofNat w y = BitVec.ofNat w (x - y) := by
  have hsum : BitVec.ofNat w x = BitVec.ofNat w (x - y) + BitVec.ofNat w y := by
    rw [← ofNat_add, Nat.sub_add_cancel h]
  rw [hsum, BitVec.add_sub_cancel]

/-- A mask of the high bits clears the low ones. -/
theorem and_allOnes_shiftLeft (x : BitVec w) (n : Nat) :
    x &&& (~~~0#w <<< n) = (x >>> n) <<< n := by
  ext i hi
  by_cases hlow : i < n
  · simp [hlow]
  · simp [hlow, show n + (i - n) = i by omega, getLsbD_eq_getElem hi]

/-- A shift makes room for low bits. -/
theorem shiftLeft_or_ofNat {v : Nat} (x : Nat) (hv : v < 2 ^ n) :
    (BitVec.ofNat w x <<< n) ||| BitVec.ofNat w v = BitVec.ofNat w (2 ^ n * x + v) := by
  have hshift : BitVec.ofNat w x <<< n = BitVec.ofNat w (2 ^ n * x) :=
    eq_of_toNat_eq (by simp [Nat.shiftLeft_eq, Nat.mul_comm])
  rw [two_pow_add_eq_or_of_lt hv, ofNat_or, hshift]

/-- A word is put together from its high and low parts. -/
theorem shiftLeft_or_ofNat_mod (v : BitVec w) :
    (BitVec.ofNat w (v.toNat / 2 ^ n) <<< n) ||| BitVec.ofNat w (v.toNat % 2 ^ n) = v := by
  rw [shiftLeft_or_ofNat _ (mod_lt _ (Nat.two_pow_pos n)), div_add_mod, ofNat_toNat, setWidth_eq]

/-! ## Exclusive or -/

/-- A number is put together from its low and high bits. -/
theorem low_xor_high (n v : Nat) : v % 2 ^ n ^^^ (v >>> n) <<< n = v := by
  apply eq_of_testBit_eq
  intro i
  rw [testBit_xor, testBit_mod_two_pow, testBit_shiftLeft, testBit_shiftRight]
  by_cases hi : i < n
  · rw [decide_eq_true hi, decide_eq_false (by omega), Bool.false_and, Bool.true_and,
      Bool.xor_false]
  · rw [decide_eq_false hi, decide_eq_true (by omega), Bool.false_and, Bool.true_and,
      Bool.false_xor, Nat.add_sub_cancel' (by omega)]

/-- A power of two added to something smaller sets a bit. -/
theorem two_pow_add_eq_xor {e r : Nat} (hr : r < 2 ^ e) : 2 ^ e + r = 2 ^ e ^^^ r := by
  have h := low_xor_high e (2 ^ e + r)
  rw [add_mod_left, mod_eq_of_lt hr, shiftRight_eq_div_pow,
    add_div_left _ (Nat.two_pow_pos e), div_eq_of_lt hr, one_shiftLeft] at h
  rw [← h, Nat.xor_comm]

end Gloop.Foundation
