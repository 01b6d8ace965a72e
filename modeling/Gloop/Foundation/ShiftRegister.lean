import Gloop.Foundation.BitField
import Gloop.Foundation.Word

/-!
# Shift registers

Division of a bit string by a polynomial over the field of two elements, in the reflected form: the
register holds the remainder with the highest power of the variable in its lowest bit, and one step
`advance` multiplies by the variable. A step is linear in exclusive or, so the effect of any number
of steps on a register is the exclusive or of its effects on the parts of the register
(`advances_eq_low_xor_high`); that is what makes tables possible. `mulBits` is the product of two
registers, and multiplying by what `n` steps make of the unit is the same as taking `n` steps
(`mulBits_advances_unit`).
-/

namespace Gloop.Foundation.ShiftRegister

open Nat

/-- Shift the register by one bit, and subtract the polynomial if a one fell out. -/
def advance (poly v : Nat) : Nat :=
  if v % 2 = 1 then (v >>> 1) ^^^ poly else v >>> 1

/-- Shift by `n` bits. -/
def advances (poly n v : Nat) : Nat :=
  (advance poly)^[n] v

variable {poly : Nat}

/-- The lowest bit of an exclusive or is the sum of the lowest bits. -/
theorem xor_mod_two (a b : Nat) : (a ^^^ b) % 2 = (a % 2 + b % 2) % 2 := by
  have h := xor_mod_two_eq (m := a) (n := b)
  omega

/-- The order in a double exclusive or is free, and a term that occurs twice disappears. -/
theorem xor_xor_xor_comm (a b c d : Nat) : (a ^^^ b) ^^^ (c ^^^ d) = (a ^^^ c) ^^^ (b ^^^ d) := by
  ac_rfl

theorem xor_xor_cancel (a b c : Nat) : (a ^^^ b) ^^^ (c ^^^ b) = a ^^^ c := by
  rw [xor_xor_xor_comm, Nat.xor_self, Nat.xor_zero]

/-- A step is linear. -/
theorem advance_xor (a b : Nat) : advance poly (a ^^^ b) = advance poly a ^^^ advance poly b := by
  unfold advance
  rw [shiftRight_xor_distrib, xor_mod_two]
  rcases mod_two_eq_zero_or_one a with ha | ha <;>
    rcases mod_two_eq_zero_or_one b with hb | hb <;> rw [ha, hb]
  · rfl
  · exact Nat.xor_assoc _ _ _
  · simp only [if_true, zero_ne_one, if_false]
    ac_rfl
  · exact (xor_xor_cancel _ _ _).symm

@[simp] theorem advance_zero : advance poly 0 = 0 :=
  rfl

@[simp] theorem advances_zero_steps (v : Nat) : advances poly 0 v = v :=
  rfl

theorem advances_succ (n v : Nat) : advances poly (n + 1) v = advances poly n (advance poly v) :=
  rfl

theorem advances_succ_left (n v : Nat) :
    advances poly (n + 1) v = advance poly (advances poly n v) :=
  Function.iterate_succ_apply' _ _ _

theorem advances_add (m n v : Nat) :
    advances poly (m + n) v = advances poly m (advances poly n v) :=
  Function.iterate_add_apply _ _ _ _

@[simp] theorem advances_zero (n : Nat) : advances poly n 0 = 0 := by
  induction n with
  | zero => rfl
  | succ n ih => rw [advances_succ, advance_zero, ih]

/-- Any number of steps is linear. -/
theorem advances_xor (n a b : Nat) :
    advances poly n (a ^^^ b) = advances poly n a ^^^ advances poly n b := by
  induction n generalizing a b with
  | zero => rfl
  | succ n ih => rw [advances_succ, advance_xor, ih, advances_succ, advances_succ]

variable {w v : Nat}

/-- A register as wide as the polynomial does not grow, whichever way the test goes. -/
theorem ite_shift_lt (hpoly : poly < 2 ^ w) (hv : v < 2 ^ w) (p : Prop) [Decidable p] :
    (if p then (v >>> 1) ^^^ poly else v >>> 1) < 2 ^ w := by
  have hshift : v >>> 1 < 2 ^ w := by
    exact lt_of_le_of_lt (Nat.div_le_self _ _) hv
  split
  · exact xor_lt_two_pow hshift hpoly
  · exact hshift

theorem advance_lt (hpoly : poly < 2 ^ w) (hv : v < 2 ^ w) : advance poly v < 2 ^ w :=
  ite_shift_lt hpoly hv _

/-- A register keeps its width over any number of steps. -/
theorem advances_lt (hpoly : poly < 2 ^ w) (hv : v < 2 ^ w) (n : Nat) :
    advances poly n v < 2 ^ w := by
  induction n generalizing v with
  | zero => exact hv
  | succ n ih => exact ih (advance_lt hpoly hv)

/-! ## Bits that have not reached the end -/

/-- A step takes back a shift by one. -/
theorem advance_shiftLeft (v n : Nat) : advance poly (v <<< (n + 1)) = v <<< n := by
  have heven : v <<< (n + 1) % 2 = 0 := by
    rw [shiftLeft_eq, pow_succ, ← mul_assoc]
    exact mul_mod_left _ _
  rw [advance, heven, if_neg (by decide), shiftLeft_add, shiftLeft_shiftRight]

/-- Steps take back a shift as long as there are zeros to drop. -/
theorem advances_shiftLeft (v m n : Nat) : advances poly n (v <<< (m + n)) = v <<< m := by
  induction n with
  | zero => rfl
  | succ n ih => rw [← add_assoc, advances_succ, advance_shiftLeft, ih]

theorem advances_shiftLeft_self (v n : Nat) : advances poly n (v <<< n) = v := by
  have h : advances poly n (v <<< (0 + n)) = v <<< 0 := advances_shiftLeft v 0 n
  rwa [zero_add, shiftLeft_zero] at h

/-- The bits above the lowest `n` only move down in `n` steps. -/
theorem advances_eq_low_xor_high (n v : Nat) :
    advances poly n v = advances poly n (v % 2 ^ n) ^^^ (v >>> n) := by
  conv_lhs => rw [← low_xor_high n v]
  rw [advances_xor, advances_shiftLeft_self]

/-! ## Feeding a message -/

/-- Feed one bit of a message, which is added to the bit that falls out. -/
def feedBit (poly c : Nat) (b : Bool) : Nat :=
  if c.testBit 0 ^^ b then (c >>> 1) ^^^ poly else c >>> 1

/-- Feed a message, bit by bit. -/
def feed (poly c : Nat) (bits : List Bool) : Nat :=
  bits.foldl (feedBit poly) c

/-- A bit is added at the end of the register before the step. -/
theorem feedBit_eq (c : Nat) (b : Bool) : feedBit poly c b = advance poly (c ^^^ b.toNat) := by
  have hshift : (c ^^^ b.toNat) >>> 1 = c >>> 1 := by
    rw [shiftRight_xor_distrib]
    cases b <;> exact Nat.xor_zero _
  have hbit : (c ^^^ b.toNat) % 2 = 1 ↔ (c.testBit 0 ^^ b) = true := by
    rw [xor_mod_two]
    rcases mod_two_eq_zero_or_one c with hc | hc <;> cases b <;> simp [hc]
  rw [advance, hshift]
  exact if_congr hbit.symm rfl rfl

theorem feed_append (c : Nat) (front back : List Bool) :
    feed poly c (front ++ back) = feed poly (feed poly c front) back :=
  List.foldl_append

variable {c d e m : Nat}

theorem feed_lt (hpoly : poly < 2 ^ w) (hc : c < 2 ^ w) (bits : List Bool) :
    feed poly c bits < 2 ^ w := by
  induction bits generalizing c with
  | nil => exact hc
  | cons b bits ih => exact ih (ite_shift_lt hpoly hc _)

/-- A message fed bit by bit has the same effect as adding it to the register first. -/
theorem feed_toBits {n : Nat} (hv : v < 2 ^ n) (c : Nat) :
    feed poly c (toBits v n) = advances poly n (c ^^^ v) := by
  induction n generalizing v c with
  | zero =>
    obtain rfl : v = 0 := by omega
    exact (Nat.xor_zero c).symm
  | succ n ih =>
    -- the lowest bit is fed now; the rest of `v` is one shift away from the next register
    have hhalf : v / 2 < 2 ^ n := by omega
    have hsplit := low_xor_high 1 v
    have hlow : v % 2 ^ 1 = (v.testBit 0).toNat := by
      rcases mod_two_eq_zero_or_one v with h | h <;> simp [h]
    rw [hlow] at hsplit
    have hnext : advance poly (c ^^^ v) = feedBit poly c (v.testBit 0) ^^^ v / 2 := by
      conv_lhs => rw [← hsplit]
      rw [← Nat.xor_assoc, advance_xor, advance_shiftLeft, ← feedBit_eq]
      rfl
    rw [advances_succ, hnext]
    exact ih hhalf _

/-- Feed a byte string, the lowest bit of each byte first. -/
def feedBytes (poly c : Nat) (bytes : List Byte) : Nat :=
  feed poly c (bytesToBits bytes)

/-- Bytes may be added all at once before the steps for them. -/
theorem feedBytes_eq (c : Nat) (bytes : List Byte) :
    feedBytes poly c bytes = advances poly (8 * bytes.length) (c ^^^ ofBytes bytes) := by
  rw [feedBytes, bytesToBits_eq, feed_toBits (ofBytes_lt bytes)]

theorem feedBytes_append (c : Nat) (front back : List Byte) :
    feedBytes poly c (front ++ back) = feedBytes poly (feedBytes poly c front) back := by
  rw [feedBytes, bytesToBits_append, feed_append]
  rfl

/-- Feeding bytes keeps the width. -/
theorem feedBytes_lt (hpoly : poly < 2 ^ w) (hc : c < 2 ^ w) (bytes : List Byte) :
    feedBytes poly c bytes < 2 ^ w :=
  feed_lt hpoly hc _

/-! ## Products -/

/-- The product of two registers: bit `k` of `v` stands for `m` shifted by `d - 1 - k`. -/
def mulBits (poly : Nat) : (d v m : Nat) → Nat
  | 0, _, _ => 0
  | d + 1, v, m => advance poly (mulBits poly d v m) ^^^ (if v.testBit d then m else 0)

/-- A product takes a step with its second factor. -/
theorem mulBits_advance (d v m : Nat) :
    mulBits poly d v (advance poly m) = advance poly (mulBits poly d v m) := by
  induction d with
  | zero => exact advance_zero.symm
  | succ d ih =>
    rw [mulBits, mulBits, ih, advance_xor]
    split <;> rfl

/-- A product takes any number of steps with its second factor. -/
theorem mulBits_advances (d v m n : Nat) :
    mulBits poly d v (advances poly n m) = advances poly n (mulBits poly d v m) := by
  induction n generalizing m with
  | zero => rfl
  | succ n ih => rw [advances_succ, ih, mulBits_advance, advances_succ]

/-- Horner's rule: the low bits of `v` first. -/
theorem mulBits_add (k j v m : Nat) :
    mulBits poly (k + j) v m = advances poly j (mulBits poly k v m) ^^^
      mulBits poly j (v >>> k) m := by
  induction j with
  | zero => exact (Nat.xor_zero _).symm
  | succ j ih =>
    rw [← add_assoc, mulBits, ih, advance_xor, mulBits, advances_succ_left, testBit_shiftRight,
      Nat.xor_assoc]

/-- The other order: the high bits of `v` first, while `m` advances. -/
theorem mulBits_succ (k v m : Nat) : mulBits poly (k + 1) v m = (if v.testBit k then m else 0) ^^^
      mulBits poly k v (advance poly m) := by
  rw [mulBits, mulBits_advance, Nat.xor_comm]

/-- Only the first `d` bits of the first factor count. -/
theorem mulBits_mod (h : d ≤ e) (v m : Nat) :
    mulBits poly d (v % 2 ^ e) m = mulBits poly d v m := by
  induction d with
  | zero => rfl
  | succ d ih =>
    rw [mulBits, mulBits, ih (by omega), testBit_mod_two_pow, decide_eq_true (by omega),
      Bool.true_and]

/-- Zeros at the low end of the first factor are skipped. -/
theorem mulBits_shiftLeft (s d v m : Nat) :
    mulBits poly (s + d) (v <<< s) m = mulBits poly d v m := by
  have hlow : mulBits poly s (v <<< s) m = 0 := by
    rw [← mulBits_mod (le_refl s), shiftLeft_eq, mul_mod_left]
    induction s with
    | zero => rfl
    | succ s ih => rw [mulBits, ih, zero_testBit, advance_zero, if_neg (by decide), Nat.xor_zero]
  rw [mulBits_add, hlow, advances_zero, Nat.zero_xor, shiftLeft_shiftRight]

/-- The product with the unit is the first factor, moved to the top. -/
theorem mulBits_two_pow (h : d ≤ e + 1) (v : Nat) :
    mulBits poly d v (2 ^ e) = (v % 2 ^ d) <<< (e + 1 - d) := by
  induction d with
  | zero => rw [pow_zero, mod_one, zero_shiftLeft]; rfl
  | succ d ih =>
    have hroom : e + 1 - d = (e - d) + 1 := by omega
    have htop : (if v.testBit d then 2 ^ e else 0) =
        (if v.testBit d then 2 ^ d else 0) <<< (e - d) := by
      split
      · rw [shiftLeft_eq, ← pow_add, Nat.add_sub_cancel' (by omega)]
      · rw [zero_shiftLeft]
    have hmod : v % 2 ^ (d + 1) = v % 2 ^ d ^^^ (if v.testBit d then 2 ^ d else 0) := by
      have hsum := two_pow_add_eq_xor (mod_lt v (Nat.two_pow_pos d))
      rw [mod_pow_succ, testBit_eq_decide_div_mod_eq]
      rcases mod_two_eq_zero_or_one (v / 2 ^ d) with hbit | hbit
      · simp [hbit]
      · simp [hbit, ← hsum, Nat.xor_comm (v % _), add_comm]
    rw [mulBits, ih (by omega), hroom, advance_shiftLeft, htop, ← shiftLeft_xor_distrib, ← hmod,
      show e + 1 - (d + 1) = e - d by omega]

/-- Multiplying by what `n` steps make of the unit takes `n` steps. -/
theorem mulBits_advances_unit (hd : 0 < d) (hv : v < 2 ^ d) (n : Nat) :
    mulBits poly d v (advances poly n (2 ^ (d - 1))) = advances poly n v := by
  rw [mulBits_advances, mulBits_two_pow (by omega), Nat.sub_add_cancel hd, Nat.sub_self,
    shiftLeft_zero, mod_eq_of_lt hv]

theorem mulBits_lt (hpoly : poly < 2 ^ w) (hm : m < 2 ^ w) (d v : Nat) :
    mulBits poly d v m < 2 ^ w := by
  induction d with
  | zero => exact Nat.two_pow_pos w
  | succ d ih =>
    refine xor_lt_two_pow (advance_lt hpoly ih) ?_
    split
    · exact hm
    · exact Nat.two_pow_pos w

/-- The product before it is reduced: bit `i` of `v` stands for `m` shifted to the left by `i`. -/
def carryless : (k v m : Nat) → Nat
  | 0, _, _ => 0
  | k + 1, v, m => carryless k v m ^^^ (if v.testBit k then m <<< k else 0)

/-- A product in two parts of the first factor. -/
theorem carryless_add (j k v m : Nat) :
    carryless (j + k) v m = carryless j v m ^^^ carryless k (v >>> j) m <<< j := by
  induction k with
  | zero => rw [carryless, zero_shiftLeft, Nat.xor_zero, add_zero]
  | succ k ih =>
    rw [← add_assoc, carryless, ih, carryless, shiftLeft_xor_distrib, testBit_shiftRight,
      Nat.xor_assoc]
    split
    · rw [← shiftLeft_add, add_comm]
    · rw [zero_shiftLeft]

/-- Only the first `k` bits of the first factor count. -/
theorem carryless_mod (k v m : Nat) : carryless k (v % 2 ^ k) m = carryless k v m := by
  suffices h : ∀ j ≤ k, carryless j (v % 2 ^ k) m = carryless j v m from h k (le_refl k)
  intro j hj
  induction j with
  | zero => rfl
  | succ j ih =>
    rw [carryless, carryless, ih (by omega), testBit_mod_two_pow, decide_eq_true (by omega),
      Bool.true_and]

theorem carryless_lt (hm : m < 2 ^ w) (k v : Nat) : carryless (k + 1) v m < 2 ^ (w + k) := by
  have hshift : ∀ k, (if v.testBit k then m <<< k else 0) < 2 ^ (w + k) := by
    intro k
    split
    · rw [shiftLeft_eq, pow_add]
      exact Nat.mul_lt_mul_of_pos_right hm (Nat.two_pow_pos k)
    · exact Nat.two_pow_pos _
  induction k with
  | zero => exact xor_lt_two_pow (Nat.two_pow_pos _) (hshift 0)
  | succ k ih =>
    exact xor_lt_two_pow (ih.trans_le (Nat.pow_le_pow_right (by decide) (by omega))) (hshift _)

/-- Reducing the product gives that of the registers. -/
theorem advances_carryless (k v m : Nat) :
    advances poly k (carryless k v (m <<< 1)) = mulBits poly k v m := by
  induction k with
  | zero => rfl
  | succ k ih =>
    have htop : advances poly (k + 1) (if v.testBit k then (m <<< 1) <<< k else 0) =
        if v.testBit k then m else 0 := by
      split
      · rw [← shiftLeft_add, add_comm, advances_shiftLeft_self]
      · exact advances_zero _
    rw [carryless, advances_xor, htop, advances_succ_left, ih, mulBits]

end Gloop.Foundation.ShiftRegister
