import Gloop.Foundation.Division
import Mathlib.Data.BitVec

/-!
# `ConstantDivisor`

A divisor keeps a reciprocal that is rounded up, and divides by a multiplication and a shift. Read
`constantDivisor_exact` for the four types together; that no product loses bits is part of it.
-/

namespace Gloop.Math

open Gloop.Foundation BitVec Nat

/-! ## The model -/

/-- `ConstantDivisorBase<T, MagicT, Impl>`, with the widths of `T` and `MagicT`. -/
structure ConstantDivisorBase (w m : Nat) where
  magic : BitVec m
  denominator : BitVec w

/-- `mod(numerator)`, for the `div` of the implementation. -/
def ConstantDivisorBase.mod {w m : Nat} (c : ConstantDivisorBase w m) (div : BitVec w → BitVec w)
    (numerator : BitVec w) : BitVec w :=
  numerator - div numerator * c.denominator

/-- `Uint128High64(a)`. -/
def uint128High64 (a : BitVec 128) : BitVec 64 :=
  (a >>> 64).setWidth 64

/-- `Uint128Low64(a)`. -/
def uint128Low64 (a : BitVec 128) : BitVec 64 :=
  a.setWidth 64

/-- `MultiplyHi(a, b)`. -/
def multiplyHi (a : BitVec 128) (b : BitVec 64) : BitVec 64 :=
  let lo : BitVec 128 := (uint128Low64 a).setWidth 128
  let hi : BitVec 128 := (uint128High64 a).setWidth 128
  let bottom := (lo * b.setWidth 128) >>> 64
  let top := hi * b.setWidth 128
  uint128High64 (bottom + top)

/-- The constructors of the wide types: `max / d + 1`, where a division by zero and a denominator
that fails the check are `none`. -/
def newWide (w m : Nat) (d : BitVec w) : Option (ConstantDivisorBase w m) :=
  if d = 0 then none
  else
    let magic := BitVec.allOnes m / d.setWidth m + 1
    if d > 1 then some ⟨magic, d⟩ else none

/-- The constructors of the narrow types: `(1 << kShift) / d + 1`. -/
def newNarrow (w m kShift : Nat) (d : BitVec w) : Option (ConstantDivisorBase w m) :=
  if d = 0 then none
  else
    let magic := (1#m <<< kShift) / d.setWidth m + 1
    if d > 0 then some ⟨magic, d⟩ else none

/-- `(magic_ * static_cast<MagicValueType>(numerator)) >> kShift`, cast back. -/
def divNarrow {w m : Nat} (kShift : Nat) (c : ConstantDivisorBase w m) (numerator : BitVec w) :
    BitVec w :=
  ((c.magic * numerator.setWidth m) >>> kShift).setWidth w

namespace ConstantDivisor64

/-- `ConstantDivisor<uint64_t>(d)`. -/
def new (d : BitVec 64) : Option (ConstantDivisorBase 64 128) :=
  newWide 64 128 d

/-- `div(numerator)`. -/
def div (c : ConstantDivisorBase 64 128) (numerator : BitVec 64) : BitVec 64 :=
  multiplyHi c.magic numerator

end ConstantDivisor64

namespace ConstantDivisor32

/-- `ConstantDivisor<uint32_t>(d)`. -/
def new (d : BitVec 32) : Option (ConstantDivisorBase 32 64) :=
  newWide 32 64 d

/-- `div(numerator)`. -/
def div (c : ConstantDivisorBase 32 64) (numerator : BitVec 32) : BitVec 32 :=
  (uint128High64 (numerator.setWidth 128 * c.magic.setWidth 128)).setWidth 32

end ConstantDivisor32

namespace ConstantDivisor16

/-- `ConstantDivisor<uint16_t>(d)`. -/
def new (d : BitVec 16) : Option (ConstantDivisorBase 16 64) :=
  newNarrow 16 64 32 d

/-- `div(numerator)`. -/
def div (c : ConstantDivisorBase 16 64) (numerator : BitVec 16) : BitVec 16 :=
  divNarrow 32 c numerator

end ConstantDivisor16

namespace ConstantDivisor8

/-- `ConstantDivisor<uint8_t>(d)`. -/
def new (d : BitVec 8) : Option (ConstantDivisorBase 8 32) :=
  newNarrow 8 32 16 d

/-- `div(numerator)`. -/
def div (c : ConstantDivisorBase 8 32) (numerator : BitVec 8) : BitVec 8 :=
  divNarrow 16 c numerator

end ConstantDivisor8

/-! ## The reciprocals -/

/-- The divisor divides by `d`, and `mod` is the remainder. -/
def Divides {w m : Nat} (c : ConstantDivisorBase w m) (div : BitVec w → BitVec w) (d : BitVec w) :
    Prop :=
  ∀ n, (div n).toNat = n.toNat / d.toNat ∧ (c.mod div n).toNat = n.toNat % d.toNat

variable {w m kShift : Nat} {d : BitVec w}

/-- The remainder is right if the quotient is. -/
theorem divides_of_div {c : ConstantDivisorBase w m} {div : BitVec w → BitVec w}
    (hc : c.denominator = d) (hdiv : ∀ n, (div n).toNat = n.toNat / d.toNat) : Divides c div d := by
  intro n
  refine ⟨hdiv n, ?_⟩
  have hle : n.toNat / d.toNat * d.toNat ≤ n.toNat := div_mul_le_self _ _
  have hprod : (div n * d).toNat = n.toNat / d.toNat * d.toNat := by
    rw [toNat_mul, hdiv, mod_eq_of_lt (hle.trans_lt n.isLt)]
  have hprod_le : div n * d ≤ n := by
    rw [le_def, hprod]
    exact hle
  rw [ConstantDivisorBase.mod, hc, toNat_sub_of_le hprod_le, hprod, mod_def, mul_comm]

/-- The error of a reciprocal that is rounded up. -/
theorem reciprocal_bounds (q : Nat) {d : Nat} (hd : 0 < d) :
    q < (q / d + 1) * d ∧ (q / d + 1) * d ≤ q + d := by
  have hsplit := div_add_mod q d
  have hmod := mod_lt q hd
  rw [Nat.add_mul, Nat.mul_comm]
  omega

/-- The reciprocal of the wide types is `2 ^ m / d`, rounded up. -/
theorem newWide_eq (hm : 2 * w ≤ m) (hd : 1 < d.toNat) :
    ∃ c, newWide w m d = some c ∧ c.denominator = d ∧ 2 ^ m ≤ c.magic.toNat * d.toNat ∧
      c.magic.toNat * d.toNat < 2 ^ m + d.toNat := by
  have hdlt := d.isLt
  have hw : 1 < w := by
    by_contra hw
    have hle : 2 ^ w ≤ 2 ^ 1 := Nat.pow_le_pow_right Nat.two_pos (by omega)
    omega
  have hpow : 2 ^ w ≤ 2 ^ m := Nat.pow_le_pow_right Nat.two_pos (by omega)
  have hone : (1#w).toNat = 1 := mod_eq_of_lt (Nat.one_lt_two_pow (by omega))
  have hne : d ≠ 0 := by
    rintro rfl
    simp at hd
  have hgt : d > 1 := by
    exact hone.trans_lt hd
  have hbounds := reciprocal_bounds (2 ^ m - 1) (lt_of_succ_lt hd)
  -- the denominator is at least two, so that the sum does not wrap
  have hhalf : (2 ^ m - 1) / d.toNat ≤ (2 ^ m - 1) / 2 := div_le_div_left hd Nat.two_pos
  have hmagic : (allOnes m / d.setWidth m + 1).toNat = (2 ^ m - 1) / d.toNat + 1 := by
    rw [toNat_add, toNat_udiv, toNat_setWidth, mod_eq_of_lt (hdlt.trans_le hpow)]
    show ((2 ^ m - 1) / d.toNat + (1#m).toNat) % 2 ^ m = _
    rw [show (1#m).toNat = 1 from mod_eq_of_lt (Nat.one_lt_two_pow (by omega)),
      mod_eq_of_lt (by omega)]
  refine ⟨⟨_, d⟩, by rw [newWide, if_neg hne, if_pos hgt], rfl, ?_⟩
  rw [hmagic]
  omega

/-- The reciprocal of the narrow types is greater than `2 ^ kShift / d`. -/
theorem newNarrow_eq (hshift : 2 * w ≤ kShift) (hm : kShift + 1 < m) (hd : 0 < d.toNat) :
    ∃ c, newNarrow w m kShift d = some c ∧ c.denominator = d ∧
      2 ^ kShift ≤ c.magic.toNat * d.toNat ∧ c.magic.toNat * d.toNat ≤ 2 ^ kShift + d.toNat ∧
        c.magic.toNat ≤ 2 ^ kShift + 1 := by
  have hdlt := d.isLt
  have hpow : 2 ^ w ≤ 2 ^ m := Nat.pow_le_pow_right Nat.two_pos (by omega)
  have hne : d ≠ 0 := by
    rintro rfl
    simp at hd
  have hgt : d > 0 := by
    rw [gt_iff_lt, lt_def]
    simpa using hd
  have hbounds := reciprocal_bounds (2 ^ kShift) hd
  have hle : 2 ^ kShift / d.toNat ≤ 2 ^ kShift := Nat.div_le_self _ _
  have hone : (1#m).toNat = 1 := mod_eq_of_lt (Nat.one_lt_two_pow (by omega))
  have hk : (2:Nat) ^ kShift < 2 ^ m := Nat.pow_lt_pow_right (by omega) (by omega)
  have hmagic : ((1#m <<< kShift) / d.setWidth m + 1).toNat = 2 ^ kShift / d.toNat + 1 := by
    rw [toNat_add, toNat_udiv, toNat_shiftLeft, hone, Nat.shiftLeft_eq, one_mul,
      mod_eq_of_lt hk, toNat_setWidth, mod_eq_of_lt (hdlt.trans_le hpow)]
    show (2 ^ kShift / d.toNat + (1#m).toNat) % 2 ^ m = _
    rw [hone, mod_eq_of_lt]
    have hgap : 2 ^ kShift + 1 < 2 ^ m := by
      have hmore : (2:Nat) ^ (kShift + 2) ≤ 2 ^ m := Nat.pow_le_pow_right Nat.two_pos (by omega)
      rw [pow_add] at hmore
      omega
    omega
  refine ⟨⟨_, d⟩, by rw [newNarrow, if_neg hne, if_pos hgt], rfl, ?_⟩
  rw [hmagic]
  omega

/-! ## The products -/

/-- The high word of a product is a quotient. -/
theorem toNat_uint128High64 (a : BitVec 128) : (uint128High64 a).toNat = a.toNat / 2 ^ 64 := by
  have hlt : a.toNat / 2 ^ 64 < 2 ^ 64 := Nat.div_lt_of_lt_mul a.isLt
  rw [uint128High64, toNat_setWidth, toNat_ushiftRight, shiftRight_eq_div_pow, mod_eq_of_lt hlt]

/-- The two partial products of `MultiplyHi` add up to the upper words of the whole product. -/
theorem toNat_multiplyHi (a : BitVec 128) (b : BitVec 64) :
    (multiplyHi a b).toNat = a.toNat * b.toNat / 2 ^ 128 := by
  have hb128 : (b.setWidth 128).toNat = b.toNat := by
    rw [toNat_setWidth, mod_eq_of_lt (by omega)]
  have hlo128 : ((uint128Low64 a).setWidth 128).toNat = a.toNat % 2 ^ 64 := by
    rw [toNat_setWidth, uint128Low64, toNat_setWidth, mod_eq_of_lt (by omega)]
  have hhi128 : ((uint128High64 a).setWidth 128).toNat = a.toNat / 2 ^ 64 := by
    rw [toNat_setWidth, toNat_uint128High64, mod_eq_of_lt (by omega)]
  have htop : a.toNat / 2 ^ 64 * b.toNat ≤ (2 ^ 64 - 1) * (2 ^ 64 - 1) :=
    Nat.mul_le_mul (by omega) (by omega)
  have hbottom : a.toNat % 2 ^ 64 * b.toNat ≤ (2 ^ 64 - 1) * (2 ^ 64 - 1) :=
    Nat.mul_le_mul (by omega) (by omega)
  -- the product without its lowest word
  have hsplit : a.toNat * b.toNat = 2 ^ 64 * (a.toNat / 2 ^ 64 * b.toNat) +
      a.toNat % 2 ^ 64 * b.toNat := by
    have := div_add_mod a.toNat (2 ^ 64)
    calc a.toNat * b.toNat = (2 ^ 64 * (a.toNat / 2 ^ 64) + a.toNat % 2 ^ 64) *
      b.toNat := by rw [this]
      _ = _ := by rw [Nat.add_mul, Nat.mul_assoc]
  rw [multiplyHi, toNat_uint128High64, toNat_add, toNat_ushiftRight,
    toNat_mul, toNat_mul, hlo128, hhi128, hb128]
  omega

/-! ## The four types -/

/-- The 64-bit divisor divides exactly. -/
theorem div64_exact {d : BitVec 64} (hd : 1 < d.toNat) :
    ∃ c, ConstantDivisor64.new d = some c ∧ Divides c (ConstantDivisor64.div c) d := by
  obtain ⟨c, hnew, hc, hlow, hhigh⟩ := newWide_eq (Nat.le_refl (2 * 64)) hd
  refine ⟨c, hnew, divides_of_div hc fun n => ?_⟩
  have herror : n.toNat * (c.magic.toNat * d.toNat - 2 ^ 128) ≤ (2 ^ 64 - 1) * (2 ^ 64 - 1) :=
    Nat.mul_le_mul (by have := n.isLt; omega) (by have := d.isLt; omega)
  rw [ConstantDivisor64.div, toNat_multiplyHi, Nat.mul_comm]
  exact mul_reciprocal_div (by omega) hlow (herror.trans_lt (by decide))

/-- The product of the 32-bit divisor does not overflow. -/
theorem product32_exact (n : BitVec 32) (magic : BitVec 64) :
    (n.setWidth 128 * magic.setWidth 128).toNat = n.toNat * magic.toNat := by
  have hn := n.isLt
  have hmagic := magic.isLt
  have hn128 : (n.setWidth 128).toNat = n.toNat := by
    rw [toNat_setWidth, mod_eq_of_lt (by omega)]
  have hmagic128 : (magic.setWidth 128).toNat = magic.toNat := by
    rw [toNat_setWidth, mod_eq_of_lt (by omega)]
  have hle : n.toNat * magic.toNat ≤ 2 ^ 32 * 2 ^ 64 := Nat.mul_le_mul hn.le hmagic.le
  rw [toNat_mul_of_lt, hn128, hmagic128]
  exact hle.trans_lt (by decide)

/-- The 32-bit divisor divides exactly. -/
theorem div32_exact {d : BitVec 32} (hd : 1 < d.toNat) :
    ∃ c, ConstantDivisor32.new d = some c ∧ Divides c (ConstantDivisor32.div c) d := by
  obtain ⟨c, hnew, hc, hlow, hhigh⟩ := newWide_eq (Nat.le_refl (2 * 32)) hd
  refine ⟨c, hnew, divides_of_div hc fun n => ?_⟩
  have herror : n.toNat * (c.magic.toNat * d.toNat - 2 ^ 64) ≤ (2 ^ 32 - 1) * (2 ^ 32 - 1) :=
    Nat.mul_le_mul (by omega) (by have := d.isLt; omega)
  have hdiv : n.toNat * c.magic.toNat / 2 ^ 64 = n.toNat / d.toNat :=
    mul_reciprocal_div (by omega) hlow (herror.trans_lt (by decide))
  have hle : n.toNat / d.toNat ≤ n.toNat := Nat.div_le_self _ _
  rw [ConstantDivisor32.div, toNat_setWidth, toNat_uint128High64, product32_exact, hdiv,
    mod_eq_of_lt (by omega)]

/-- The narrow types divide by `d`, and their product fits. -/
theorem divNarrow_exact (hshift : 2 * w ≤ kShift) (hm : kShift + 1 + w ≤ m) (hw : 0 < w)
    (hd : 0 < d.toNat) : ∃ c, newNarrow w m kShift d = some c ∧ Divides c (divNarrow kShift c) d ∧
      ∀ n : BitVec w, (c.magic * n.setWidth m).toNat = c.magic.toNat * n.toNat := by
  obtain ⟨c, hnew, hc, hlow, hhigh, hmagic⟩ := newNarrow_eq hshift (by omega : kShift + 1 < m) hd
  have hproduct : ∀ n : BitVec w, (c.magic * n.setWidth m).toNat = c.magic.toNat * n.toNat := by
    intro n
    have hn := n.isLt
    have hpos := Nat.two_pow_pos kShift
    have hnm : (n.setWidth m).toNat = n.toNat := by
      rw [toNat_setWidth, mod_eq_of_lt (hn.trans_le (Nat.pow_le_pow_right Nat.two_pos (by omega)))]
    have hfits : c.magic.toNat * n.toNat < 2 ^ m :=
      calc c.magic.toNat * n.toNat ≤ 2 ^ (kShift + 1) * n.toNat := by
            refine Nat.mul_le_mul_right _ ?_
            omega
        _ < 2 ^ (kShift + 1) * 2 ^ w := Nat.mul_lt_mul_of_pos_left hn (Nat.two_pow_pos _)
        _ ≤ 2 ^ m := by
            rw [← pow_add]
            exact Nat.pow_le_pow_right Nat.two_pos hm
    rw [toNat_mul_of_lt, hnm]
    rwa [hnm]
  refine ⟨c, hnew, divides_of_div hc fun n => ?_, hproduct⟩
  have hn := n.isLt
  have herror : n.toNat * (c.magic.toNat * d.toNat - 2 ^ kShift) < 2 ^ kShift :=
    calc n.toNat * (c.magic.toNat * d.toNat - 2 ^ kShift) ≤ n.toNat * 2 ^ w :=
      Nat.mul_le_mul_left _ (by omega)
      _ < 2 ^ w * 2 ^ w := Nat.mul_lt_mul_of_pos_right hn (Nat.two_pow_pos w)
      _ ≤ 2 ^ kShift := by
          rw [← pow_add]
          exact Nat.pow_le_pow_right Nat.two_pos (by omega)
  have hdiv := mul_reciprocal_div hd hlow herror
  have hle : n.toNat / d.toNat ≤ n.toNat := Nat.div_le_self _ _
  rw [divNarrow, toNat_setWidth, toNat_ushiftRight, shiftRight_eq_div_pow, hproduct,
    mul_comm, hdiv, mod_eq_of_lt (hle.trans_lt hn)]

/-- The constructor accepts the denominators from `least` on, and divides by them. -/
def ExactFrom {w m : Nat} (least : Nat) (new : BitVec w → Option (ConstantDivisorBase w m))
    (div : ConstantDivisorBase w m → BitVec w → BitVec w) : Prop :=
  ∀ d : BitVec w, if least ≤ d.toNat then ∃ c, new d = some c ∧ Divides c (div c) d
    else new d = none

/-- Zero and one are no divisors for the wide class. -/
theorem newWide_eq_none (hd : ¬ 2 ≤ d.toNat) : newWide w m d = none := by
  have hnot : ¬ d > 1 := by
    rw [gt_iff_lt, lt_def, not_lt]
    show d.toNat ≤ 1 % 2 ^ w
    by_cases hw : w = 0
    · subst hw
      omega
    · rw [mod_eq_of_lt (Nat.one_lt_two_pow hw)]
      omega
  rw [newWide, if_neg hnot, ite_self]

/-- Zero is no divisor for the narrow class. -/
theorem newNarrow_eq_none (hd : ¬ 1 ≤ d.toNat) : newNarrow w m kShift d = none := by
  have hzero : d = 0 := eq_of_toNat_eq (by simpa using hd)
  rw [newNarrow, if_pos hzero]

/-- The narrow class divides exactly, for every shift that is large enough. -/
theorem narrow_exactFrom (hshift : 2 * w ≤ kShift) (hm : kShift + 1 + w ≤ m) (hw : 0 < w) :
    ExactFrom 1 (newNarrow w m kShift) (divNarrow kShift) := by
  intro d
  split
  case isTrue hd =>
    obtain ⟨c, hnew, hdivides, -⟩ := divNarrow_exact hshift hm hw hd
    exact ⟨c, hnew, hdivides⟩
  case isFalse hd => exact newNarrow_eq_none hd

/-- The product of the narrow class does not overflow. -/
theorem narrow_product (hshift : 2 * w ≤ kShift) (hm : kShift + 1 + w ≤ m) (hw : 0 < w)
    (d : BitVec w) (c : ConstantDivisorBase w m) (n : BitVec w)
    (hnew : newNarrow w m kShift d = some c) :
    (c.magic * n.setWidth m).toNat = c.magic.toNat * n.toNat := by
  by_cases hd : 1 ≤ d.toNat
  · obtain ⟨c', hnew', -, hproduct⟩ := divNarrow_exact hshift hm hw hd
    cases hnew'.symm.trans hnew
    exact hproduct n
  · cases (newNarrow_eq_none hd).symm.trans hnew

/-- For each of the types, `div` and `mod` are the quotient and the remainder for every denominator
that the constructor accepts, and the products that they are taken from are exact. -/
theorem constantDivisor_exact : (ExactFrom 2 ConstantDivisor64.new ConstantDivisor64.div ∧
      ∀ (a : BitVec 128) (b : BitVec 64), (multiplyHi a b).toNat = a.toNat * b.toNat / 2 ^ 128) ∧
    (ExactFrom 2 ConstantDivisor32.new ConstantDivisor32.div ∧ ∀ (n : BitVec 32)
      (magic : BitVec 64),
        (n.setWidth 128 * magic.setWidth 128).toNat = n.toNat * magic.toNat) ∧
    (ExactFrom 1 ConstantDivisor16.new ConstantDivisor16.div ∧
      ∀ d c (n : BitVec 16), ConstantDivisor16.new d = some c →
        (c.magic * n.setWidth 64).toNat = c.magic.toNat * n.toNat) ∧
    (ExactFrom 1 ConstantDivisor8.new ConstantDivisor8.div ∧
      ∀ d c (n : BitVec 8), ConstantDivisor8.new d = some c →
        (c.magic * n.setWidth 32).toNat = c.magic.toNat * n.toNat) := by
  refine ⟨⟨fun d => ?_, toNat_multiplyHi⟩, ⟨fun d => ?_, product32_exact⟩, ?_, ?_⟩
  · split
    case isTrue hd => exact div64_exact hd
    case isFalse hd => exact newWide_eq_none hd
  · split
    case isTrue hd => exact div32_exact hd
    case isFalse hd => exact newWide_eq_none hd
  · have hshift : 2 * 16 ≤ 32 := le_refl _
    have hm : 32 + 1 + 16 ≤ 64 := by omega
    exact ⟨narrow_exactFrom hshift hm (succ_pos _), narrow_product hshift hm (succ_pos _)⟩
  · have hshift : 2 * 8 ≤ 16 := le_refl _
    have hm : 16 + 1 + 8 ≤ 32 := by omega
    exact ⟨narrow_exactFrom hshift hm (succ_pos _), narrow_product hshift hm (succ_pos _)⟩

/-- Division of bytes by seven: the reciprocal is 9363, and the product with it is exact. -/
theorem constantDivisor_seven : ConstantDivisor8.new 7 = some ⟨9363, 7⟩ ∧
      (9363#32 * (100#8).setWidth 32).toNat = 9363 * 100 := by
  have hnew : ConstantDivisor8.new 7 = some ⟨9363, 7⟩ := rfl
  exact ⟨hnew, constantDivisor_exact.2.2.2.2 7 ⟨9363, 7⟩ 100 hnew⟩

end Gloop.Math
