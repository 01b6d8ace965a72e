import Gloop.Foundation.IntType
import Gloop.Foundation.Iterate

/-!
# `SafeIntOps` and `LosslessConvert`

The operands have integer types of at most 64 bits, in any mixture. The arithmetic is done in 128
bits without a sign, where a negative number is carried as its complement, and `Assign` guesses the
sign from the upper word. A result is what the function returns together with what `*result` holds
afterwards, and an overflow of the types in between is `none`.
-/

namespace Gloop.IntOps

open Gloop.Foundation Int IntType

/-- The type `int64_t`. -/
def int64 : IntType := ⟨64, true⟩

/-- The type `uint64_t`. -/
def uint64 : IntType := ⟨64, false⟩

/-- The type `absl::uint128`. -/
def uint128 : IntType := ⟨128, false⟩

/-! ## The model -/

/-- `MakeUint128(high, low)`. -/
def makeUint128 (high low : Int) : Int :=
  uint64.cast high * 2 ^ 64 + uint64.cast low

/-- `ConvertToUint128(from, to)`. -/
def convertToUint128 (value : Int) : Int :=
  if value < 0 then makeUint128 0xFFFFFFFFFFFFFFFF value else makeUint128 0 value

/-- `Assign(from, to)`, for `*to` of the type `u`. -/
def assign (u : IntType) (value target : Int) : Bool × Int :=
  let high := value / 2 ^ 64
  let low := value % 2 ^ 64
  if high = 0 then
    if low ≤ u.max then (true, u.cast low) else (false, target)
  else if high = 0xFFFFFFFFFFFFFFFF ∧ 0x8000000000000000 ≤ low then
    if int64.cast low ≥ int64.cast u.min then (true, u.cast low) else (false, target)
  else (false, target)

/-- The operand of `DivideModuloHelper` without its sign. -/
def magnitude (x : Int) : Option Int :=
  if x < 0 then
    if x = int64.min then some (convertToUint128 (1 + int64.max))
    else (int64.check (x * -1)).map convertToUint128
  else some (convertToUint128 x)

/-- `DivideModuloHelper(lhs, rhs, quotient, remainder)`. -/
def divideModuloHelper (lhs rhs : Int) : Option (Int × Int) := do
  let bigLhs ← magnitude lhs
  let bigRhs ← magnitude rhs
  let negateResult := decide (lhs < 0) != decide (rhs < 0)
  let quotient := bigLhs / bigRhs
  let quotient := if negateResult then uint128.cast (quotient * uint128.cast (-1)) else quotient
  let remainder := uint128.cast (convertToUint128 lhs -
    uint128.cast (convertToUint128 rhs * quotient))
  some (quotient, remainder)

/-- `LosslessConvert(in_val, out)` between integral types. -/
def losslessConvert (inType outType : IntType) (inVal : Int) : Bool × Int :=
  let out := outType.cast inVal
  if inType.cast out ≠ inVal then (false, out)
  else if inType.signed ≠ outType.signed ∧ decide (inVal < 0) ≠ decide (out < 0) then (false, out)
  else (true, out)

/-- `LeftShiftHelper(lhs, rhs, result)`, for `lhs` of the type `t`. -/
def leftShiftHelper (t v : IntType) (lhs : Int) (rhs : Nat) (result : Int) : Bool × Int :=
  let tempValue := t.cast (lhs * 2 ^ rhs)
  if tempValue / 2 ^ rhs ≠ lhs then (false, result) else losslessConvert t v tempValue

/-- `SafeAdd(lhs, rhs, result)`. -/
def safeAdd (v : IntType) (lhs rhs result : Int) : Option (Bool × Int) :=
  some (assign v (uint128.cast (convertToUint128 lhs + convertToUint128 rhs)) result)

/-- `SafeSubtract(lhs, rhs, result)`. -/
def safeSubtract (v : IntType) (lhs rhs result : Int) : Option (Bool × Int) :=
  some (assign v (uint128.cast (convertToUint128 lhs - convertToUint128 rhs)) result)

/-- `SafeMultiply(lhs, rhs, result)`. -/
def safeMultiply (v : IntType) (lhs rhs result : Int) : Option (Bool × Int) :=
  some (assign v (uint128.cast (convertToUint128 lhs * convertToUint128 rhs)) result)

/-- `SafeDivide(lhs, rhs, result)`. -/
def safeDivide (v : IntType) (lhs rhs result : Int) : Option (Bool × Int) :=
  if rhs = 0 then some (false, result)
  else do
    let (quotient, _) ← divideModuloHelper lhs rhs
    some (assign v quotient result)

/-- `SafeModulo(lhs, rhs, result)`. -/
def safeModulo (v : IntType) (lhs rhs result : Int) : Option (Bool × Int) :=
  if rhs = 0 then some (false, result)
  else do
    let (_, remainder) ← divideModuloHelper lhs rhs
    some (assign v remainder result)

/-- `SafeLeftShift(lhs, rhs, result)`. -/
def safeLeftShift (v : IntType) (lhs rhs result : Int) : Option (Bool × Int) :=
  if rhs < 0 then some (false, result)
  else if rhs ≥ 64 then
    if lhs = 0 then some (true, 0) else some (false, result)
  else if lhs ≥ 0 then some (leftShiftHelper uint64 v (uint64.cast lhs) rhs.toNat result)
  else some (leftShiftHelper int64 v (int64.cast lhs) rhs.toNat result)

/-- `SafeRightShift(lhs, rhs, result)`, for `lhs` of the type `t`. -/
def safeRightShift (t v : IntType) (lhs rhs result : Int) : Option (Bool × Int) :=
  if rhs < 0 then some (false, result)
  else if rhs ≥ t.bits then some (losslessConvert t v (if lhs < 0 then -1 else 0))
  else some (losslessConvert t v (lhs / 2 ^ rhs.toNat))

/-! ## The law -/

/-- The call returns whether the operation is defined and its value fits, and stores the value if
so. -/
def Law (v : IntType) (defined : Prop) (value : Int) (result : Option (Bool × Int)) : Prop :=
  ∃ ok stored, result = some (ok, stored) ∧ (ok = true ↔ defined ∧ v.Fits value) ∧
    (ok = true → stored = value)

/-- A type of at most 64 bits. -/
def AtMost64 (t : IntType) : Prop :=
  0 < t.bits ∧ t.bits ≤ 64

/-- A result that does not exist or does not fit is refused. -/
theorem law_of_not_fits {v : IntType} {defined : Prop} {value stored : Int}
    (h : ¬ (defined ∧ v.Fits value)) : Law v defined value (some (false, stored)) := by
  refine ⟨false, stored, rfl, iff_of_false (fun hok => ?_) h, fun hok => ?_⟩
  · cases hok
  · cases hok

/-- A result that fits is returned. -/
theorem law_of_fits {v : IntType} {defined : Prop} {value : Int} (hdefined : defined)
    (h : v.Fits value) : Law v defined value (some (true, value)) :=
  ⟨true, value, rfl, ⟨fun _ => ⟨hdefined, h⟩, fun _ => rfl⟩, fun _ => rfl⟩

theorem Law.mono {v : IntType} {defined defined' : Prop} {value : Int}
    {result : Option (Bool × Int)}
    (h : Law v defined value result) (hiff : defined ↔ defined') : Law v defined' value result := by
  rwa [propext hiff] at h

theorem AtMost64.min_ge {t : IntType} (ht : AtMost64 t) : -2 ^ 63 ≤ t.min := by
  have hpow : (2 : Int) ^ (t.bits - 1) ≤ 2 ^ 63 :=
    pow_le_pow_right₀ one_le_two (by have := ht.2; omega)
  rw [IntType.min]
  split <;> omega

theorem AtMost64.max_lt {t : IntType} (ht : AtMost64 t) : t.max < 2 ^ 64 :=
  Int.lt_of_lt_of_le t.max_lt_two_pow (pow_le_pow_right₀ one_le_two ht.2)

variable {x : Int}

/-- A value of a type of at most 64 bits is one of `int64` or `uint64`. -/
theorem AtMost64.bounds {t : IntType} (ht : AtMost64 t) (hx : t.Fits x) :
    -2 ^ 63 ≤ x ∧ x < 2 ^ 64 :=
  ⟨Int.le_trans ht.min_ge hx.1, Int.lt_of_le_of_lt hx.2 ht.max_lt⟩

/-! ## Arithmetic modulo `2 ^ 128` -/

theorem uint128_cast (x : Int) : uint128.cast x = x % 2 ^ 128 :=
  if_neg fun h => nomatch h.1

theorem uint64_cast (x : Int) : uint64.cast x = x % 2 ^ 64 :=
  if_neg fun h => nomatch h.1

/-- A number is carried as its residue. -/
theorem convertToUint128_eq (hlow : -2 ^ 63 ≤ x) (hhigh : x < 2 ^ 64) :
    convertToUint128 x = x % 2 ^ 128 := by
  rw [convertToUint128, makeUint128, makeUint128]
  simp only [uint64_cast]
  split <;> omega

/-- A residue of a number that is not too large is told apart from those of the other sign. -/
theorem assign_law {v : IntType} (hv : AtMost64 v) (hlow : -2 ^ 127 ≤ x)
    (hhigh : x < 2 ^ 128 - 2 ^ 63)
    (target : Int) : Law v True x (some (assign v (x % 2 ^ 128) target)) := by
  have hmin := hv.min_ge
  have hmin0 := min_nonpos v
  have hmax := hv.max_lt
  have hdvd64 : (2 : Int) ^ v.bits ∣ 2 ^ 64 :=
    ⟨2 ^ (64 - v.bits), by rw [← Int.pow_add, Nat.add_sub_cancel' hv.2]⟩
  rw [assign]
  by_cases hneg : x < 0
  · have hres : x % 2 ^ 128 = x + 2 ^ 128 := by omega
    rw [hres]
    by_cases hword : -2 ^ 63 ≤ x
    · have hhigh : (x + 2 ^ 128) / 2 ^ 64 = 0xFFFFFFFFFFFFFFFF := by omega
      have hlow : (x + 2 ^ 128) % 2 ^ 64 = x + 2 ^ 64 := by omega
      have hcast : int64.cast (x + 2 ^ 64) = x :=
        cast_eq_of_dvd (by decide) ⟨hword, by show x ≤ 2 ^ 63 - 1; omega⟩
          ⟨1, by show _ = 2 ^ 64 * 1; omega⟩
      have hcastMin : int64.cast v.min = v.min :=
        cast_eq_self (by decide) ⟨hmin, by show v.min ≤ 2 ^ 63 - 1; omega⟩
      simp only [hhigh, hlow, hcast, hcastMin]
      rw [if_neg (by decide), if_pos ⟨trivial, by omega⟩]
      by_cases hfits : x ≥ v.min
      · have hv' : v.Fits x := ⟨hfits, by have := max_nonneg v; omega⟩
        have hstored : v.cast (x + 2 ^ 64) = x :=
          cast_eq_of_dvd hv.1 hv' (by rwa [Int.add_comm, Int.add_sub_cancel])
        rw [if_pos hfits, hstored]
        exact law_of_fits trivial hv'
      · rw [if_neg hfits]
        exact law_of_not_fits fun h => hfits h.2.1
    · -- the upper word is neither zero nor that of a negative word
      rw [if_neg (by omega), if_neg (by omega)]
      exact law_of_not_fits fun h => hword (Int.le_trans hmin h.2.1)
  · have hres : x % 2 ^ 128 = x := by omega
    rw [hres]
    by_cases hword : x < 2 ^ 64
    · have hhigh : x / 2 ^ 64 = 0 := by omega
      have hlow : x % 2 ^ 64 = x := by omega
      simp only [hhigh, hlow]
      by_cases hfits : x ≤ v.max
      · have hv' : v.Fits x := ⟨by omega, hfits⟩
        rw [if_pos hfits, cast_eq_self hv.1 hv']
        exact law_of_fits trivial hv'
      · rw [if_neg hfits]
        exact law_of_not_fits fun h => hfits h.2.2
    · rw [if_neg (by omega), if_neg (by omega)]
      exact law_of_not_fits fun h => hword (Int.lt_of_le_of_lt h.2.2 hmax)

/-! ## Sums, differences and products -/

variable {t v : IntType} {l r : Int}

section

variable (hv : AtMost64 v) (hl0 : -2 ^ 63 ≤ l) (hl1 : l < 2 ^ 64) (hr0 : -2 ^ 63 ≤ r)
  (hr1 : r < 2 ^ 64) (result : Int)
include hl0 hl1 hr0 hr1

include hv in
theorem safeAdd_law : Law v True (l + r) (safeAdd v l r result) := by
  rw [safeAdd, convertToUint128_eq hl0 hl1, convertToUint128_eq hr0 hr1, uint128_cast, ← add_emod]
  exact assign_law hv (by omega) (by omega) result

include hv in
/-- A difference is exact or refused. -/
theorem safeSubtract_law : Law v True (l - r) (safeSubtract v l r result) := by
  rw [safeSubtract, convertToUint128_eq hl0 hl1, convertToUint128_eq hr0 hr1, uint128_cast,
    ← sub_emod]
  exact assign_law hv (by omega) (by omega) result

/-- The products of two operands are far enough from `2 ^ 128`. -/
theorem mul_bounds : -2 ^ 127 ≤ l * r ∧ l * r < 2 ^ 128 - 2 ^ 63 := by
  have hpos : ∀ {a b m n : Int}, 0 ≤ a → a ≤ m → 0 ≤ b → b ≤ n → 0 ≤ a * b ∧ a * b ≤ m * n := by
    intro a b m n ha ham hb hbn
    exact ⟨Int.mul_nonneg ha hb, Int.mul_le_mul ham hbn hb (by omega)⟩
  -- one case for each pair of signs
  by_cases hl : 0 ≤ l
  · by_cases hr : 0 ≤ r
    · have := hpos hl (le_sub_one_of_lt hl1) hr (le_sub_one_of_lt hr1)
      omega
    · have := hpos hl (le_sub_one_of_lt hl1) (by omega) (show -r ≤ 2 ^ 63 by omega)
      rw [Int.mul_neg] at this
      omega
  · by_cases hr : 0 ≤ r
    · have := hpos (by omega) (show -l ≤ 2 ^ 63 by omega) hr (le_sub_one_of_lt hr1)
      rw [Int.neg_mul] at this
      omega
    · have := hpos (by omega) (show -l ≤ 2 ^ 63 by omega) (by omega)
        (show -r ≤ 2 ^ 63 by omega)
      rw [Int.neg_mul_neg] at this
      omega

include hv in
/-- A product is exact or refused. -/
theorem safeMultiply_law : Law v True (l * r) (safeMultiply v l r result) := by
  obtain ⟨hlow, hhigh⟩ := mul_bounds hl0 hl1 hr0 hr1
  rw [safeMultiply, convertToUint128_eq hl0 hl1, convertToUint128_eq hr0 hr1, uint128_cast,
    ← mul_emod]
  exact assign_law hv hlow hhigh result

/-! ## Quotients and remainders -/

omit hl0 hl1 hr0 hr1 in
/-- The magnitude of a value of at most 64 bits. -/
theorem magnitude_eq (hlow : -2 ^ 63 ≤ x) (hhigh : x < 2 ^ 64) :
    magnitude x = some (x.natAbs : Int) := by
  have hmin : int64.min = -2 ^ 63 := rfl
  have hmax : int64.max = 2 ^ 63 - 1 := rfl
  rw [magnitude]
  split
  case isTrue hneg =>
    split
    case isTrue heq =>
      rw [convertToUint128_eq (by omega) (by omega)]
      congr 1
      omega
    case isFalse hne =>
      have hfits : int64.Fits (x * -1) := ⟨by rw [hmin]; omega, by rw [hmax]; omega⟩
      rw [check_eq hfits, Option.map_some, convertToUint128_eq (by omega) (by omega)]
      congr 1
      omega
  case isFalse hpos =>
    rw [convertToUint128_eq hlow hhigh]
    congr 1
    omega

omit hl0 hl1 hr0 hr1 in
/-- The quotient of the magnitudes, with the sign of the operands. -/
theorem tdiv_eq_natAbs (l r : Int) : l.tdiv r =
    if (decide (l < 0) != decide (r < 0)) = true then -((l.natAbs : Int) / r.natAbs)
    else (l.natAbs : Int) / r.natAbs := by
  have hquotient : (l.natAbs : Int).tdiv r.natAbs = (l.natAbs : Int) / r.natAbs :=
    tdiv_eq_ediv_of_nonneg (natCast_nonneg _)
  by_cases hl : l < 0
  · have hl' : l = -(l.natAbs : Int) := by omega
    by_cases hr : r < 0
    · have hr' : r = -(r.natAbs : Int) := by omega
      rw [if_neg (by simp [hl, hr]), ← hquotient]
      conv_lhs => rw [hl', hr', Int.neg_tdiv_neg]
    · have hr' : r = (r.natAbs : Int) := by omega
      rw [if_pos (by simp [hl, hr]), ← hquotient]
      conv_lhs => rw [hl', hr', Int.neg_tdiv]
  · have hl' : l = (l.natAbs : Int) := by omega
    by_cases hr : r < 0
    · have hr' : r = -(r.natAbs : Int) := by omega
      rw [if_pos (by simp [hl, hr]), ← hquotient]
      conv_lhs => rw [hl', hr', Int.tdiv_neg]
    · have hr' : r = (r.natAbs : Int) := by omega
      rw [if_neg (by simp [hl, hr]), ← hquotient]
      conv_lhs => rw [hl', hr']

/-- Quotient and remainder, with signs as in the source. -/
theorem divideModuloHelper_eq :
    divideModuloHelper l r = some (l.tdiv r % 2 ^ 128, l.tmod r % 2 ^ 128) := by
  have hq0 : 0 ≤ (l.natAbs : Int) / r.natAbs := ediv_nonneg (natCast_nonneg _) (natCast_nonneg _)
  have hq1 : (l.natAbs : Int) / r.natAbs ≤ l.natAbs := ediv_le_self _ (natCast_nonneg _)
  have hquotient : (if (decide (l < 0) != decide (r < 0)) = true
        then uint128.cast ((l.natAbs : Int) / r.natAbs * uint128.cast (-1))
          else (l.natAbs : Int) / r.natAbs) =
      l.tdiv r % 2 ^ 128 := by
    rw [tdiv_eq_natAbs]
    split
    · rw [uint128_cast, uint128_cast, mul_emod, emod_emod, ← mul_emod, Int.mul_neg, Int.mul_one]
    · omega
  rw [divideModuloHelper, magnitude_eq hl0 hl1, magnitude_eq hr0 hr1]
  simp only [Option.bind_eq_bind, Option.bind_some]
  rw [hquotient, convertToUint128_eq hl0 hl1, convertToUint128_eq hr0 hr1, uint128_cast,
    uint128_cast, ← mul_emod, ← sub_emod, ← tmod_def]

omit hr0 hr1 in
/-- A result that is no larger than the left operand is assigned, where the operation is defined. -/
theorem assign_bounded (hv : AtMost64 v) (hbound : x.natAbs ≤ l.natAbs) (hzero : r ≠ 0) :
    Law v (r ≠ 0) x (some (assign v (x % 2 ^ 128) result)) :=
  (assign_law hv (by omega) (by omega) result).mono (iff_of_true trivial hzero)

include hv in
/-- A quotient is exact or refused. -/
theorem safeDivide_law : Law v (r ≠ 0) (l.tdiv r) (safeDivide v l r result) := by
  rw [safeDivide]
  by_cases hzero : r = 0
  · rw [if_pos hzero]
    exact law_of_not_fits fun h => h.1 hzero
  · rw [if_neg hzero, divideModuloHelper_eq hl0 hl1 hr0 hr1]
    refine assign_bounded hl0 hl1 result hv ?_ hzero
    rw [natAbs_tdiv]
    exact Nat.div_le_self _ _

include hv in
/-- A remainder is exact or refused. -/
theorem safeModulo_law : Law v (r ≠ 0) (l.tmod r) (safeModulo v l r result) := by
  rw [safeModulo]
  by_cases hzero : r = 0
  · rw [if_pos hzero]
    exact law_of_not_fits fun h => h.1 hzero
  · rw [if_neg hzero, divideModuloHelper_eq hl0 hl1 hr0 hr1]
    refine assign_bounded hl0 hl1 result hv ?_ hzero
    rw [natAbs_tmod]
    exact Nat.mod_le _ _

end

/-! ## Conversions and shifts -/

/-- The outcome of a conversion to the type `v` that is made under a condition. -/
def converted (v : IntType) (made : Prop) [Decidable made] (value result : Int) : Bool × Int :=
  if made then (decide (v.Fits value), v.cast value) else (false, result)

section

variable {made made' defined : Prop} [Decidable made] [Decidable made'] (result : Int)

theorem converted_congr (h : made ↔ made') :
    converted v made x result = converted v made' x result :=
  if_congr h rfl rfl

/-- A conversion that is made whenever the value fits and the operation is defined. -/
theorem converted_law (hv : 0 < v.bits) (hmade : v.Fits x → (made ↔ defined)) :
    Law v defined x (some (converted v made x result)) := by
  rw [converted]
  by_cases hfits : v.Fits x
  · rw [decide_eq_true hfits, cast_eq_self hv hfits]
    split
    case isTrue h => exact law_of_fits ((hmade hfits).mp h) hfits
    case isFalse h => exact law_of_not_fits fun hd => h ((hmade hfits).mpr hd.1)
  · rw [decide_eq_false hfits]
    split <;> exact law_of_not_fits fun h => hfits h.2

end

/-- A conversion succeeds if the value fits, and stores what the cast gives in any case. -/
theorem losslessConvert_eq (ht : 0 < t.bits) (hv : 0 < v.bits) (hx : t.Fits x) :
    losslessConvert t v x = (decide (v.Fits x), v.cast x) := by
  rw [losslessConvert]
  by_cases hfits : v.Fits x
  · simp only [cast_eq_self hv hfits, cast_eq_self ht hx]
    rw [if_neg (fun h => h rfl), if_neg (fun h => h.2 rfl), decide_eq_true hfits]
  rw [decide_eq_false hfits]
  split
  · rfl
  case isFalse hback =>
    split
    · rfl
    case isFalse hsign =>
      -- what comes back from a conversion that keeps the sign is the value itself
      refine absurd ?_ hfits
      have hout := cast_fits hv x
      have hdvdv := dvd_cast_sub (t := v) x
      have hdvdt := dvd_cast_sub (t := t) (v.cast x)
      rw [Classical.not_not.mp hback] at hdvdt
      have hsame : v.cast x = x := by
        refine eq_of_dvd_sub hv ht hout hx (fun hne => ?_) hdvdv ?_
        · by_contra hdiffer
          exact hsign ⟨hne.symm, fun h => hdiffer (decide_eq_decide.mp h.symm)⟩
        · rw [← Int.neg_sub]
          exact Int.dvd_neg.mpr hdvdt
      exact hsame ▸ hout

/-- The shifted value is exact if shifting it back gives the operand. -/
theorem leftShiftHelper_eq (ht : t.bits = 64) (hv : 0 < v.bits) {shift : Nat} (hshift : shift < 64)
    (result : Int) : leftShiftHelper t v l shift result =
      converted v (t.Fits (l * 2 ^ shift)) (l * 2 ^ shift) result := by
  have hbits : 0 < t.bits := by omega
  have hpos : (0 : Int) < 2 ^ shift := Int.pow_pos (by omega)
  have hlt : (2 : Int) ^ (shift + 1) ≤ 2 ^ 64 := pow_le_pow_right₀ one_le_two hshift
  rw [leftShiftHelper, converted]
  by_cases hfits : t.Fits (l * 2 ^ shift)
  · rw [if_pos hfits, cast_eq_self hbits hfits, mul_ediv_cancel _ (by omega),
      if_neg (fun h => h rfl),
      losslessConvert_eq hbits hv hfits]
  · rw [if_neg hfits, if_pos fun hback => hfits ?_]
    have hdvd := dvd_cast_sub (t := t) (l * 2 ^ shift)
    have hsplit := ediv_mul_add_emod (t.cast (l * 2 ^ shift)) (2 ^ shift)
    rw [hback] at hsplit
    rw [ht] at hdvd
    have hexact : t.cast (l * 2 ^ shift) = l * 2 ^ shift := by omega
    exact hexact ▸ cast_fits hbits (l * 2 ^ shift)

/-- A shift to the left is made if the value is within 64 bits. -/
theorem safeLeftShift_eq (ht : AtMost64 t) (hv : 0 < v.bits) (hl : t.Fits l) (r result : Int) :
    safeLeftShift v l r result = some (converted v
      (0 ≤ r ∧ -2 ^ 63 ≤ l * 2 ^ r.toNat ∧ l * 2 ^ r.toNat < 2 ^ 64) (l * 2 ^ r.toNat) result) := by
  obtain ⟨hl0, hl1⟩ := ht.bounds hl
  have hpos : (0 : Int) < 2 ^ r.toNat := Int.pow_pos (by omega)
  have hint64 : ∀ x, int64.Fits x ↔ -2 ^ 63 ≤ x ∧ x ≤ 2 ^ 63 - 1 := fun x => Iff.rfl
  have huint64 : ∀ x, uint64.Fits x ↔ 0 ≤ x ∧ x ≤ 2 ^ 64 - 1 := fun x => Iff.rfl
  have hge : 0 < l → 1 * 2 ^ r.toNat ≤ l * 2 ^ r.toNat := fun h =>
    Int.mul_le_mul_of_nonneg_right h (Int.le_of_lt hpos)
  have hle : l < 0 → l * 2 ^ r.toNat ≤ -1 * 2 ^ r.toNat := fun h =>
    Int.mul_le_mul_of_nonneg_right (by omega) (Int.le_of_lt hpos)
  rw [safeLeftShift]
  split
  case isTrue hneg => rw [converted, if_neg (by omega)]
  case isFalse hnonneg =>
    split
    case isTrue hlarge =>
      have hpow : (2 : Int) ^ 64 ≤ 2 ^ r.toNat := pow_le_pow_right₀ one_le_two (by omega)
      split
      case isTrue hzero =>
        have hfits : v.Fits 0 := ⟨min_nonpos v, max_nonneg v⟩
        rw [hzero, Int.zero_mul, converted, if_pos (by omega), decide_eq_true hfits,
          cast_eq_self hv hfits]
      case isFalse hnonzero => rw [converted, if_neg (by omega)]
    case isFalse hsmall =>
      split
      case isTrue hl' =>
        have := Int.mul_nonneg hl' (Int.le_of_lt hpos)
        rw [cast_eq_self (by decide) ((huint64 l).mpr (by omega)),
          leftShiftHelper_eq rfl hv (by omega)]
        exact congrArg some (converted_congr _ (by rw [huint64]; omega))
      case isFalse hl' =>
        rw [cast_eq_self (by decide) ((hint64 l).mpr (by omega)),
          leftShiftHelper_eq rfl hv (by omega)]
        exact congrArg some (converted_congr _ (by rw [hint64]; omega))

/-- A shift to the right is made for every amount that is not negative. -/
theorem safeRightShift_eq (ht : AtMost64 t) (hv : 0 < v.bits) (hl : t.Fits l) (r result : Int) :
    safeRightShift t v l r result = some (converted v (0 ≤ r) (l / 2 ^ r.toNat) result) := by
  have hpos : (0 : Int) < 2 ^ r.toNat := Int.pow_pos (by omega)
  have hneg : l < 0 → l / 2 ^ r.toNat < 0 := fun h => Int.ediv_lt_of_lt_mul hpos (by omega)
  have hle : l < 0 → l ≤ l / 2 ^ r.toNat := by
    intro h
    refine Int.le_ediv_of_mul_le hpos ?_
    have := Int.mul_le_mul_of_nonpos_left (Int.le_of_lt h) (show (1 : Int) ≤ 2 ^ r.toNat by omega)
    omega
  have hfits : t.Fits (l / 2 ^ r.toNat) := by
    by_cases h : l < 0
    · exact ⟨Int.le_trans hl.1 (hle h), by have := hneg h; have := max_nonneg t; omega⟩
    · exact hl.of_le (ediv_nonneg (by omega) (Int.le_of_lt hpos)) (ediv_le_self _ (by omega))
  rw [safeRightShift, converted, ← losslessConvert_eq ht.1 hv hfits]
  by_cases hr : r < 0
  · rw [if_pos hr, if_neg (by omega)]
  rw [if_neg hr, if_pos (show 0 ≤ r by omega)]
  by_cases hlarge : r ≥ t.bits
  · -- no bit of the operand is left but its sign
    have hpow : (2 : Int) ^ t.bits ≤ 2 ^ r.toNat := pow_le_pow_right₀ one_le_two (by omega)
    have hmin := t.neg_two_pow_le_min
    have hmax := t.max_lt_two_pow
    have hvalue : l / 2 ^ r.toNat = if l < 0 then -1 else 0 := by
      obtain ⟨hlow, hhigh⟩ := hl
      split
      case isTrue h =>
        have hge : -1 ≤ l / 2 ^ r.toNat := Int.le_ediv_of_mul_le hpos (by omega)
        omega
      case isFalse h => exact ediv_eq_zero_of_lt (by omega) (by omega)
    rw [if_pos hlarge, hvalue]
  · rw [if_neg hlarge]

/-- For all integer types of at most 64 bits and all their values, each operation returns whether
its exact result exists and fits, and stores it if so. -/
theorem safeIntOps_law (t u v : IntType) (ht : AtMost64 t) (hu : AtMost64 u) (hv : AtMost64 v)
    (l r shift : Int)
    (hl : t.Fits l) (hr : u.Fits r) (result : Int) : Law v True (l + r) (safeAdd v l r result) ∧
    Law v True (l - r) (safeSubtract v l r result) ∧ Law v True (l * r)
    (safeMultiply v l r result) ∧ Law v (r ≠ 0) (l.tdiv r) (safeDivide v l r result) ∧
    Law v (r ≠ 0) (l.tmod r) (safeModulo v l r result) ∧
    Law v (0 ≤ shift) (l * 2 ^ shift.toNat) (safeLeftShift v l shift result) ∧
    Law v (0 ≤ shift) (l / 2 ^ shift.toNat) (safeRightShift t v l shift result) :=
  have ⟨hl0, hl1⟩ := ht.bounds hl
  have ⟨hr0, hr1⟩ := hu.bounds hr
  ⟨safeAdd_law hv hl0 hl1 hr0 hr1 result, safeSubtract_law hv hl0 hl1 hr0 hr1 result,
    safeMultiply_law hv hl0 hl1 hr0 hr1 result, safeDivide_law hv hl0 hl1 hr0 hr1 result,
    safeModulo_law hv hl0 hl1 hr0 hr1 result, safeLeftShift_eq ht hv.1 hl shift result ▸
      converted_law result hv.1 fun h => ⟨fun hmade => hmade.1, fun hd => ⟨hd, hv.bounds h⟩⟩,
    safeRightShift_eq ht hv.1 hl shift result ▸ converted_law result hv.1 fun _ => Iff.rfl⟩

/-- The product of the least 64-bit number and -1, into an unsigned type where it fits. -/
theorem safeIntOps_law_least :
    Law uint64 True (2 ^ 63) (safeMultiply uint64 (-2 ^ 63) (-1) 0) ∧ uint64.Fits (2 ^ 63) :=
  ⟨(safeIntOps_law int64 int64 uint64 ⟨by decide, by decide⟩ ⟨by decide, by decide⟩
    ⟨by decide, by decide⟩
    (-2 ^ 63) (-1) 0 (by decide) (by decide) 0).2.2.1, by decide⟩

/-! ## Failed calls -/

/-- A call that fails leaves `*result` as it was. -/
def Keeps (result : Int) (outcome : Option (Bool × Int)) : Prop :=
  ∀ stored, outcome = some (false, stored) → stored = result

section

variable {result : Int}

theorem keeps_same : Keeps result (some (false, result)) := by
  rintro stored ⟨⟩
  rfl

/-- An assignment keeps the result if it fails. -/
theorem keeps_assign (value : Int) : Keeps result (some (assign v value result)) := by
  rw [assign]
  split_ifs <;> rintro stored ⟨⟩ <;> rfl

/-- Division and remainder keep the result if they fail. -/
theorem keeps_quotient {f : Int × Int → Int} : Keeps result (if r = 0 then some (false, result)
      else (divideModuloHelper l r).bind fun q => some (assign v (f q) result)) := by
  split
  · exact keeps_same
  · cases divideModuloHelper l r with
    | none => exact fun stored h => nomatch h
    | some q => exact keeps_assign (f q)

/-- A shift that is made stores a converted value even if it fails. -/
theorem keeps_converted {made : Prop} [Decidable made] :
    Keeps result (some (converted v made x result)) ↔ (made → ¬ v.Fits x → v.cast x = result) := by
  rw [converted]
  by_cases hmade : made
  · by_cases hfits : v.Fits x <;> simp [Keeps, hmade, hfits]
  · simp [Keeps, hmade]

end

/-- A failed call leaves `*result` as it was, unless it is a shift whose value is computed and then
converted to a type that cannot hold it: `LosslessConvert` stores the cast before it looks at it. -/
theorem safeIntOps_keep_iff (t v : IntType) (ht : AtMost64 t) (hv : AtMost64 v) (l r shift : Int)
    (hl : t.Fits l) (result : Int) : (Keeps result (safeAdd v l r result) ∧
      Keeps result (safeSubtract v l r result) ∧ Keeps result (safeMultiply v l r result) ∧
      Keeps result (safeDivide v l r result) ∧ Keeps result (safeModulo v l r result) ∧
      Keeps result (safeLeftShift v l shift result) ∧
        Keeps result (safeRightShift t v l shift result)) ↔
    (0 ≤ shift ∧ -2 ^ 63 ≤ l * 2 ^ shift.toNat ∧ l * 2 ^ shift.toNat < 2 ^ 64 →
      ¬ v.Fits (l * 2 ^ shift.toNat) → v.cast (l * 2 ^ shift.toNat) = result) ∧
    (0 ≤ shift → ¬ v.Fits (l / 2 ^ shift.toNat) → v.cast (l / 2 ^ shift.toNat) = result) := by
  rw [safeLeftShift_eq ht hv.1 hl, safeRightShift_eq ht hv.1 hl, keeps_converted, keeps_converted]
  constructor
  · rintro ⟨-, -, -, -, -, hshifts⟩
    exact hshifts
  · exact fun hshifts => ⟨keeps_assign _, keeps_assign _, keeps_assign _,
      keeps_quotient (f := Prod.fst), keeps_quotient (f := Prod.snd), hshifts⟩

/-- The value 1000 does not fit eight bits, and its low byte replaces what was stored. -/
theorem safeRightShift_stores_cast :
    safeRightShift ⟨32, true⟩ ⟨8, true⟩ 1000 0 7 = some (false, -24) ∧
      ¬ Keeps 7 (safeRightShift ⟨32, true⟩ ⟨8, true⟩ 1000 0 7) :=
  ⟨by decide, fun h => absurd (h (-24) (by decide)) (by decide)⟩

/-- A negative shift fails without a conversion. -/
theorem safeIntOps_keep_iff_negative : Keeps 7 (safeRightShift ⟨32, true⟩ ⟨8, true⟩ 1000 (-1) 7) :=
  ((safeIntOps_keep_iff ⟨32, true⟩ ⟨8, true⟩ ⟨by decide, by decide⟩ ⟨by decide, by decide⟩ 1000 0
    (-1) (by decide) 7).mpr
    ⟨fun h => absurd h.1 (by decide), fun h => absurd h (by decide)⟩).2.2.2.2.2.2

end Gloop.IntOps
