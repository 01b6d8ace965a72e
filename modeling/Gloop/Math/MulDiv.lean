import Gloop.Foundation.Division
import Gloop.Foundation.IntType
import Gloop.Foundation.Iterate
import Mathlib.Algebra.Order.Ring.Int

/-!
# `MathUtil::MulDiv`

`MulDiv(a, b, d)` is the quotient and the remainder of `a * b` by `d`, also where the product does
not fit the type. Every operation of the type is checked: it is `none` if its result is out of
range, and so is a failed `DCHECK`.
-/

namespace Gloop.Math

open Gloop.Foundation Option Int
open Int (ediv_nonneg)

/-! ## The model -/

/-- `DivisionResult<IntegralType>`. -/
structure DivisionResult where
  quotient : Int
  remainder : Int

/-- `CeilOrFloorOfRatio<IntegralType, ceil>(numerator, denominator)`. -/
def ceilOrFloorOfRatio (t : IntType) (ceil : Bool) (numerator denominator : Int) : Option Int := do
  guard (denominator ≠ 0)
  guard (!t.signed ∨ numerator ≠ t.min ∨ denominator ≠ -1)
  let roundedTowardZero ← t.check (numerator.tdiv denominator)
  let needsRound := numerator.tmod denominator ≠ 0
  let sameSign := (numerator ≥ 0) = (denominator ≥ 0)
  if ceil then t.check (roundedTowardZero + if sameSign ∧ needsRound then 1 else 0)
  else t.check (roundedTowardZero - if ¬ sameSign ∧ needsRound then 1 else 0)

/-- `CeilOfRatio(numerator, denominator)`. -/
def ceilOfRatio (t : IntType) (numerator denominator : Int) : Option Int :=
  ceilOrFloorOfRatio t true numerator denominator

/-- `CanSquare(x)`. -/
def canSquare (t : IntType) (x : Int) : Bool :=
  t.Fits (x * x)

/-- `MulDiv_SmallK(k, n, d)`. -/
def mulDivSmallK (t : IntType) (k n d : Int) : Option DivisionResult := do
  guard (k > 0)
  guard (k ≤ n)
  guard (d > 0)
  guard (canSquare t (← t.check (k - 1)))
  let d' ← ceilOfRatio t d k
  let p' ← t.check (n.tdiv d')
  let r' ← t.check (n.tmod d')
  let quotient := p'
  -- p' * (k - (d - k * (d' - 1)))
  let s ← t.check (d' - 1)
  let s ← t.check (k * s)
  let s ← t.check (d - s)
  let s ← t.check (k - s)
  let t1 ← t.check (p' * s)
  let quotient ← t.check (quotient + t1.tdiv d)
  let r1 := t1.tmod d
  let t2 ← t.check (k * r')
  let quotient ← t.check (quotient + t2.tdiv d)
  let r2 := t2.tmod d
  let rest ← t.check (d - r2)
  if r1 < rest then do
    let remainder ← t.check (r1 + r2)
    some ⟨quotient, remainder⟩
  else do
    let quotient ← t.check (quotient + 1)
    let remainder ← t.check (r1 - rest)
    some ⟨quotient, remainder⟩

/-- The doubling of `k` in `MulDiv_LargeK`: `[q, r]` is added into itself. -/
def doubleResult (t : IntType) (d : Int) (result : DivisionResult) : Option DivisionResult := do
  let quotient ← t.check (result.quotient * 2)
  let rest ← t.check (d - result.remainder)
  if result.remainder ≥ rest then do
    let remainder ← t.check (result.remainder - rest)
    let quotient ← t.check (quotient + 1)
    some ⟨quotient, remainder⟩
  else do
    let remainder ← t.check (result.remainder * 2)
    some ⟨quotient, remainder⟩

/-- The increment of `k` in `MulDiv_LargeK`: `[0, n]` is added into `[q, r]`. -/
def addToResult (t : IntType) (n d : Int) (result : DivisionResult) : Option DivisionResult := do
  let rest ← t.check (d - n)
  if result.remainder ≥ rest then do
    let remainder ← t.check (result.remainder - rest)
    let quotient ← t.check (result.quotient + 1)
    some ⟨quotient, remainder⟩
  else do
    let remainder ← t.check (result.remainder + n)
    some ⟨result.quotient, remainder⟩

mutual

/-- `MulDiv_Optimal(k, n, d)`, with `__builtin_mul_overflow`. -/
def mulDivOptimal (t : IntType) (k n d : Int) : Option DivisionResult := do
  guard (k > 0)
  guard (k ≤ n)
  guard (d > 0)
  if t.Fits (k * n) then some ⟨(k * n).tdiv d, (k * n).tmod d⟩
  else if canSquare t (k - 1) then mulDivSmallK t k n d
  else mulDivLargeK t k n d
termination_by (k.toNat, 1)

/-- `MulDiv_LargeK(k, n, d)`. Its first check bounds the recursion. -/
def mulDivLargeK (t : IntType) (k n d : Int) : Option DivisionResult :=
  if hk : k > 0 then do
    guard (k ≤ n)
    guard (d > 0)
    if k = 1 then some ⟨0, n⟩
    else
      let result ← mulDivOptimal t (k / 2) n d
      let result ← doubleResult t d result
      if k % 2 ≠ 0 then addToResult t n d result else some result
  else none
termination_by (k.toNat, 0)

end

/-- `MulDiv(a, b, d)`. -/
def mulDiv (t : IntType) (a b d : Int) : Option DivisionResult := do
  guard (d ≠ 0)
  guard (0 < d)
  guard (0 ≤ a)
  guard (0 ≤ b)
  let q ← t.check (b * a.tdiv d)
  let a := a.tmod d
  let q ← t.check (q + (← t.check (a * b.tdiv d)))
  let b := b.tmod d
  let k := min a b
  if k = 0 then some ⟨q, 0⟩
  else do
    let n := max a b
    let result ← mulDivOptimal t k n d
    let quotient ← t.check (result.quotient + q)
    some ⟨quotient, result.remainder⟩

/-- `CeilOrFloorOfScaledRatio<IntegralType, ceil>(numerator, denominator, scale_factor)`. -/
def ceilOrFloorOfScaledRatio (t : IntType) (ceil : Bool) (numerator denominator scaleFactor : Int) :
    Option Int := do
  let result ← mulDiv t scaleFactor numerator denominator
  if ceil then t.check (result.quotient + if result.remainder > 0 then 1 else 0)
  else some result.quotient

/-- `CeilOfScaledRatio(numerator, denominator, scale_factor)`. -/
def ceilOfScaledRatio (t : IntType) (numerator denominator scaleFactor : Int) : Option Int :=
  ceilOrFloorOfScaledRatio t true numerator denominator scaleFactor

/-- `FloorOfScaledRatio(numerator, denominator, scale_factor)`. -/
def floorOfScaledRatio (t : IntType) (numerator denominator scaleFactor : Int) : Option Int :=
  ceilOrFloorOfScaledRatio t false numerator denominator scaleFactor

/-! ## Quotients and remainders -/

variable {t : IntType} {k n d x q r : Int}

/-- The division of `x` by `d`. -/
structure IsDivision (d x q r : Int) : Prop where
  eq : x = d * q + r
  nonneg : 0 ≤ r
  lt : r < d

/-- Quotient and remainder of integers are a division. -/
theorem isDivision_div (hd : 0 < d) (x : Int) : IsDivision d x (x / d) (x % d) :=
  ⟨(mul_ediv_add_emod x d).symm, emod_nonneg x hd.ne', emod_lt_of_pos x hd⟩

namespace IsDivision

variable (hd : 0 < d) (h : IsDivision d x q r)
include hd h

/-- Quotient and remainder are determined. -/
theorem unique : q = x / d ∧ r = x % d := by
  have hsum : r + d * q = x := by
    rw [h.eq, add_comm]
  obtain ⟨hq, hr⟩ := (Int.ediv_emod_unique hd).mpr ⟨hsum, h.nonneg, h.lt⟩
  exact ⟨hq.symm, hr.symm⟩

theorem quotient_nonneg (hx : 0 ≤ x) : 0 ≤ q := by
  rw [(h.unique hd).1]
  exact ediv_nonneg hx hd.le

/-- A dividend below `d * d` has a quotient below `d`. -/
theorem quotient_lt (hx : x < d * d) : q < d := by
  rw [(h.unique hd).1]
  exact Int.ediv_lt_of_lt_mul hd hx

/-- `[q, r]` is added into itself. -/
theorem double (hfits : t.Fits d) (hx : 0 ≤ x) (hlt : x * 2 < d * d) :
    ∃ q' r', doubleResult t d ⟨q, r⟩ = some ⟨q', r'⟩ ∧ IsDivision d (x * 2) q' r' := by
  have hq := h.quotient_nonneg hd hx
  have hr := h.nonneg
  have hrd := h.lt
  have hsum : x * 2 = d * (q * 2) + r * 2 := by
    rw [h.eq, add_mul, mul_assoc]
  rw [doubleResult]
  simp only [bind_eq_bind]
  by_cases hcarry : r ≥ d - r
  · have hdivision : IsDivision d (x * 2) (q * 2 + 1) (r - (d - r)) := by
      refine ⟨?_, by omega, by omega⟩
      rw [hsum, mul_add]
      omega
    have hqlt := hdivision.quotient_lt hd hlt
    refine ⟨_, _, ?_, hdivision⟩
    simp (disch := omega) only [hfits.check_bind, if_pos hcarry]
  · have hdivision : IsDivision d (x * 2) (q * 2) (r * 2) := ⟨hsum, by omega, by omega⟩
    have hqlt := hdivision.quotient_lt hd hlt
    refine ⟨_, _, ?_, hdivision⟩
    simp (disch := omega) only [hfits.check_bind, if_neg hcarry]

/-- `[0, n]` is added into `[q, r]`. -/
theorem add (hfits : t.Fits d) (hx : 0 ≤ x) (hn : 0 ≤ n) (hnd : n < d) (hlt : x + n < d * d) :
    ∃ q' r', addToResult t n d ⟨q, r⟩ = some ⟨q', r'⟩ ∧ IsDivision d (x + n) q' r' := by
  have hq := h.quotient_nonneg hd hx
  have hr := h.nonneg
  have hrd := h.lt
  have heq := h.eq
  rw [addToResult]
  simp only [bind_eq_bind]
  by_cases hcarry : r ≥ d - n
  · have hdivision : IsDivision d (x + n) (q + 1) (r - (d - n)) := by
      refine ⟨?_, by omega, by omega⟩
      rw [heq, mul_add]
      omega
    have hqlt := hdivision.quotient_lt hd hlt
    refine ⟨_, _, ?_, hdivision⟩
    simp (disch := omega) only [hfits.check_bind, if_pos hcarry]
  · have hdivision : IsDivision d (x + n) q (r + n) := ⟨by omega, by omega, by omega⟩
    refine ⟨_, _, ?_, hdivision⟩
    simp (disch := omega) only [hfits.check_bind, if_neg hcarry]

end IsDivision

/-! ## Small `k` -/

theorem ceilOfRatio_eq (hd : 0 < d) (hfits : t.Fits d) (hk : 0 < k) :
    ∃ c, ceilOfRatio t d k = some c ∧ 1 ≤ c ∧ c ≤ d ∧ k * (c - 1) < d ∧ d ≤ k * c := by
  have hdivision := isDivision_div hk d
  have hq0 : 0 ≤ d / k := ediv_nonneg hd.le hk.le
  have hqd : d / k ≤ d := ediv_le_self k hd.le
  have heq := hdivision.eq
  have hr := hdivision.nonneg
  have hrk := hdivision.lt
  have hsigned : (!t.signed) = true ∨ d ≠ t.min ∨ k ≠ -1 := .inr (.inr (by omega))
  have hsame : (d ≥ 0) = (k ≥ 0) := propext ⟨fun _ => hk.le, fun _ => hd.le⟩
  rw [ceilOfRatio, ceilOrFloorOfRatio, tdiv_eq_ediv_of_nonneg hd.le, tmod_eq_emod_of_nonneg hd.le]
  simp only [bind_eq_bind]
  rw [guard_bind hk.ne', guard_bind hsigned, hfits.check_bind hq0 hqd, if_pos trivial]
  by_cases hround : d % k = 0
  · rw [if_neg (fun h => h.2 hround)]
    refine ⟨d / k, ?_, ?_, hqd, ?_, ?_⟩
    · rw [add_zero, IntType.check_eq (hfits.of_le hq0 hqd)]
    · by_contra hlt
      have hzero : d / k = 0 := by omega
      rw [hzero] at heq
      omega
    · rw [mul_sub]
      omega
    · omega
  · have hlt : d / k < d := by
      by_contra hge
      have hmul : d * 1 ≤ d * k := Int.mul_le_mul_of_nonneg_left (by omega) hd.le
      have hsame' : d / k = d := by omega
      rw [hsame', mul_comm] at heq
      omega
    rw [if_pos ⟨hsame, hround⟩]
    refine ⟨d / k + 1, ?_, by omega, by omega, ?_, ?_⟩
    · rw [IntType.check_eq (hfits.of_le (by omega) (by omega))]
    · rw [Int.add_sub_cancel]
      omega
    · rw [mul_add]
      omega

/-- `MulDiv_SmallK` does not overflow if the square of `k - 1` fits. -/
theorem mulDivSmallK_eq (hk : 0 < k) (hkn : k ≤ n) (hnd : n < d) (hfits : t.Fits d)
    (hsquare : t.Fits ((k - 1) * (k - 1))) :
    ∃ q r, mulDivSmallK t k n d = some ⟨q, r⟩ ∧ IsDivision d (k * n) q r := by
  have hd : 0 < d := by omega
  have hn : 0 ≤ n := by omega
  obtain ⟨c, hceil, hc1, hcd, hbelow, habove⟩ := ceilOfRatio_eq hd hfits hk
  have hc : 0 < c := by omega
  -- the first approximation: n = c * p + r
  obtain ⟨heq, hr, hrc⟩ := isDivision_div hc n
  generalize hp : n / c = p at heq
  generalize hr' : n % c = r at heq hr hrc
  have hp0 : 0 ≤ p := hp ▸ ediv_nonneg hn hc.le
  have hpk : p < k := by
    rw [← hp]
    exact Int.ediv_lt_of_lt_mul hc (by omega)
  -- s = k * c - d, without the product that may not fit
  have hs : k - (d - k * (c - 1)) = k * c - d := by
    rw [Int.mul_sub]
    omega
  have hs0 : 0 ≤ k * c - d := by omega
  have hsk : k * c - d ≤ k - 1 := by
    rw [Int.mul_sub] at hbelow
    omega
  have hkc0 : 0 ≤ k * (c - 1) := mul_nonneg hk.le (by omega)
  generalize hs' : k * c - d = s at *
  have hps0 : 0 ≤ p * s := mul_nonneg hp0 hs0
  have hpsk : p * s ≤ (k - 1) * (k - 1) := Int.mul_le_mul (by omega) hsk hs0 (by omega)
  have hkr0 : 0 ≤ k * r := mul_nonneg hk.le hr
  have hkrd : k * r < d :=
    Int.lt_of_le_of_lt (Int.mul_le_mul_of_nonneg_left (by omega) hk.le) hbelow
  have hsum : k * n = d * p + (p * s + k * r) :=
    calc k * n = p * (k * c) + k * r := by rw [heq]; ring
      _ = p * (d + s) + k * r := by rw [show k * c = d + s by omega]
      _ = d * p + (p * s + k * r) := by ring
  -- the two corrections
  obtain ⟨heq1, hr1, hr1d⟩ := isDivision_div hd (p * s)
  have hq1 : 0 ≤ p * s / d := ediv_nonneg hps0 hd.le
  have hq2 : k * r / d = 0 := ediv_eq_zero_of_lt hkr0 hkrd
  have hr2 : k * r % d = k * r := emod_eq_of_lt hkr0 hkrd
  have hless : k * n < d * d := Int.mul_lt_mul (by omega) (by omega) (by omega) hd.le
  have hcan : canSquare t (k - 1) = true := decide_eq_true hsquare
  have hcarry : if p * s % d < d - k * r then IsDivision d (k * n) (p + p * s / d + 0)
    (p * s % d + k * r)
      else IsDivision d (k * n) (p + p * s / d + 0 + 1) (p * s % d - (d - k * r)) := by
    split
    case isTrue hlt =>
      refine ⟨?_, by omega, by omega⟩
      rw [hsum, add_zero, mul_add]
      omega
    case isFalse hge =>
      refine ⟨?_, by omega, by omega⟩
      rw [hsum, add_zero, mul_add, mul_add]
      omega
  rw [mulDivSmallK]
  simp only [bind_eq_bind]
  rw [guard_bind hk, guard_bind hkn, guard_bind hd, hfits.check_bind (by omega) (by omega),
    guard_bind hcan, hceil, bind_some, tdiv_eq_ediv_of_nonneg hn, tmod_eq_emod_of_nonneg hn, hp,
    hr', hfits.check_bind hp0 (by omega), hfits.check_bind hr (by omega),
    hfits.check_bind (by omega) (by omega), hfits.check_bind hkc0 hbelow.le,
    hfits.check_bind (by omega) (by omega), hs, hfits.check_bind hs0 (by omega),
    hsquare.check_bind hps0 hpsk, tdiv_eq_ediv_of_nonneg hps0, tmod_eq_emod_of_nonneg hps0]
  have hquotient : p + p * s / d + 0 < d := by
    split at hcarry
    case isTrue => exact hcarry.quotient_lt hd hless
    case isFalse =>
      have := hcarry.quotient_lt hd hless
      omega
  simp (disch := omega) only [hfits.check_bind, tdiv_eq_ediv_of_nonneg, tmod_eq_emod_of_nonneg, hq2,
    hr2]
  by_cases hlt : p * s % d < d - k * r
  · rw [if_pos hlt] at hcarry
    refine ⟨_, _, ?_, hcarry⟩
    rw [if_pos hlt]
  · rw [if_neg hlt] at hcarry
    refine ⟨_, _, ?_, hcarry⟩
    rw [if_neg hlt]

/-! ## The whole -/

/-- `MulDiv_Optimal` finds quotient and remainder without overflow. The induction is on `k`. -/
theorem mulDivOptimal_eq (hk : 0 < k) (hkn : k ≤ n) (hnd : n < d) (hfits : t.Fits d) :
    ∃ q r, mulDivOptimal t k n d = some ⟨q, r⟩ ∧ IsDivision d (k * n) q r := by
  have hd : 0 < d := by omega
  have hn : 0 ≤ n := by omega
  -- `k` is halved with each turn
  induction hm : k.toNat using Nat.strongRecOn generalizing k with
  | ind m ih =>
    have hkn0 : 0 ≤ k * n := mul_nonneg hk.le hn
    rw [mulDivOptimal]
    simp only [bind_eq_bind]
    rw [guard_bind hk, guard_bind hkn, guard_bind hd]
    by_cases hproduct : t.Fits (k * n)
    · refine ⟨k * n / d, k * n % d, ?_, isDivision_div hd _⟩
      rw [if_pos hproduct, tdiv_eq_ediv_of_nonneg hkn0, tmod_eq_emod_of_nonneg hkn0]
    rw [if_neg hproduct]
    by_cases hsquare : t.Fits ((k - 1) * (k - 1))
    · have hcan : canSquare t (k - 1) = true := decide_eq_true hsquare
      rw [if_pos hcan]
      exact mulDivSmallK_eq hk hkn hnd hfits hsquare
    have hcan : ¬ canSquare t (k - 1) = true := by simpa [canSquare] using hsquare
    rw [if_neg hcan, mulDivLargeK, dif_pos hk]
    simp only [bind_eq_bind]
    rw [guard_bind hkn, guard_bind hd]
    by_cases hone : k = 1
    · subst hone
      exact ⟨0, n, if_pos rfl, by omega, hn, hnd⟩
    rw [if_neg hone]
    obtain ⟨q, r, hrun, hdivision⟩ := ih (k / 2).toNat (by omega) (by omega) (by omega) rfl
    have hhalf0 : 0 ≤ k / 2 * n := mul_nonneg (by omega) hn
    have hless : k * n < d * d := Int.mul_lt_mul (by omega) (by omega) (by omega) hd.le
    have hdouble : k / 2 * n * 2 + k % 2 * n = k * n := by
      rw [mul_right_comm, ← add_mul, ediv_mul_add_emod]
    have hodd0 : 0 ≤ k % 2 * n := mul_nonneg (by omega) hn
    obtain ⟨q', r', hrun', hdivision'⟩ := hdivision.double hd hfits hhalf0 (by omega)
    rw [hrun, bind_some, hrun', bind_some]
    by_cases hodd : k % 2 = 0
    · rw [hodd, Int.zero_mul, add_zero] at hdouble
      rw [hdouble] at hdivision'
      exact ⟨q', r', if_neg (fun h => h hodd), hdivision'⟩
    · have hbit : k % 2 = 1 := by omega
      rw [hbit, one_mul] at hdouble
      rw [if_pos hodd, ← hdouble]
      exact hdivision'.add hd hfits (by omega) hn hnd (by omega)

/-- The multiples of `d` are taken out of both factors. -/
theorem mul_eq_reduced (a b d : Int) :
    a * b = d * (b * (a / d) + a % d * (b / d)) + a % d * (b % d) := by
  have ha := mul_ediv_add_emod a d
  have hb := mul_ediv_add_emod b d
  calc a * b = (d * (a / d) + a % d) * b := by rw [ha]
    _ = d * (b * (a / d)) + a % d * b := by ring
    _ = d * (b * (a / d)) + a % d * (d * (b / d) + b % d) := by rw [hb]
    _ = d * (b * (a / d) + a % d * (b / d)) + a % d * (b % d) := by ring

/-- `MulDiv` finds quotient and remainder if the quotient fits. -/
theorem mulDiv_eq {a b : Int} (ha : 0 ≤ a) (hb : 0 ≤ b) (hd : 0 < d) (hfits : t.Fits d)
    (hquotient : t.Fits (a * b / d)) : mulDiv t a b d = some ⟨a * b / d, a * b % d⟩ := by
  have hsplit := mul_eq_reduced a b d
  have hda : 0 ≤ a / d := ediv_nonneg ha hd.le
  have hdb : 0 ≤ b / d := ediv_nonneg hb hd.le
  obtain ⟨-, hma, hmad⟩ := isDivision_div hd a
  obtain ⟨-, hmb, hmbd⟩ := isDivision_div hd b
  have hq1 : 0 ≤ b * (a / d) := mul_nonneg hb hda
  have hq2 : 0 ≤ a % d * (b / d) := mul_nonneg hma hdb
  have hrest : 0 ≤ a % d * (b % d) := mul_nonneg hma hmb
  have hdiv : a * b / d = a % d * (b % d) / d + (b * (a / d) + a % d * (b / d)) := by
    rw [hsplit, add_comm, add_mul_ediv_left _ _ hd.ne']
  have hmod : a * b % d = a % d * (b % d) % d := by
    rw [hsplit, add_comm, add_mul_emod_self_left]
  have hrest' : 0 ≤ a % d * (b % d) / d := ediv_nonneg hrest hd.le
  rw [mulDiv]
  simp only [bind_eq_bind]
  rw [guard_bind hd.ne', guard_bind hd, guard_bind ha, guard_bind hb, tdiv_eq_ediv_of_nonneg ha,
    tmod_eq_emod_of_nonneg ha, tdiv_eq_ediv_of_nonneg hb, tmod_eq_emod_of_nonneg hb]
  simp (disch := omega) only [hquotient.check_bind]
  by_cases hzero : min (a % d) (b % d) = 0
  · have hproduct : a % d * (b % d) = 0 := by
      rw [mul_eq_zero]
      omega
    rw [if_pos hzero, hdiv, hmod, hproduct, zero_ediv, zero_emod, zero_add]
  rw [if_neg hzero]
  -- the smaller remainder is the multiplier, which does not matter for the product
  obtain ⟨q, r, hrun, hdivision⟩ := mulDivOptimal_eq (t := t) (k := min (a % d) (b % d))
    (n := max (a % d) (b % d)) (d := d) (by omega) (by omega) (by omega) hfits
  have hproduct : min (a % d) (b % d) * max (a % d) (b % d) = a % d * (b % d) := by
    obtain hle | hle := le_total (a % d) (b % d)
    · rw [min_eq_left hle, max_eq_right hle]
    · rw [min_eq_right hle, max_eq_left hle, mul_comm]
  rw [hproduct] at hdivision
  obtain ⟨rfl, rfl⟩ := hdivision.unique hd
  rw [hrun, bind_some, ← hdiv, IntType.check_bind hquotient, hmod]

/-- The ceiling of `x / d`. -/
def ceilDiv (x d : Int) : Int :=
  -(-x / d)

theorem ceilDiv_eq (hd : 0 < d) (x : Int) : ceilDiv x d = x / d + if x % d > 0 then 1 else 0 := by
  obtain ⟨heq, hr, hrd⟩ := isDivision_div hd x
  rw [ceilDiv]
  generalize x / d = q at *
  generalize x % d = r at *
  split
  case isTrue hpos =>
    have hdivision : IsDivision d (-x) (-(q + 1)) (d - r) := by
      refine ⟨?_, by omega, by omega⟩
      rw [heq, mul_neg, mul_add]
      omega
    rw [← (hdivision.unique hd).1, neg_neg]
  case isFalse hzero =>
    have hdivision : IsDivision d (-x) (-q) 0 := by
      refine ⟨?_, le_refl 0, hd⟩
      rw [heq, mul_neg]
      omega
    rw [← (hdivision.unique hd).1, neg_neg, add_zero]

/-- Both roundings of a scaled ratio, if the result fits. -/
theorem ratio_eq (ceil : Bool) {a b : Int} (ha : 0 ≤ a) (hb : 0 ≤ b) (hd : 0 < d) (hfits : t.Fits d)
    (hresult : t.Fits (if ceil then ceilDiv (a * b) d else a * b / d)) :
    ceilOrFloorOfScaledRatio t ceil b d a =
      some (if ceil then ceilDiv (a * b) d else a * b / d) := by
  have hnonneg : 0 ≤ a * b / d := ediv_nonneg (mul_nonneg ha hb) hd.le
  have hquotient : t.Fits (a * b / d) := by
    refine hresult.of_le hnonneg ?_
    rw [ceilDiv_eq hd]
    split
    · split <;> omega
    · exact le_refl _
  rw [ceilOrFloorOfScaledRatio, mulDiv_eq ha hb hd hfits hquotient, bind_eq_bind, bind_some]
  cases ceil with
  | false => rfl
  | true =>
    rw [if_pos rfl, ceilDiv_eq hd] at hresult
    rw [if_pos rfl, if_pos rfl, ceilDiv_eq hd]
    exact IntType.check_eq hresult

/-- For every integer type, `MulDiv` returns the quotient and the remainder of the product if the
quotient is a value of the type, and `FloorOfScaledRatio` and `CeilOfScaledRatio` return the floor
and the ceiling if that is a value of the type. No operation on the way overflows. -/
theorem mulDiv_exact (t : IntType) (a b d : Int) (hd : t.Fits d) (ha0 : 0 ≤ a) (hb0 : 0 ≤ b)
    (hd0 : 0 < d) : (t.Fits (a * b / d) → mulDiv t a b d = some ⟨a * b / d, a * b % d⟩) ∧
    (t.Fits (a * b / d) → floorOfScaledRatio t b d a = some (a * b / d)) ∧
    (t.Fits (ceilDiv (a * b) d) → ceilOfScaledRatio t b d a = some (ceilDiv (a * b) d)) :=
  ⟨mulDiv_eq ha0 hb0 hd0 hd, ratio_eq false ha0 hb0 hd0 hd, ratio_eq true ha0 hb0 hd0 hd⟩

/-- In a signed byte, where the product of the factors does not fit. -/
theorem mulDiv_exact_signed_byte : mulDiv ⟨8, true⟩ 100 100 101 = some ⟨99, 1⟩ ∧
      ceilOfScaledRatio ⟨8, true⟩ 100 101 100 = some 100 := by
  have hexact := mulDiv_exact ⟨8, true⟩ 100 100 101 (by decide) (by decide) (by decide) (by decide)
  exact ⟨hexact.1 (by decide), hexact.2.2 (by decide)⟩

end Gloop.Math
