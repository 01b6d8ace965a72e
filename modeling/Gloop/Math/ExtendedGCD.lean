import Gloop.Foundation.IntType
import Gloop.Foundation.Iterate
import Mathlib.Tactic.Linarith
import Mathlib.Tactic.Ring

/-!
# `MathUtil::ExtendedGCD`

Euclid's algorithm with the coefficients of both remainders. The coefficients of one operand form a
column of their own: their signs alternate, and the magnitudes, weighted with the remainders, always
add up to the other operand. This bounds every intermediate result, and the last quotient, which is
at least two, halves the bound for the results.
-/

namespace Gloop.Math

open Gloop.Foundation Nat BitVec

/-! ## The model -/

namespace ExtendedGCD

def int : IntType := ⟨32, true⟩

def int64 : IntType := ⟨64, true⟩

/-- The variables of the loop. -/
structure State where
  x : BitVec 32
  y : BitVec 32
  localA : Int
  localB : Int
  c : Int
  d : Int

/-- The new value of `c` (or `d`): `local_a - quot * c`. -/
def reduce (quot localA c : Int) : Option Int := do
  int64.check (localA - (← int64.check (quot * c)))

/-- One round of the loop. -/
def step (s : State) : Option (State ⊕ State) :=
  if s.y = 0 then some (.inr s) else do
    let quot := (s.x / s.y).toNat
    let rem := s.x % s.y
    let c ← reduce quot s.localA s.c
    let d ← reduce quot s.localB s.d
    return .inl ⟨s.y, rem, s.c, s.d, c, d⟩

end ExtendedGCD

open ExtendedGCD

/-- `ExtendedGCD(x, y, a, b)`: the result, `*a` and `*b`. -/
def extendedGCD (x y : BitVec 32) : Option (BitVec 32 × Int × Int) := do
  let s ← iterate step ⟨x, y, 1, 0, 0, 1⟩
  guard (int.Fits s.localA)
  guard (int.Fits s.localB)
  return (s.x, int.cast s.localA, int.cast s.localB)

/-! ## One column of coefficients -/

namespace ExtendedGCD

/-- The coefficients `u` of `x` and `v` of `y` have the magnitudes `p` and `q` and opposite signs.
Once a round has been made `y` is smaller than `x`. -/
def Column (sign u v : Int) (x y total : Nat) : Prop :=
  ∃ p q : Nat, u = sign * p ∧ v = -(sign * q) ∧ p * y + q * x = total ∧ (y < x ∨ q ≤ 1) ∧
    (y = 0 → p < 2 ^ 31)

variable {sign u v : Int} {x y total : Nat}

/-- A magnitude that fits the width without the sign fits the type. -/
theorem fits_of_natAbs_lt {n : Nat} {i : Int} (h : i.natAbs < 2 ^ n) :
    IntType.Fits ⟨n + 1, true⟩ i := by
  have hpow : ((2 ^ n : Nat) : Int) = 2 ^ n := Int.natCast_pow 2 n
  show -2 ^ n ≤ i ∧ i ≤ 2 ^ n - 1
  omega

/-- A round keeps the column, with the other sign, and computes it without overflow. -/
theorem Column.reduce (h : Column sign u v x y total) (hsign : sign.natAbs = 1) (hy : 0 < y)
    (htotal : total < 2 ^ 32) : ExtendedGCD.reduce (x / y : Nat) u v =
      some (u - (x / y : Nat) * v) ∧ Column (-sign) v (u - (x / y : Nat) * v) y (x % y) total := by
  obtain ⟨p, q, rfl, rfl, hsum, hstart, -⟩ := h
  have hrem := mod_lt x hy
  have hdiv := div_add_mod x y
  generalize x / y = quot at *
  generalize x % y = rem at *
  subst hdiv
  have hkeep : q * rem + (p + quot * q) * y = total := by
    rw [← hsum]
    ring
  have hle : p + quot * q ≤ total :=
    calc p + quot * q ≤ (p + quot * q) * y := Nat.le_mul_of_pos_right _ hy
      _ ≤ total := hkeep ▸ le_add_left _ _
  have hproduct : (quot * -(sign * q) : Int).natAbs = quot * q := by
    simp [Int.natAbs_mul, hsign]
  have hdifference : sign * p - quot * -(sign * q) = sign * (p + quot * q : Nat) := by
    push_cast
    ring
  rw [hdifference]
  refine ⟨?_, q, p + quot * q, by ring, by ring, hkeep, .inl hrem, fun hzero => ?_⟩
  · have hfits : int64.Fits (quot * -(sign * q)) := fits_of_natAbs_lt (by omega)
    have hfits' : int64.Fits (sign * (p + quot * q : Nat)) := fits_of_natAbs_lt (by
      rw [Int.natAbs_mul, hsign, Int.natAbs_natCast]
      omega)
    rw [ExtendedGCD.reduce, IntType.check_eq hfits, Option.bind_eq_bind, Option.bind_some,
      hdifference, IntType.check_eq hfits']
  · -- the last remainder is zero: the quotient is at least two unless this is the first round
    rcases hstart with hlt | hfirst
    · have htwo : 2 ≤ quot := by
        by_contra hsmall
        have hone := mul_le_mul_left y (show quot ≤ 1 by omega)
        omega
      have := mul_le_mul_right q htwo
      omega
    · omega

/-- The coefficients of a column are within `int`. -/
theorem Column.fits (h : Column sign u v x 0 total) (hsign : sign.natAbs = 1) : int.Fits u := by
  obtain ⟨p, q, rfl, -, -, -, hsmall⟩ := h
  refine fits_of_natAbs_lt ?_
  rw [Int.natAbs_mul, hsign, Int.natAbs_natCast, one_mul]
  exact hsmall rfl

end ExtendedGCD

/-! ## The loop -/

/-- The state of a run on `x` and `y`: what the comment of the loop says, the two columns, and the
divisors. -/
structure ExtendedGCD.Reached (x y : BitVec 32) (s : State) : Prop where
  current_x : s.localA * x.toNat + s.localB * y.toNat = s.x.toNat
  current_y : s.c * x.toNat + s.d * y.toNat = s.y.toNat
  columns : ∃ sign : Int, sign.natAbs = 1 ∧ Column sign s.localA s.c s.x.toNat s.y.toNat y.toNat ∧
    Column (-sign) s.localB s.d s.x.toNat s.y.toNat x.toNat
  gcd : s.x.toNat.gcd s.y.toNat = x.toNat.gcd y.toNat

/-- A round makes no overflow, keeps the invariant and decreases `y`. -/
theorem ExtendedGCD.Reached.step {x y : BitVec 32} {s : State} (h : Reached x y s) (hy : s.y ≠ 0) :
    ∃ next, ExtendedGCD.step s = some (.inl next) ∧ Reached x y next ∧
      next.y.toNat < s.y.toNat := by
  obtain ⟨sign, hsign, ha, hb⟩ := h.columns
  have hpos : 0 < s.y.toNat := pos_of_ne_zero fun hzero => hy (eq_of_toNat_eq hzero)
  obtain ⟨hc, hcolumn⟩ := ha.reduce hsign hpos y.isLt
  obtain ⟨hd, hcolumn'⟩ := hb.reduce (by rwa [Int.natAbs_neg]) hpos x.isLt
  refine ⟨⟨s.y, s.x % s.y, s.c, s.d, _, _⟩, ?_,
    ⟨h.current_y, ?_, ⟨-sign, by rwa [Int.natAbs_neg], hcolumn, hcolumn'⟩, ?_⟩, mod_lt _ hpos⟩
  · simp only [ExtendedGCD.step, if_neg hy, toNat_udiv, hc, hd, Option.bind_eq_bind,
      Option.bind_some]
    rfl
  · have hdiv : ((s.y.toNat * (s.x.toNat / s.y.toNat) + s.x.toNat % s.y.toNat : Nat) :
      Int) = s.x.toNat :=
      congrArg _ (div_add_mod _ _)
    rw [Int.natCast_add, Int.natCast_mul, ← h.current_x, ← h.current_y] at hdiv
    rw [toNat_umod]
    linarith
  · rw [← h.gcd, BitVec.toNat_umod, Nat.gcd_comm, ← Nat.gcd_rec, Nat.gcd_comm]

/-- `ExtendedGCD` returns the greatest common divisor with coefficients that fit an `int`, and no
operation on the way overflows. -/
theorem extendedGCD_bezout (x y : BitVec 32) : ∃ g a b, extendedGCD x y = some (g, a, b) ∧
    g.toNat = x.toNat.gcd y.toNat ∧ int.Fits a ∧ int.Fits b ∧
      a * x.toNat + b * y.toNat = x.toNat.gcd y.toNat := by
  have hinit : Reached x y ⟨x, y, 1, 0, 0, 1⟩ :=
    ⟨by simp, by simp, ⟨1, rfl, ⟨1, 0, by simp⟩, ⟨0, 1, by simp⟩⟩, rfl⟩
  obtain ⟨s, hrun, hreached, hzero⟩ : ∃ s, iterate step ⟨x, y, 1, 0, 0, 1⟩ = some s ∧
    Reached x y s ∧ s.y = 0 := by
    refine iterate_total (Reached x y) _ (fun s => s.y.toNat) (fun s hs => ?_) hinit
    by_cases hy : s.y = 0
    · exact .inr ⟨s, if_pos hy, hs, hy⟩
    · exact .inl (hs.step hy)
  obtain ⟨sign, hsign, ha, hb⟩ := hreached.columns
  have hgcd := hreached.gcd
  rw [hzero] at ha hb hgcd
  replace hgcd : s.x.toNat = _ := (Nat.gcd_zero_right _).symm.trans hgcd
  have hfitsA := ha.fits hsign
  have hfitsB := hb.fits (by rwa [Int.natAbs_neg])
  refine ⟨s.x, s.localA, s.localB, ?_, hgcd, hfitsA, hfitsB, ?_⟩
  · rw [extendedGCD, hrun, Option.bind_eq_bind, Option.bind_some, Option.bind_eq_bind,
      guard_bind hfitsA, guard_bind hfitsB, IntType.cast_eq_self (by decide) hfitsA,
        IntType.cast_eq_self (by decide) hfitsB]
    rfl
  · rw [hreached.current_x, hgcd]

end Gloop.Math
