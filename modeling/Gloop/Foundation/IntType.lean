import Mathlib.Algebra.Order.Ring.Int
import Mathlib.Tactic.Common

/-!
# Integer types

The integer types of a machine, of any width and with or without a sign, over the integers. `check`
is an operation that must not leave the range, and `cast` a conversion to the type, which keeps the
low bits.
-/

namespace Gloop.Foundation

open Int

/-- An integer type. -/
structure IntType where
  bits : Nat
  signed : Bool

namespace IntType

/-- The least value of the type. -/
def min (t : IntType) : Int :=
  if t.signed then -2 ^ (t.bits - 1) else 0

/-- The greatest value of the type. -/
def max (t : IntType) : Int :=
  if t.signed then 2 ^ (t.bits - 1) - 1 else 2 ^ t.bits - 1

/-- The number is a value of the type. -/
def Fits (t : IntType) (x : Int) : Prop :=
  t.min ≤ x ∧ x ≤ t.max

instance (t : IntType) (x : Int) : Decidable (t.Fits x) :=
  inferInstanceAs (Decidable (_ ∧ _))

/-- A result of an operation of the type, or `none` if it overflows. -/
def check (t : IntType) (x : Int) : Option Int :=
  if t.Fits x then some x else none

/-- The conversion of a number to the type. -/
def cast (t : IntType) (x : Int) : Int :=
  if t.signed ∧ 2 ^ (t.bits - 1) ≤ x % 2 ^ t.bits then x % 2 ^ t.bits - 2 ^ t.bits
    else x % 2 ^ t.bits

variable {t : IntType} {x y : Int}

theorem min_nonpos (t : IntType) : t.min ≤ 0 := by
  rw [min]
  split
  · have hpos : (0 : Int) < 2 ^ (t.bits - 1) := Int.pow_pos (by omega)
    omega
  · exact Int.le_refl 0

theorem max_nonneg (t : IntType) : 0 ≤ t.max := by
  have hpos : ∀ n : Nat, (0 : Int) < 2 ^ n := fun n => Int.pow_pos (by omega)
  have hsigned := hpos (t.bits - 1)
  have hunsigned := hpos t.bits
  rw [max]
  split <;> omega

/-- A value that fits passes the check. -/
theorem check_eq (h : t.Fits x) : t.check x = some x :=
  if_pos h

/-- A check of a value that fits can be left out. -/
theorem check_bind {β : Type*} (h : t.Fits x) (f : Int → Option β) : (t.check x).bind f = f x := by
  rw [check_eq h, Option.bind_some]

/-- What is between zero and a value of the type is a value too. -/
theorem Fits.of_le (h : t.Fits y) (hx : 0 ≤ x) (hle : x ≤ y) : t.Fits x :=
  ⟨Int.le_trans (min_nonpos t) hx, Int.le_trans hle h.2⟩

/-- A check of a value below one that fits can be left out. -/
theorem Fits.check_bind {β : Type*} (h : t.Fits y) (hx : 0 ≤ x) (hle : x ≤ y) (f : Int → Option β) :
    (t.check x).bind f = f x :=
  IntType.check_bind (h.of_le hx hle) f

/-! ## Conversions -/

theorem two_pow_bits (hbits : 0 < t.bits) : (2 : Int) ^ t.bits = 2 * 2 ^ (t.bits - 1) := by
  obtain ⟨n, hn⟩ : ∃ n, t.bits = n + 1 := ⟨t.bits - 1, by omega⟩
  rw [hn, Nat.add_sub_cancel, Int.pow_succ, Int.mul_comm]

theorem max_lt_two_pow (t : IntType) : t.max < 2 ^ t.bits := by
  have hle := pow_le_pow_right₀ (one_le_two (α := Int)) (Nat.sub_le t.bits 1)
  rw [max]
  split <;> omega

theorem neg_two_pow_le_min (t : IntType) : -2 ^ t.bits ≤ t.min := by
  have hle := pow_le_pow_right₀ (one_le_two (α := Int)) (Nat.sub_le t.bits 1)
  have hpos : (0 : Int) < 2 ^ t.bits := Int.pow_pos (by omega)
  rw [min]
  split <;> omega

/-- A conversion has a value of its type. -/
theorem cast_fits (hbits : 0 < t.bits) (x : Int) : t.Fits (t.cast x) := by
  have hpow := two_pow_bits hbits
  rw [Fits, cast, min, max]
  cases t.signed with
  | false =>
    rw [if_neg (by simp), if_neg (by simp), if_neg (by simp)]
    omega
  | true =>
    rw [if_pos rfl]
    split
    case isTrue h => omega
    case isFalse h =>
      have hsmall : ¬ 2 ^ (t.bits - 1) ≤ x % 2 ^ t.bits := fun hle => h ⟨rfl, hle⟩
      omega

/-- A conversion keeps the value modulo the size of the type. -/
theorem dvd_cast_sub (x : Int) : 2 ^ t.bits ∣ t.cast x - x := by
  have hself : (2 : Int) ^ t.bits ∣ x % 2 ^ t.bits - x := by
    refine ⟨-(x / 2 ^ t.bits), ?_⟩
    have := mul_ediv_add_emod x (2 ^ t.bits)
    rw [Int.mul_neg]
    omega
  rw [cast]
  split
  · have hcomm : x % 2 ^ t.bits - 2 ^ t.bits - x = x % 2 ^ t.bits - x - 2 ^ t.bits := by omega
    rw [hcomm]
    exact Int.dvd_sub hself (Int.dvd_refl _)
  · exact hself

/-- Numbers of one sign that two types hold, and that agree in the bits of the wider one, are the
same. -/
theorem eq_of_dvd_sub {s : IntType} (hs : 0 < s.bits) (ht : 0 < t.bits) (hx : s.Fits x)
    (hy : t.Fits y) (hsign : s.signed ≠ t.signed → (x < 0 ↔ y < 0)) (hdvds : 2 ^ s.bits ∣ x - y)
    (hdvdt : 2 ^ t.bits ∣ x - y) : x = y := by
  have hspow := two_pow_bits hs
  have htpow := two_pow_bits ht
  -- the difference is smaller than one of the two powers
  have hsmall : (x - y).natAbs < (2 ^ s.bits : Int).natAbs ∨
      (x - y).natAbs < (2 ^ t.bits : Int).natAbs := by
    rw [Fits, min, max] at hx hy
    cases hss : s.signed <;> cases hts : t.signed <;>
      simp only [hss, hts, Bool.false_eq_true, if_true, if_false] at hx hy hsign <;>
      simp only [ne_eq, reduceCtorEq, not_false_eq_true, forall_true_left] at hsign <;>
      omega
  have hzero : x - y = 0 := by
    rcases hsmall with hsmall | hsmall
    · exact eq_zero_of_dvd_of_natAbs_lt_natAbs hdvds hsmall
    · exact eq_zero_of_dvd_of_natAbs_lt_natAbs hdvdt hsmall
  omega

/-- A conversion gives the value of the type that has the same low bits. -/
theorem cast_eq_of_dvd (hbits : 0 < t.bits) (hy : t.Fits y) (hdvd : 2 ^ t.bits ∣ x - y) :
    t.cast x = y := by
  have hcast : 2 ^ t.bits ∣ t.cast x - y := by
    have hsum : t.cast x - y = t.cast x - x + (x - y) := by omega
    rw [hsum]
    exact Int.dvd_add (dvd_cast_sub x) hdvd
  exact eq_of_dvd_sub hbits hbits (cast_fits hbits x) hy (fun hne => absurd rfl hne) hcast hcast

/-- A conversion of a value that fits keeps it. -/
theorem cast_eq_self (hbits : 0 < t.bits) (h : t.Fits x) : t.cast x = x := by
  refine cast_eq_of_dvd hbits h ?_
  rw [Int.sub_self]
  exact Int.dvd_zero _

end IntType

end Gloop.Foundation
