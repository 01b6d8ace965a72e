import Gloop.Foundation.Iterate
import Gloop.Foundation.BitString
import Mathlib.Data.List.Induction

/-!
# `PrefixSuccessor` and `FindShortestSeparator` of `strings/util.cc`

Both shorten a string that bounds a range of keys. Strings are compared byte by byte as unsigned
numbers. `Upto p` are the strings before the range of those that start with `p`, and in that range;
`prefixSuccessor` is the string that follows all of them.
-/

namespace Gloop.Strings

open Gloop.Foundation List
open BitVec (lt_def toNat_inj)

/-- A round of the loop of `PrefixSuccessor`. -/
def prefixSuccessorStep (s : List Byte) : Option (List Byte ⊕ List Byte) :=
  match s.getLast? with
  | none => some (.inr s)
  | some c => some (if c = 0xff#8 then .inl s.dropLast else .inr (s.dropLast ++ [c + 1]))

/-- `PrefixSuccessor(prefix)`. -/
def prefixSuccessor (s : List Byte) : Option (List Byte) :=
  iterate prefixSuccessorStep s

/-- The loop of `FindShortestSeparator` over the common characters. -/
def diffIndex : List Byte → List Byte → Nat
  | a :: start, b :: limit => if a = b then diffIndex start limit + 1 else 0
  | _, _ => 0

/-- `FindShortestSeparator(start, limit, separator)`. -/
def findShortestSeparator (start limit : List Byte) : Option (List Byte) :=
  let i := diffIndex start limit
  if min start.length limit.length ≤ i then some start
  else if i + 1 = start.length then some start
  else do
    let c ← start[i]?
    if c = 0xff#8 then pure start
    else
      let separator := start.take i ++ [c + 1]
      pure (if limit ≤ separator then start else separator)

/-! ## Bounds of a range -/

/-- The strings before or in the range of those that start with `p`. -/
def Upto (p t : List Byte) : Prop :=
  t < p ∨ p <+: t

/-- Strings up to a prefix compare by their first bytes. -/
theorem upto_cons_cons {a b : Byte} {p t : List Byte} :
    Upto (a :: p) (b :: t) ↔ b < a ∨ b = a ∧ Upto p t := by
  simp only [Upto, cons_lt_cons_iff, cons_prefix_cons]
  grind

theorem toNat_add_one {c : Byte} (hc : c ≠ 0xff#8) : (c + 1).toNat = c.toNat + 1 := by
  have hlt := c.isLt
  have hne : c.toNat ≠ 255 := fun h => hc (BitVec.eq_of_toNat_eq h)
  rw [BitVec.toNat_add]
  show (c.toNat + 1) % 2 ^ 8 = c.toNat + 1
  omega

/-- The next character bounds the range. -/
theorem lt_append_add_one {c : Byte} (hc : c ≠ 0xff#8) (front : List Byte) :
    ∀ t, t < front ++ [c + 1] ↔ Upto (front ++ [c]) t := by
  induction front with
  | nil =>
    rintro (_ | ⟨b, t⟩)
    · simp [Upto]
    · have hnext := toNat_add_one hc
      rw [nil_append, nil_append, upto_cons_cons, cons_lt_cons_iff]
      simp only [Upto, not_lt_nil, and_false, or_false, nil_prefix, or_true, and_true, lt_def,
        toNat_inj.symm]
      omega
  | cons a front ih =>
    rintro (_ | ⟨b, t⟩)
    · simp [Upto]
    · rw [cons_append, cons_append, upto_cons_cons, cons_lt_cons_iff, ih]

/-- After the last character the range goes on to the end of the one before. -/
theorem upto_append_last (p : List Byte) : ∀ t, Upto (p ++ [0xff#8]) t ↔ Upto p t := by
  induction p with
  | nil =>
    rintro (_ | ⟨b, t⟩)
    · simp [Upto]
    · rw [nil_append, upto_cons_cons]
      simp only [Upto, not_lt_nil, nil_prefix, or_true, and_true, iff_true, lt_def,
        toNat_inj.symm, BitVec.toNat_ofNat]
      omega
  | cons a p ih =>
    rintro (_ | ⟨b, t⟩)
    · simp [Upto]
    · rw [cons_append, upto_cons_cons, upto_cons_cons, ih]

/-- The range of the empty string has no end. -/
theorem not_exists_bound_nil : ¬ ∃ bound : List Byte, ∀ t, t < bound ↔ Upto [] t :=
  fun ⟨bound, hbound⟩ => List.lt_irrefl bound ((hbound bound).mpr (.inr nil_prefix))

/-- `PrefixSuccessor` returns the bound of the strings that are less than `p` or start with it, and
the empty string just if there is none. -/
theorem prefixSuccessor_spec (p : List Byte) : ∃ r, prefixSuccessor p = some r ∧
      (r ≠ [] → ∀ t, t < r ↔ t < p ∨ p <+: t) ∧ (r = [] ↔ p = [] ∨ ∀ c ∈ p, c = 0xff#8) ∧
      (r = [] ↔ ¬ ∃ bound : List Byte, ∀ t, t < bound ↔ t < p ∨ p <+: t) := by
  induction p using reverseRecOn with
  | nil => exact ⟨[], iterate_done rfl, by simp, by simp, iff_of_true rfl not_exists_bound_nil⟩
  | append_singleton front c ih =>
    by_cases hc : c = 0xff#8
    · obtain ⟨r, hrun, hbound, hempty, hnone⟩ := ih
      refine ⟨r, (iterate_next (by simp [prefixSuccessorStep, hc])).trans hrun, fun hr t => ?_, ?_,
        ?_⟩
      · exact (hbound hr t).trans (hc ▸ upto_append_last front t).symm
      · rw [hempty, or_iff_right_of_imp (by rintro rfl; simp)]
        simp [hc, or_imp]
      · rw [hnone, hc]
        exact not_congr (exists_congr fun bound => forall_congr' fun t =>
          iff_congr Iff.rfl (upto_append_last front t).symm)
    · refine ⟨front ++ [c + 1], iterate_done (by simp [prefixSuccessorStep, hc]),
        fun _ => lt_append_add_one hc front, ?_, ?_⟩
      · simp [hc]
      · simp only [append_eq_nil_iff, cons_ne_nil, and_false, false_iff, not_not]
        exact ⟨_, lt_append_add_one hc front⟩

/-! ## Separators -/

/-- A common front does not matter for the order. -/
theorem append_lt_append_iff (front : List Byte) {s t : List Byte} :
    front ++ s < front ++ t ↔ s < t := by
  induction front with
  | nil => rfl
  | cons a front ih => simp [ih]

/-- The strings up to and from the first difference. -/
theorem eq_append_of_diffIndex_lt {start limit : List Byte} :
    diffIndex start limit < min start.length limit.length →
    ∃ front a b s t, start = front ++ a :: s ∧ limit = front ++ b :: t ∧ a ≠ b ∧
      diffIndex start limit = front.length := by
  fun_induction diffIndex start limit with
  | case1 start b limit ih =>
    intro hlt
    obtain ⟨front, a, b', s, t, rfl, rfl, hne, heq⟩ := ih (by simp at hlt; omega)
    exact ⟨b :: front, a, b', s, t, rfl, rfl, hne, by rw [heq, length_cons]⟩
  | case2 a start b limit hne => exact fun _ => ⟨[], a, b, start, limit, rfl, rfl, hne, rfl⟩
  | case3 start limit hnot =>
    intro hlt
    rcases start with _ | ⟨a, start⟩
    · simp at hlt
    · rcases limit with _ | ⟨b, limit⟩
      · simp at hlt
      · exact absurd rfl (hnot a start b limit rfl)

/-- `FindShortestSeparator` returns a string between the arguments that is not longer than the
first, and the first itself where they are out of order. -/
theorem findShortestSeparator_spec (start limit : List Byte) :
    ∃ separator, findShortestSeparator start limit = some separator ∧
      (start < limit → start ≤ separator ∧ separator < limit ∧ separator.length ≤ start.length) ∧
      (limit ≤ start → separator = start) := by
  have hstart : (start < limit → start ≤ start ∧ start < limit ∧ start.length ≤ start.length) ∧
      (limit ≤ start → start = start) :=
    ⟨fun hlt => ⟨List.le_refl start, hlt, Nat.le_refl _⟩, fun _ => rfl⟩
  rw [findShortestSeparator]
  dsimp only
  split
  next => exact ⟨start, rfl, hstart⟩
  next hdiff =>
    obtain ⟨front, a, b, s, t, rfl, rfl, hne, heq⟩ :=
      eq_append_of_diffIndex_lt (Nat.lt_of_not_le hdiff)
    rw [heq, getElem?_append_right (Nat.le_refl _), Nat.sub_self, take_left]
    split
    next => exact ⟨_, rfl, hstart⟩
    next =>
      simp only [getElem?_cons_zero, Option.bind_eq_bind, Option.bind_some]
      split
      next => exact ⟨_, rfl, hstart⟩
      next ha =>
        refine ⟨_, rfl, ?_⟩
        split
        next => exact hstart
        next hbelow =>
          -- the first difference is raised and still below the limit
          rw [List.not_le, append_lt_append_iff, cons_lt_cons_iff] at hbelow
          have hnext := toNat_add_one ha
          refine ⟨fun _ => ⟨?_, ?_, by simp⟩, fun hle => absurd ?_ hle⟩
          · rw [← List.not_lt, append_lt_append_iff, cons_lt_cons_iff]
            simp only [lt_def, toNat_inj.symm]
            omega
          · rwa [append_lt_append_iff, cons_lt_cons_iff]
          · rw [append_lt_append_iff, cons_lt_cons_iff]
            simp only [lt_def, toNat_inj.symm] at hbelow ⊢
            omega

end Gloop.Strings
