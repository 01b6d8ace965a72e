import Mathlib.Data.List.Sort

/-!
# Sorting under a strict weak order

`less` is a strict weak order given by a test. A list is sorted if no element is less than an
earlier one. `IsStableSort l m` says that `m` is sorted and has the elements of each class of
equivalent elements in the order of `l`, and `KeepsFirst l m` that `m` has exactly the first element
of each class of `l`, in increasing order. The second determines `m`, so that two ways to get there
need not be compared step by step.
-/

namespace Gloop.Foundation

open List

variable {α : Type*} {less : α → α → Bool}

/-- `less` is the test of a strict weak order. -/
abbrev StrictWeak (less : α → α → Bool) : Prop :=
  IsStrictWeakOrder α fun a b => less a b = true

/-- Neither element is less than the other. -/
def equiv (less : α → α → Bool) (a b : α) : Bool :=
  !less a b && !less b a

/-- No element is less than an earlier one. -/
def Sorted (less : α → α → Bool) (l : List α) : Prop :=
  l.Pairwise fun a b => less b a = false

/-- Every element is less than the later ones. -/
def StrictlySorted (less : α → α → Bool) (l : List α) : Prop :=
  l.Pairwise fun a b => less a b = true

/-! ## The order -/

namespace StrictWeak

variable (h : StrictWeak less)
include h

theorem irrefl (a : α) : less a a = false :=
  Bool.eq_false_iff.mpr (Std.Irrefl.irrefl (r := fun a b => less a b = true) a)

variable {a b c : α}

theorem trans (hab : less a b = true) (hbc : less b c = true) : less a c = true :=
  IsTrans.trans (r := fun a b => less a b = true) a b c hab hbc

theorem asymm (hab : less a b = true) : less b a = false := by
  by_contra hba
  have hloop := h.trans hab (Bool.of_not_eq_false hba)
  rw [h.irrefl] at hloop
  cases hloop

omit h in
/-- Values are equivalent if none of them is less. -/
theorem equiv_iff : equiv less a b = true ↔ less a b = false ∧ less b a = false := by
  simp [equiv]

theorem equiv_refl (a : α) : equiv less a a = true :=
  equiv_iff.mpr ⟨h.irrefl a, h.irrefl a⟩

omit h in
theorem equiv_comm (a b : α) : equiv less a b = equiv less b a :=
  Bool.and_comm _ _

/-- Equivalence is transitive, which is what makes the order a weak one. -/
theorem equiv_trans (hab : equiv less a b = true) (hbc : equiv less b c = true) :
    equiv less a c = true := by
  have hincomp := h.incomp_trans a b c
  simp only [Bool.not_eq_true] at hincomp
  exact equiv_iff.mpr (hincomp (equiv_iff.mp hab) (equiv_iff.mp hbc))

/-- Equivalent elements have the same class. -/
theorem equiv_congr (hab : equiv less a b = true) (c : α) : equiv less a c = equiv less b c := by
  rw [Bool.eq_iff_iff]
  constructor
  · exact fun hac => h.equiv_trans (equiv_comm a b ▸ hab) hac
  · exact fun hbc => h.equiv_trans hab hbc

/-- Not being less is transitive as well. -/
theorem not_less_trans (hab : less b a = false) (hbc : less c b = false) : less c a = false := by
  by_contra hca
  replace hca := Bool.of_not_eq_false hca
  cases hab' : less a b with
  | true => rw [h.trans hca hab'] at hbc; cases hbc
  | false =>
    cases hbc' : less b c with
    | true => rw [h.trans hbc' hca] at hab; cases hab
    | false =>
      have hac := h.equiv_trans (equiv_iff.mpr ⟨hab', hab⟩) (equiv_iff.mpr ⟨hbc', hbc⟩)
      rw [(equiv_iff.mp hac).2] at hca
      cases hca

/-- A smaller value stays smaller if the larger one does not decrease. -/
theorem less_of_less_of_not_less (hab : less a b = true) (hbc : less c b = false) :
    less a c = true := by
  by_contra hac
  have hab' := h.not_less_trans hbc (Bool.eq_false_iff.mpr hac)
  rw [hab] at hab'
  cases hab'

/-- A smaller value stays smaller if it does not increase. -/
theorem less_of_not_less_of_less (hab : less b a = false) (hbc : less b c = true) :
    less a c = true := by
  by_contra hac
  have hbc' := h.not_less_trans (Bool.eq_false_iff.mpr hac) hab
  rw [hbc] at hbc'
  cases hbc'

end StrictWeak

/-- The opposite of a strict weak order. -/
theorem StrictWeak.opposite (h : StrictWeak less) : StrictWeak fun a b => less b a :=
  inferInstanceAs (IsStrictWeakOrder α (Function.swap fun a b => less a b = true))

/-- A strict weak order of the keys is one of the elements. -/
theorem StrictWeak.comap {κ : Type*} {less : κ → κ → Bool} (h : StrictWeak less) (key : α → κ) :
    StrictWeak fun a b => less (key a) (key b) :=
  inferInstanceAs (IsStrictWeakOrder α (Order.Preimage key fun a b => less a b = true))

/-- Elements compared by a number. -/
theorem strictWeak_of_key (key : α → Nat) : StrictWeak fun a b => decide (key a < key b) where
  irrefl a := by simp
  trans a b c hab hbc := by
    rw [decide_eq_true_eq] at *
    exact hab.trans hbc
  incomp_trans a b c hab hbc := by
    simp only [decide_eq_true_eq] at *
    omega

/-! ## Stable sorts -/

/-- `m` is sorted, and each class of equivalent elements is as it was in `l`. -/
structure IsStableSort (less : α → α → Bool) (l m : List α) : Prop where
  sorted : Sorted less m
  filter_eq : ∀ x, m.filter (equiv less x) = l.filter (equiv less x)

/-- A sorted list is its own stable sort. -/
theorem isStableSort_self {l : List α} (hl : Sorted less l) : IsStableSort less l l :=
  ⟨hl, fun _ => rfl⟩

section Stable

variable (h : StrictWeak less)
include h

/-- A strictly sorted list is sorted. -/
theorem sorted_of_strictlySorted {l : List α} (hl : StrictlySorted less l) : Sorted less l :=
  hl.imp h.asymm

/-- The classes of a list have all of its elements. -/
theorem mem_iff_of_filter_eq {l m : List α}
    (hsame : ∀ x, m.filter (equiv less x) = l.filter (equiv less x)) (x : α) : x ∈ m ↔ x ∈ l := by
  have hfilter : x ∈ m.filter (equiv less x) ↔ x ∈ l.filter (equiv less x) := by rw [hsame]
  simpa [h.equiv_refl] using hfilter

/-- The standard fixes the result of a stable sort. -/
theorem IsStableSort.unique {l m other : List α} (hm : IsStableSort less l m)
    (hother : IsStableSort less l other) : m = other := by
  have hsame : ∀ x, m.filter (equiv less x) = other.filter (equiv less x) :=
    fun x => (hm.filter_eq x).trans (hother.filter_eq x).symm
  replace hm := hm.sorted
  replace hother := hother.sorted
  induction m generalizing other with
  | nil => exact (eq_nil_iff_forall_not_mem.mpr fun x hx =>
    nomatch (mem_iff_of_filter_eq h hsame x).mpr hx).symm
  | cons a m ih =>
    have hmem := mem_iff_of_filter_eq h hsame
    cases other with
    | nil => cases (hmem a).mp mem_cons_self
    | cons b other =>
      -- each head is among the elements of the other list, so they are equivalent
      have hle : ∀ {c d : α} {k : List α}, Sorted less (c :: k) → d ∈ c :: k →
          less d c = false := by
        intro c d k hk hd
        cases hd with
        | head => exact h.irrefl c
        | tail _ hd => exact (pairwise_cons.mp hk).1 d hd
      have hba := hle hm ((hmem b).mpr mem_cons_self)
      have hab := hle hother ((hmem a).mp mem_cons_self)
      have hequiv : equiv less a b = true := StrictWeak.equiv_iff.mpr ⟨hab, hba⟩
      have hheads := hsame a
      rw [filter_cons_of_pos (h.equiv_refl a), filter_cons_of_pos hequiv] at hheads
      obtain ⟨rfl, -⟩ := cons.inj hheads
      have hrest : ∀ x, m.filter (equiv less x) = other.filter (equiv less x) := by
        intro x
        have hx := hsame x
        by_cases hxa : equiv less x a = true
        · rw [filter_cons_of_pos hxa, filter_cons_of_pos hxa] at hx
          exact (cons.inj hx).2
        · rwa [filter_cons_of_neg hxa, filter_cons_of_neg hxa] at hx
      rw [ih hrest hm.tail hother.tail]

omit h in
/-- The second part may be sorted before the whole. -/
theorem IsStableSort.append {l second sorted m : List α} (hsecond : IsStableSort less second sorted)
    (hm : IsStableSort less (l ++ sorted) m) : IsStableSort less (l ++ second) m := by
  refine ⟨hm.sorted, fun x => ?_⟩
  rw [hm.filter_eq, filter_append, hsecond.filter_eq, filter_append]

/-- Not being less is transitive, as a `mergeSort` needs it. -/
theorem notLess_trans (a b c : α) (hab : (!less b a) = true) (hbc : (!less c b) = true) :
    (!less c a) = true := by
  rw [Bool.not_eq_true'] at *
  exact h.not_less_trans hab hbc

/-- Of two values, one is not less than the other. -/
theorem notLess_total (a b : α) : ((!less b a) || (!less a b)) = true := by
  cases hba : less b a with
  | false => rfl
  | true => rw [h.asymm hba]; rfl

/-- The library's merge sort is a stable sort. -/
theorem isStableSort_mergeSort (l : List α) :
    IsStableSort less l (l.mergeSort fun a b => !less b a) := by
  have hsorted := pairwise_mergeSort (notLess_trans h) (notLess_total h) l
  refine ⟨hsorted.imp fun hab => by simpa using hab, fun x => ?_⟩
  -- a class is sorted as it stands, so the sort keeps it as a sublist; it cannot be longer
  have hclass : (l.filter (equiv less x)).Pairwise fun a b => (!less b a) = true := by
    refine pairwise_of_forall_mem_list fun a ha b hb => ?_
    have hxa := (mem_filter.mp ha).2
    have hxb := (mem_filter.mp hb).2
    have hab := h.equiv_trans (StrictWeak.equiv_comm x a ▸ hxa) hxb
    simp [(StrictWeak.equiv_iff.mp hab).2]
  have hsub := (sublist_mergeSort (notLess_trans h)
    (notLess_total h) hclass filter_sublist).filter (equiv less x)
  simp only [filter_filter, Bool.and_self] at hsub
  exact (hsub.eq_of_length (((mergeSort_perm l _).filter _).length_eq).symm).symm

/-- A class survives a merge: an element of the second list goes first only if all that is left of
the first list is greater. -/
theorem filter_merge {first : List α} (hfirst : Sorted less first) (second : List α) (x : α) :
    (first.merge second fun a b => !less b a).filter (equiv less x) =
      first.filter (equiv less x) ++ second.filter (equiv less x) := by
  induction first generalizing second with
  | nil => rw [nil_merge, filter_nil, nil_append]
  | cons a first ih =>
    induction second with
    | nil => rw [merge_right, filter_nil, append_nil]
    | cons b second ihsecond =>
      rw [cons_merge_cons]
      cases hba : less b a with
      | false =>
        simp only [Bool.not_false, if_true]
        by_cases hxa : equiv less x a = true
        · rw [filter_cons_of_pos hxa, filter_cons_of_pos hxa, ih hfirst.tail, cons_append]
        · rw [filter_cons_of_neg hxa, filter_cons_of_neg hxa, ih hfirst.tail]
      | true =>
        simp only [Bool.not_true, Bool.false_eq_true, if_false]
        by_cases hxb : equiv less x b = true
        · have hnone : (a :: first).filter (equiv less x) = [] := by
            refine filter_eq_nil_iff.mpr fun y hy hxy => ?_
            have hya : less y a = false := by
              cases hy with
              | head => exact h.irrefl a
              | tail _ hy => exact (pairwise_cons.mp hfirst).1 y hy
            have hby := h.less_of_less_of_not_less hba hya
            have hequiv := h.equiv_trans (StrictWeak.equiv_comm x b ▸ hxb) hxy
            rw [(StrictWeak.equiv_iff.mp hequiv).1] at hby
            cases hby
          rw [filter_cons_of_pos hxb, filter_cons_of_pos hxb, ihsecond, hnone, nil_append,
            nil_append]
        · rw [filter_cons_of_neg hxb, filter_cons_of_neg hxb, ihsecond]

/-- A merge of sorted lists sorts them stably. -/
theorem isStableSort_merge {first second : List α} (hfirst : Sorted less first)
    (hsecond : Sorted less second) : IsStableSort less (first ++ second)
      (first.merge second fun a b => !less b a) := by
  refine ⟨?_, fun x => by rw [filter_merge h hfirst, filter_append]⟩
  have hle := pairwise_merge (notLess_trans h) (notLess_total h) first
    second (hfirst.imp (by simp)) (hsecond.imp (by simp))
  exact hle.imp (by simp)

end Stable

/-! ## The first element of each class -/

/-- `m` is strictly sorted and has the first element of each class of `l`. -/
structure KeepsFirst (less : α → α → Bool) (l m : List α) : Prop where
  strictlySorted : StrictlySorted less m
  mem_iff : ∀ x, x ∈ m ↔ l.find? (equiv less x) = some x

section First

variable (h : StrictWeak less)
include h

/-- What keeps the first of equivalent values is determined. -/
theorem KeepsFirst.unique {l m other : List α} (hm : KeepsFirst less l m)
    (hother : KeepsFirst less l other) : m = other := by
  refine List.Pairwise.eq_of_mem_iff hm.strictlySorted hother.strictlySorted fun x => ?_
  rw [hm.mem_iff, hother.mem_iff]

omit h in
/-- A stable sort keeps the first element of each class the first. -/
theorem KeepsFirst.of_stableSort {l sorted m : List α} (hsort : IsStableSort less l sorted)
    (hm : KeepsFirst less sorted m) : KeepsFirst less l m := by
  refine ⟨hm.strictlySorted, fun x => ?_⟩
  rw [hm.mem_iff, ← head?_filter, ← head?_filter, hsort.filter_eq]

omit h in
theorem keepsFirst_nil : KeepsFirst less ([] : List α) [] :=
  ⟨List.Pairwise.nil, fun _ => by simp⟩

variable {l m : List α}

section

variable (hm : KeepsFirst less l m)
include hm

/-- Every class has its first element kept. -/
theorem KeepsFirst.exists_equiv {y : α} (hy : y ∈ l) : ∃ z ∈ m, equiv less y z = true := by
  cases hfind : l.find? (equiv less y) with
  | none => exact absurd (h.equiv_refl y) (find?_eq_none.mp hfind y hy)
  | some z =>
    have hyz : equiv less y z = true := find?_some hfind
    refine ⟨z, (hm.mem_iff z).mpr ?_, hyz⟩
    rw [← hfind]
    exact congrArg (l.find? ·) (funext fun w => (h.equiv_congr hyz w).symm)

omit h in
theorem KeepsFirst.mem_of_mem {x : α} (hx : x ∈ m) : x ∈ l :=
  mem_of_find?_eq_some ((hm.mem_iff x).mp hx)

/-- One more element of a class that is there changes nothing. -/
theorem KeepsFirst.skip {v y : α} (hy : y ∈ l) (hvy : equiv less v y = true) :
    KeepsFirst less (l ++ [v]) m := by
  refine ⟨hm.strictlySorted, fun x => ?_⟩
  rw [hm.mem_iff, find?_append]
  cases hfind : l.find? (equiv less x) with
  | some z => rfl
  | none =>
    have hxv : equiv less x v = false := by
      by_contra hxv
      have hxy := h.equiv_trans (Bool.of_not_eq_false hxv) hvy
      exact absurd hxy (find?_eq_none.mp hfind y hy)
    simp [hxv]

/-- The first element of a new class has to be added. -/
theorem KeepsFirst.add {more : List α} {v : α}
    (hv : ∀ y ∈ l, equiv less v y = false) (hmore : StrictlySorted less more)
    (hmem : ∀ x, x ∈ more ↔ x ∈ m ∨ x = v) : KeepsFirst less (l ++ [v]) more := by
  refine ⟨hmore, fun x => ?_⟩
  rw [hmem, hm.mem_iff, find?_append]
  cases hfind : l.find? (equiv less x) with
  | some z =>
    have hxz : equiv less x z = true := find?_some hfind
    have hne : x ≠ v := by
      rintro rfl
      rw [hv z (mem_of_find?_eq_some hfind)] at hxz
      cases hxz
    simp [hne]
  | none =>
    by_cases hxv : x = v
    · subst hxv
      simp [h.equiv_refl]
    · simp only [reduceCtorEq, hxv, or_self, find?_singleton, false_iff]
      intro hsome
      split at hsome
      · exact hxv (Option.some.inj hsome).symm
      · cases hsome

end

omit h in
/-- A strictly sorted list has one element of each class. -/
theorem StrictlySorted.eq_of_equiv (hl : StrictlySorted less l) {x y : α} (hx : x ∈ l) (hy : y ∈ l)
    (hxy : equiv less x y = true) : x = y := by
  obtain ⟨hless, hgreater⟩ := StrictWeak.equiv_iff.mp hxy
  obtain ⟨before, after, rfl⟩ := append_of_mem hx
  obtain ⟨-, hafter, hbefore⟩ := pairwise_append.mp hl
  rcases mem_append.mp hy with hmem | hmem
  · rw [hbefore y hmem x mem_cons_self] at hgreater
    cases hgreater
  · cases hmem with
    | head => rfl
    | tail _ hmem =>
      rw [(pairwise_cons.mp hafter).1 y hmem] at hless
      cases hless

/-- A strictly sorted list has nothing to drop. -/
theorem keepsFirst_self (hl : StrictlySorted less l) : KeepsFirst less l l := by
  refine ⟨hl, fun x => ⟨fun hx => ?_, mem_of_find?_eq_some⟩⟩
  cases hfind : l.find? (equiv less x) with
  | none => exact absurd (h.equiv_refl x) (find?_eq_none.mp hfind x hx)
  | some z =>
    have hxz := hl.eq_of_equiv hx (mem_of_find?_eq_some hfind) (find?_some hfind)
    rw [hxz]

end First

end Gloop.Foundation
