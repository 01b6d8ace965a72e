import Gloop.Gtl.Flat.Model
import Gloop.Foundation.Iterate

/-!
# Inserting one element, with and without a hint, and a range

Each insertion is described at a split of the container. In a strictly sorted container the position
of an element, or of the element equivalent to it, is determined, so a hint that passes the two
comparisons of `verify_hint` is the position that `std::lower_bound` finds. In a container with
duplicates a hint may choose a place among equivalent elements. All ways to insert a range come down
to the first element of each class in the old elements followed by the new ones: `insert` adds an
element to a container that keeps these, `std::unique` and `maybe_append` keep them in a sorted
list, and a stable sort followed by a merge does not change which element of a class is the first.
-/

namespace Gloop.Gtl.Flat

open Gloop.Foundation List
variable {α : Type} {cmp : α → α → Bool}

section

/-! ## Emplacing -/

theorem insertIdx_split (front back : List α) (v : α) :
    (front ++ back).insertIdx front.length v = front ++ v :: back := by
  induction front with
  | nil => rfl
  | cons x front ih => rw [cons_append, length_cons, insertIdx_succ_cons, ih, cons_append]

theorem reconstructElement_split (front back : List α) (x v : α) :
    reconstructElement (front ++ x :: back) front.length v = some (front ++ v :: back) := by
  rw [reconstructElement, if_pos (by simp), set_append_right _ _ (Nat.le_refl _), Nat.sub_self,
    set_cons_zero]

/-- The loop moves the elements between `front` and `x` one place up, over `x`. -/
theorem shiftElements_split (front : List α) (n : Nat) :
    ∀ (middle : List α) (x : α) (back : List α), middle.length = n →
      ∃ y, shiftElements front.length n (front ++ (middle ++ x :: back)) =
        some (front ++ y :: (middle ++ back)) := by
  induction n with
  | zero =>
    intro middle x back hlength
    rw [length_eq_zero_iff.mp hlength]
    exact ⟨x, rfl⟩
  | succ n ih =>
    intro middle x back hlength
    -- the loop runs downwards, so the last element of the middle moves first
    obtain ⟨middle, last, rfl⟩ :=
      eq_nil_or_concat middle |>.resolve_left (by rintro rfl; cases hlength)
    rw [concat_eq_append] at *
    have hmiddle : middle.length = n := by simpa using hlength
    have hread : (front ++ (middle ++ [last] ++ x :: back))[front.length + n]? = some last := by
      rw [← hmiddle]
      simp
    have hwrite : reconstructElement (front ++ (middle ++ [last] ++ x :: back))
        (front.length + n + 1) last =
        some (front ++ (middle ++ last :: (last :: back))) := by
      have hsplit := reconstructElement_split (front ++ (middle ++ [last])) back x last
      simpa [hmiddle, Nat.add_assoc] using hsplit
    obtain ⟨y, hy⟩ := ih middle last (last :: back) hmiddle
    simp only [shiftElements, hread, hwrite, Option.bind_eq_bind, Option.bind_some, hy]
    simp

/-- Both kinds of emplacing put the element at its position. -/
theorem containerEmplace_split (assignable : Bool) (front back : List α) (v : α) :
    containerEmplace assignable (front ++ back) front.length v =
      some (front ++ v :: back, front.length) := by
  cases assignable with
  | true =>
    rw [containerEmplace, if_pos rfl, if_pos (by simp), insertIdx_split]
  | false =>
    rw [containerEmplace, if_neg (by decide), emplaceNonAssignable]
    split_ifs with hend
    · have hback : back = [] := by simpa using hend
      rw [hback, append_nil]
    · obtain ⟨y, hy⟩ := shiftElements_split front back.length back v [] rfl
      have hcount : (front ++ back ++ [v]).length - 1 - front.length = back.length := by
        simp only [length_append, length_singleton]
        omega
      rw [hcount, append_assoc, hy]
      simp [reconstructElement_split]

variable {front back : List α} {v : α}

/-- An element put into its place keeps a container ordered, in either sense. -/
theorem pairwise_split {R : α → α → Prop} (hrep : (front ++ back).Pairwise R)
    (hfront : ∀ y ∈ front, R y v) (hback : ∀ y ∈ back, R v y) :
      (front ++ v :: back).Pairwise R := by
  obtain ⟨hsorted, hsortedBack, hcross⟩ := pairwise_append.mp hrep
  refine pairwise_append.mpr ⟨hsorted, pairwise_cons.mpr ⟨hback, hsortedBack⟩, fun y hy z hz => ?_⟩
  cases hz with
  | head => exact hfront y hy
  | tail _ hz => exact hcross y hy z hz

/-! ## Inserting without a hint -/

section Insert

variable (assignable : Bool) (policy : OnKeyCollision α)

/-- An element between two parts of the container is inserted there. -/
theorem insert_new (hfront : ∀ y ∈ front, cmp y v = true) (hback : ∀ y ∈ back.head?, cmp v y = true)
    (h : StrictWeak cmp) :
    insert assignable cmp policy (front ++ back) v =
      some (front ++ v :: back, front.length, true) := by
  have hit : lowerBound cmp (front ++ back) v = front.length := by
    refine OrderedSet.findIdx_split (fun y hy => by rw [hfront y hy]; rfl) fun y hy => ?_
    rw [h.asymm (hback y hy)]
    rfl
  rw [insert]
  simp only [hit, containerEmplace_split]
  cases back with
  | nil => simp
  | cons y back => simp [hback y rfl]

/-- An element that is there already meets the policy. -/
theorem insert_present {y : α} (hfront : ∀ z ∈ front, cmp z v = true)
    (hequiv : equiv cmp v y = true) : insert assignable cmp policy (front ++ y :: back) v =
      (collide policy (front ++ y :: back) front.length v).map fun rep =>
        (rep, front.length, false) := by
  obtain ⟨hvy, hyv⟩ := StrictWeak.equiv_iff.mp hequiv
  have hit : lowerBound cmp (front ++ y :: back) v = front.length := by
    refine OrderedSet.findIdx_split (fun z hz => by rw [hfront z hz]; rfl) fun z hz => ?_
    cases hz
    rw [hyv]
    rfl
  rw [insert]
  simp only [hit, OrderedSet.getElem?_split, hvy]
  cases collide policy (front ++ y :: back) front.length v <;> rfl

variable {rep : List α} {hint : Nat}

/-- Where an element belongs in a strictly sorted container. -/
theorem exists_place (h : StrictWeak cmp) (hrep : StrictlySorted cmp rep) (v : α) :
    (∃ front back, rep = front ++ back ∧ (∀ y ∈ front, cmp y v = true) ∧ ∀ y ∈ back,
      cmp v y = true) ∨
    (∃ front y back, rep = front ++ y :: back ∧ (∀ z ∈ front, cmp z v = true) ∧
      equiv cmp v y = true) := by
  obtain ⟨front, back, rfl, -, hfront, hhead⟩ :=
    OrderedSet.exists_findIdx_split (fun y => !cmp y v) rep
  have hfront' : ∀ y ∈ front, cmp y v = true := fun y hy => by simpa using hfront y hy
  cases back with
  | nil => exact .inl ⟨front, [], rfl, hfront', nofun⟩
  | cons y back =>
    have hyv : cmp y v = false := by simpa using hhead y rfl
    cases hvy : cmp v y with
    | false => exact .inr ⟨front, y, back, rfl, hfront', StrictWeak.equiv_iff.mpr ⟨hvy, hyv⟩⟩
    | true =>
      refine .inl ⟨front, y :: back, rfl, hfront', fun z hz => ?_⟩
      have hback := (pairwise_append.mp hrep).2.1
      cases hz with
      | head => exact hvy
      | tail _ hz => exact h.trans hvy ((pairwise_cons.mp hback).1 z hz)

/-! ## Inserting with a hint -/

/-- A position in the container splits it. -/
theorem exists_split (hhint : hint ≤ rep.length) :
    ∃ front back, rep = front ++ back ∧ hint = front.length :=
  ⟨rep.take hint, rep.drop hint, (take_append_drop _ _).symm, by simp [hhint]⟩

/-- A position just behind an element. -/
theorem getElem?_before (front back : List α) (y : α) :
    (front ++ [y] ++ back)[(front ++ [y]).length - 1]? = some y := by
  simp

/-- What the result of `verify_hint` says of a hint between `front` and `back`. -/
def VerifyHintResult.Says (cmp : α → α → Bool) (front back : List α) (v : α) :
    VerifyHintResult → Prop
  | .perfectHint pos => pos = front.length ∧ (∀ y ∈ back.head?, cmp v y = true) ∧
      ∀ y ∈ front.getLast?, cmp y v = true
  | .keyExists pos => ∃ y, (front ++ back)[pos]? = some y ∧ equiv cmp v y = true
  | .badHint => True

/-- The hint is checked against the element before it. -/
theorem verifyBefore_says (hhead : ∀ y ∈ back.head?, cmp v y = true) :
    ∃ result, verifyBefore cmp (front ++ back) front.length v = some result ∧
      result.Says cmp front back v := by
  rcases eq_nil_or_concat front with rfl | ⟨front, y, rfl⟩
  · exact ⟨_, rfl, rfl, hhead, nofun⟩
  · rw [concat_eq_append, verifyBefore, if_pos (by simp), getElem?_before]
    simp only [Option.bind_eq_bind, Option.bind_some]
    cases hyv : cmp y v with
    | true =>
      refine ⟨_, rfl, rfl, hhead, fun z hz => ?_⟩
      rw [getLast?_concat] at hz
      cases hz
      exact hyv
    | false =>
      cases hvy : cmp v y with
      | true => exact ⟨_, rfl, trivial⟩
      | false => exact ⟨_, rfl, y, getElem?_before front back y,
        StrictWeak.equiv_iff.mpr ⟨hvy, hyv⟩⟩

variable (cmp) in
/-- What the two comparisons of `verify_hint` find out. -/
theorem verifyHint_says (front back : List α) (v : α) :
    ∃ result, verifyHint cmp (front ++ back) front.length v = some result ∧
      result.Says cmp front back v := by
  rw [verifyHint]
  cases back with
  | nil =>
    rw [if_neg (by simp)]
    exact verifyBefore_says nofun
  | cons y back =>
    rw [if_pos (by simp), OrderedSet.getElem?_split]
    simp only [Option.bind_eq_bind, Option.bind_some]
    cases hvy : cmp v y with
    | true =>
      refine verifyBefore_says fun z hz => ?_
      cases hz
      exact hvy
    | false =>
      cases hyv : cmp y v with
      | true => exact ⟨_, rfl, trivial⟩
      | false =>
        exact ⟨_, rfl, y, OrderedSet.getElem?_split front y back,
          StrictWeak.equiv_iff.mpr ⟨hvy, hyv⟩⟩

/-- In a strictly sorted container everything up to the last element of the front is less than what
the last element is less than. -/
theorem front_less (h : StrictWeak cmp) (hfront : StrictlySorted cmp front)
    (hlast : ∀ y ∈ front.getLast?, cmp y v = true) : ∀ y ∈ front, cmp y v = true := by
  intro y hy
  rcases eq_nil_or_concat front with rfl | ⟨front, last, rfl⟩
  · cases hy
  · rw [concat_eq_append] at *
    have hlv : cmp last v = true := hlast last getLast?_concat
    rcases mem_append.mp hy with hmem | hmem
    · exact h.trans ((pairwise_append.mp hfront).2.2 y hmem last mem_cons_self) hlv
    · rw [mem_singleton.mp hmem]
      exact hlv

/-- An insertion does the same with any hint as without one. -/
theorem insertHint_eq (h : StrictWeak cmp) (hrep : StrictlySorted cmp rep)
    (hhint : hint ≤ rep.length) (v : α) : insertHint assignable cmp policy rep hint v =
      (insert assignable cmp policy rep v).map fun result => (result.1, result.2.1) := by
  obtain ⟨front, back, rfl, rfl⟩ := exists_split hhint
  obtain ⟨result, hverify, hresult⟩ := verifyHint_says cmp front back v
  rw [insertHint, hverify, Option.bind_eq_bind, Option.bind_some]
  cases result with
  | perfectHint pos =>
    obtain ⟨rfl, hhead, hlast⟩ := hresult
    have hfront := front_less h (pairwise_append.mp hrep).1 hlast
    rw [insert_new assignable policy hfront hhead h]
    exact containerEmplace_split assignable front back v
  | keyExists pos =>
    obtain ⟨y, hy, hequiv⟩ := hresult
    generalize front ++ back = rep at *
    obtain ⟨before, after, rfl, rfl⟩ : ∃ before after, rep = before ++ y :: after ∧
      pos = before.length := by
      obtain ⟨hlt, hget⟩ := List.getElem?_eq_some_iff.mp hy
      refine ⟨rep.take pos, rep.drop (pos + 1), ?_, by simp; omega⟩
      rw [← hget, ← drop_eq_getElem_cons, take_append_drop]
    have hbefore : ∀ z ∈ before, cmp z v = true := by
      intro z hz
      have hzy := (pairwise_append.mp hrep).2.2 z hz y mem_cons_self
      exact h.less_of_less_of_not_less hzy (StrictWeak.equiv_iff.mp hequiv).1
    dsimp only
    rw [insert_present assignable policy hbefore hequiv]
    cases collide policy (before ++ y :: after) before.length v <;> rfl
  | badHint =>
    cases insert assignable cmp policy (front ++ back) v <;> rfl

/-! ## Containers with duplicates -/

/-- The position splits the container so that `v` may stand there. -/
def Fits (cmp : α → α → Bool) (rep : List α) (v : α) (pos : Nat) : Prop :=
  ∃ front back, rep = front ++ back ∧ pos = front.length ∧ (∀ y ∈ front, cmp v y = false) ∧
    ∀ y ∈ back, cmp y v = false

/-- An emplacement where an element fits keeps the order. -/
theorem containerEmplace_of_fits {pos : Nat} (hrep : Sorted cmp rep) (hpos : Fits cmp rep v pos) :
    ∃ result, containerEmplace assignable rep pos v = some (result, pos) ∧ Sorted cmp result ∧
      result.Perm (v :: rep) := by
  obtain ⟨front, back, rfl, rfl, hfront, hback⟩ := hpos
  exact ⟨_, containerEmplace_split assignable front back v, pairwise_split hrep hfront hback,
    perm_middle⟩

section

variable (h : StrictWeak cmp)
include h

/-- Behind an element that is not less than `v`, no element is. -/
theorem back_not_less (hback : Sorted cmp back)
    (hhead : ∀ y ∈ back.head?, cmp y v = false) : ∀ y ∈ back, cmp y v = false := by
  intro y hy
  cases back with
  | nil => cases hy
  | cons z back =>
    cases hy with
    | head => exact hhead y rfl
    | tail _ hy => exact h.not_less_trans (hhead z rfl) ((pairwise_cons.mp hback).1 y hy)

/-- Before an element that `v` is not less than, `v` is not less than any. -/
theorem front_not_less (hfront : Sorted cmp front)
    (hlast : ∀ y ∈ front.getLast?, cmp v y = false) : ∀ y ∈ front, cmp v y = false := by
  intro y hy
  rcases eq_nil_or_concat front with rfl | ⟨front, last, rfl⟩
  · cases hy
  · rw [concat_eq_append] at *
    have hvl : cmp v last = false := hlast last getLast?_concat
    rcases mem_append.mp hy with hmem | hmem
    · exact h.not_less_trans ((pairwise_append.mp hfront).2.2 y hmem last mem_cons_self) hvl
    · rw [mem_singleton.mp hmem]
      exact hvl

variable (hrep : Sorted cmp rep)
include hrep

/-- An element fits at its lower bound. -/
theorem fits_lowerBound (v : α) : Fits cmp rep v (lowerBound cmp rep v) := by
  obtain ⟨front, back, rfl, hit, hfront, hhead⟩ :=
    OrderedSet.exists_findIdx_split (fun y => !cmp y v) rep
  refine ⟨front, back, rfl, hit, fun y hy => h.asymm (by simpa using hfront y hy), ?_⟩
  exact back_not_less h (pairwise_append.mp hrep).2.1 fun y hy => by simpa using hhead y hy

/-- An element fits at its upper bound. -/
theorem fits_upperBound (v : α) : Fits cmp rep v (upperBound cmp rep v) := by
  obtain ⟨front, back, rfl, hit, hfront, hhead⟩ :=
    OrderedSet.exists_findIdx_split (fun y => cmp v y) rep
  refine ⟨front, back, rfl, hit, hfront, ?_⟩
  exact back_not_less h (pairwise_append.mp hrep).2.1 fun y hy => h.asymm (hhead y hy)

omit hrep in
/-- An element fits where a hint that is too early leads to. -/
theorem fits_lowerHint (hrep : Sorted cmp (front ++ back))
    (hhead : ∀ y ∈ back.head?, cmp y v = false) : ∃ pos,
      lowerHint cmp (front ++ back) front.length v = some pos ∧ Fits cmp (front ++ back) v pos := by
  obtain ⟨hfront, hback, -⟩ := pairwise_append.mp hrep
  have hback' := back_not_less h hback hhead
  rcases eq_nil_or_concat front with rfl | ⟨front, y, rfl⟩
  · exact ⟨0, rfl, [], back, rfl, rfl, nofun, hback'⟩
  · rw [concat_eq_append] at *
    rw [lowerHint, if_pos (by simp), getElem?_before]
    simp only [Option.bind_eq_bind, Option.bind_some]
    cases hvy : cmp v y with
    | true => exact ⟨_, rfl, fits_upperBound h hrep v⟩
    | false =>
      refine ⟨_, rfl, front ++ [y], back, rfl, rfl, ?_, hback'⟩
      refine front_not_less h hfront fun z hz => ?_
      rw [getLast?_concat] at hz
      cases hz
      exact hvy

/-- Whatever the hint, `multi_insert_hint` ends up with a position where the element may stand. -/
theorem fits_adjustHint (hhint : hint ≤ rep.length) (v : α) :
    ∃ pos, adjustHint cmp rep hint v = some pos ∧ Fits cmp rep v pos := by
  obtain ⟨front, back, rfl, rfl⟩ := exists_split hhint
  rw [adjustHint]
  cases back with
  | nil =>
    rw [if_neg (by simp)]
    exact fits_lowerHint h hrep nofun
  | cons y back =>
    rw [if_pos (by simp), OrderedSet.getElem?_split]
    simp only [Option.bind_eq_bind, Option.bind_some]
    cases hyv : cmp y v with
    | true => exact ⟨_, rfl, fits_lowerBound h hrep v⟩
    | false =>
      refine fits_lowerHint h hrep fun z hz => ?_
      cases hz
      exact hyv

/-- With and without a hint, the element is added and the container stays sorted. -/
theorem multiInsertHint_spec (hhint : hint ≤ rep.length) (v : α) :
    ∃ result pos, multiInsertHint assignable cmp rep hint v = some (result, pos) ∧
      Sorted cmp result ∧ result.Perm (v :: rep) := by
  obtain ⟨pos, hadjust, hfits⟩ := fits_adjustHint h hrep hhint v
  obtain ⟨result, hresult, hsorted, hperm⟩ := containerEmplace_of_fits assignable hrep hfits
  refine ⟨result, pos, ?_, hsorted, hperm⟩
  rw [multiInsertHint, hadjust, Option.bind_eq_bind, Option.bind_some, hresult]

/-- An insertion into a multiset keeps the order. -/
theorem multiInsert_spec (v : α) :
    ∃ result pos, multiInsert assignable cmp rep v = some (result, pos) ∧ Sorted cmp result ∧
      result.Perm (v :: rep) := by
  obtain ⟨result, hresult, hsorted, hperm⟩ :=
    containerEmplace_of_fits assignable hrep (fits_upperBound h hrep v)
  exact ⟨result, _, hresult, hsorted, hperm⟩

end

end Insert

end

/-! ## Keeping the first of each run -/

/-- A round of `std::unique` keeps an element that differs from the last one. -/
theorem uniqueStep_eq (kept : List α) (x : α) :
    uniqueStep (fun left right => !cmp left right) kept x = maybeAppend cmp kept x := by
  rw [uniqueStep, maybeAppend]
  cases hlast : kept.getLast? with
  | none => rw [getLast?_eq_none_iff.mp hlast, nil_append]
  | some last => cases hless : cmp last x <;> simp [hless]

/-- Duplicates are removed in one pass. -/
theorem removeDuplicates_eq (rep : List α) :
    removeDuplicates cmp rep = rep.foldl (maybeAppend cmp) [] :=
  congrArg (fun step => rep.foldl step []) (funext fun kept => funext fun x => uniqueStep_eq kept x)

section

variable (h : StrictWeak cmp)
include h

/-- An element that is not less than those before it is added if it opens a class. -/
theorem keepsFirst_maybeAppend {l kept : List α} (hkept : KeepsFirst cmp l kept)
    {x : α} (hx : ∀ y ∈ l, cmp x y = false) : KeepsFirst cmp (l ++ [x])
      (maybeAppend cmp kept x) := by
  rw [maybeAppend]
  rcases eq_nil_or_concat kept with rfl | ⟨kept, last, rfl⟩
  · refine hkept.add h (fun y hy => ?_) (pairwise_singleton _ x) (by simp)
    obtain ⟨z, hz, -⟩ := hkept.exists_equiv h hy
    cases hz
  · rw [concat_eq_append] at *
    have hlast : last ∈ l := hkept.mem_of_mem (by simp)
    rw [getLast?_concat]
    dsimp only
    split_ifs with hless
    · have hall : ∀ z ∈ kept ++ [last], cmp z x = true :=
        front_less h hkept.strictlySorted fun z hz => by
          rw [getLast?_concat] at hz
          cases hz
          exact hless
      refine hkept.add h (fun y hy => ?_) ?_ (by simp [or_assoc])
      · obtain ⟨z, hz, hyz⟩ := hkept.exists_equiv h hy
        have hyx := h.less_of_not_less_of_less (StrictWeak.equiv_iff.mp hyz).2 (hall z hz)
        simp [equiv, hyx]
      · refine pairwise_append.mpr ⟨hkept.strictlySorted, pairwise_singleton _ x, ?_⟩
        intro z hz y hy
        rw [mem_singleton.mp hy]
        exact hall z hz
    · exact hkept.skip h hlast
        (StrictWeak.equiv_iff.mpr ⟨hx last hlast, Bool.eq_false_iff.mpr hless⟩)

/-- Over a sorted list the elements that are kept are the first ones. -/
theorem keepsFirst_foldl_maybeAppend {l kept more : List α}
    (hkept : KeepsFirst cmp l kept) (hsorted : Sorted cmp (l ++ more)) :
    KeepsFirst cmp (l ++ more) (more.foldl (maybeAppend cmp) kept) := by
  induction more generalizing l kept with
  | nil => rwa [append_nil]
  | cons x more ih =>
    have hx : ∀ y ∈ l, cmp x y = false :=
      fun y hy => (pairwise_append.mp hsorted).2.2 y hy x mem_cons_self
    rw [append_cons] at hsorted ⊢
    exact ih (keepsFirst_maybeAppend h hkept hx) hsorted

/-- After a stable sort, the first of equivalent elements is kept. -/
theorem keepsFirst_removeDuplicates {l sorted : List α}
    (hsort : IsStableSort cmp l sorted) : KeepsFirst cmp l (removeDuplicates cmp sorted) := by
  rw [removeDuplicates_eq]
  exact (keepsFirst_foldl_maybeAppend h keepsFirst_nil hsort.sorted).of_stableSort hsort

/-! ## The three ways -/

variable {rep : List α}

/-- A range is inserted behind equivalent elements. -/
theorem isStableSort_multiInsertRange (hrep : StrictlySorted cmp rep) (copyAssignable : Bool)
    (range : List α) : IsStableSort cmp (rep ++ range)
      (multiInsertRange copyAssignable cmp rep range) := by
  have hsort := isStableSort_mergeSort h range
  have hmerge := isStableSort_merge h (sorted_of_strictlySorted h hrep) hsort.sorted
  have hboth : multiInsertRange copyAssignable cmp rep range =
      merge cmp rep (stableSort cmp range) := by
    cases copyAssignable with
    | false => rfl
    | true => simp [multiInsertRange]
  rw [hboth]
  exact hsort.append hmerge

/-- Append, sort, merge and deduplicate. -/
theorem keepsFirst_insertRange (hrep : StrictlySorted cmp rep) (copyAssignable : Bool)
    (range : List α) : KeepsFirst cmp (rep ++ range)
      (insertRange copyAssignable cmp rep range) := by
  rw [insertRange]
  split_ifs with hrange
  · rw [hrange, append_nil]
    exact keepsFirst_self h hrep
  · exact keepsFirst_removeDuplicates h (isStableSort_multiInsertRange h hrep copyAssignable range)

/-- One element after the other. -/
theorem keepsFirst_insertEach {l : List α} (hrep : KeepsFirst cmp l rep) (assignable : Bool)
    (range : List α) : ∃ result, insertEach assignable cmp .keepOldValue rep range = some result ∧
      KeepsFirst cmp (l ++ range) result := by
  induction range generalizing l rep with
  | nil => exact ⟨rep, rfl, by rwa [append_nil]⟩
  | cons v range ih =>
    have hstep : ∃ next pos inserted,
        insert assignable cmp .keepOldValue rep v = some (next, pos, inserted) ∧
          KeepsFirst cmp (l ++ [v]) next := by
      obtain ⟨front, back, rfl, hfront, hback⟩ | ⟨front, y, back, rfl, hfront, hequiv⟩ :=
        exists_place h hrep.strictlySorted v
      · have hhead : ∀ y ∈ back.head?, cmp v y = true := fun y hy => hback y (mem_of_mem_head? hy)
        refine ⟨_, _, _, insert_new assignable _ hfront hhead h, ?_⟩
        have hnew : ∀ y ∈ l, equiv cmp v y = false := by
          intro y hy
          obtain ⟨z, hz, hyz⟩ := hrep.exists_equiv h hy
          rw [StrictWeak.equiv_comm, h.equiv_congr hyz]
          rcases mem_append.mp hz with hz | hz
          · simp [equiv, hfront z hz]
          · simp [equiv, hback z hz]
        refine hrep.add h hnew (pairwise_split hrep.strictlySorted hfront hback) fun x => ?_
        simp only [mem_append, mem_cons]
        tauto
      · refine ⟨_, _, _, insert_present assignable _ hfront hequiv, ?_⟩
        exact hrep.skip h (hrep.mem_of_mem (by simp)) hequiv
    obtain ⟨next, pos, inserted, hinsert, hnext⟩ := hstep
    obtain ⟨result, hresult, hkeeps⟩ := ih hnext
    refine ⟨result, ?_, by rwa [append_cons]⟩
    rw [insertEach, foldlM_cons, hinsert]
    exact hresult

/-! ## Merging and deduplicating in one pass -/

omit h in
/-- Old elements that follow the last element kept are all kept. -/
theorem foldl_maybeAppend_strict {first : List α} (hfirst : StrictlySorted cmp first)
    (hhead : ∀ back ∈ rep.getLast?, ∀ a ∈ first.head?, cmp back a = true) :
    first.foldl (maybeAppend cmp) rep = rep ++ first := by
  induction first generalizing rep with
  | nil => rw [foldl_nil, append_nil]
  | cons a first ih =>
    have hstep : maybeAppend cmp rep a = rep ++ [a] := by
      rw [maybeAppend]
      cases hlast : rep.getLast? with
      | none => rfl
      | some back => simp [hhead back hlast a rfl]
    rw [foldl_cons, hstep, ih hfirst.tail, ← append_cons]
    intro back hback b hb
    rw [getLast?_concat] at hback
    cases hback
    exact (pairwise_cons.mp hfirst).1 b (mem_of_mem_head? hb)

/-- What is last after an element has been offered is not less than it, and is less than whatever
the element is less than. -/
theorem getLast?_maybeAppend {x a : α} (hx : ∀ z ∈ rep, cmp x z = false) (hxa : cmp x a = true) :
    ∀ back ∈ (maybeAppend cmp rep x).getLast?, cmp back a = true := by
  intro back hback
  rw [maybeAppend] at hback
  cases hlast : rep.getLast? with
  | none =>
    rw [hlast, getLast?_concat] at hback
    cases hback
    exact hxa
  | some last =>
    simp only [hlast] at hback
    split_ifs at hback with hless
    · rw [getLast?_concat] at hback
      cases hback
      exact hxa
    · rw [hlast] at hback
      cases hback
      exact h.less_of_not_less_of_less (hx _ (mem_of_getLast? hlast)) hxa

omit h in
theorem mem_maybeAppend {x z : α} (hz : z ∈ maybeAppend cmp rep x) : z ∈ rep ∨ z = x := by
  rw [maybeAppend] at hz
  cases hlast : rep.getLast? with
  | none =>
    rw [hlast] at hz
    simpa using hz
  | some last =>
    simp only [hlast] at hz
    split_ifs at hz with hless
    · simpa using hz
    · exact .inl hz

omit h in
/-- What the loop over both ranges leaves behind: the rest of the merge is still to be offered, one
range is used up, and if it is the range of new elements, the old ones that are left follow the last
element kept. -/
theorem mergeLoop_spec (rep first second : List α) (h : StrictWeak cmp) (hfirst : Sorted cmp first)
    (hsecond : Sorted cmp second) (hrep : ∀ z ∈ rep, ∀ y ∈ first ++ second, cmp y z = false)
    (hhead : second = [] → ∀ back ∈ rep.getLast?, ∀ a ∈ first.head?, cmp back a = true) :
    ∃ rep' first' second', mergeLoop cmp rep first second = (rep', first', second') ∧
      (merge cmp first second).foldl (maybeAppend cmp) rep =
        (merge cmp first' second').foldl (maybeAppend cmp) rep' ∧
      (first' = [] ∨ second' = []) ∧ first' <:+ first ∧
      ∀ back ∈ rep'.getLast?, ∀ a ∈ first'.head?, cmp back a = true := by
  -- a round takes one head, and nothing that is still to come is less than what `rep` has
  fun_induction mergeLoop cmp rep first second with
  | case1 rep a first b second hba ih =>
    have hmerge : merge cmp (a :: first) (b :: second) = b :: merge cmp (a :: first) second := by
      rw [merge, cons_merge_cons, hba]
      rfl
    rw [hmerge]
    refine ih hfirst hsecond.tail ?_ ?_
    · intro z hz y hy
      rcases mem_maybeAppend hz with hz | rfl
      · exact hrep z hz y (by simp only [mem_append, mem_cons] at hy ⊢; tauto)
      · rcases mem_append.mp hy with hy | hy
        · cases hy with
          | head => exact h.asymm hba
          | tail _ hy => exact h.not_less_trans (h.asymm hba) ((pairwise_cons.mp hfirst).1 y hy)
        · exact (pairwise_cons.mp hsecond).1 y hy
    · rintro - back hback c hc
      cases hc
      exact getLast?_maybeAppend h (fun z hz => hrep z hz b (by simp)) hba back hback
  | case2 rep a first b second hba ih =>
    have hba' : cmp b a = false := Bool.eq_false_iff.mpr hba
    have hmerge : merge cmp (a :: first) (b :: second) = a :: merge cmp first (b :: second) := by
      rw [merge, cons_merge_cons, hba']
      rfl
    rw [hmerge]
    have hnext : ∀ z ∈ maybeAppend cmp rep a, ∀ y ∈ first ++ b :: second, cmp y z = false := by
      intro z hz y hy
      rcases mem_maybeAppend hz with hz | rfl
      · exact hrep z hz y (by simp only [mem_append, mem_cons] at hy ⊢; tauto)
      · rcases mem_append.mp hy with hy | hy
        · exact (pairwise_cons.mp hfirst).1 y hy
        · cases hy with
          | head => exact hba'
          | tail _ hy => exact h.not_less_trans hba' ((pairwise_cons.mp hsecond).1 y hy)
    obtain ⟨rep', first', second', hloop, hfold, hdone, hsuffix, hlast⟩ :=
      ih hfirst.tail hsecond hnext nofun
    exact ⟨rep', first', second', hloop, hfold, hdone, hsuffix.trans (suffix_cons a first), hlast⟩
  | case3 rep first second hnot =>
    refine ⟨rep, first, second, rfl, rfl, ?_, suffix_rfl, ?_⟩
    · cases first with
      | nil => exact .inl rfl
      | cons a first =>
        cases second with
        | nil => exact .inr rfl
        | cons b second => exact (hnot a first b second rfl rfl).elim
    · cases second with
      | nil => exact hhead rfl
      | cons b second =>
        cases first with
        | nil => exact fun _ _ _ ha => nomatch ha
        | cons a first => exact (hnot a first b second rfl rfl).elim

variable (hrep : StrictlySorted cmp rep)
include hrep

/-- The one pass offers the elements of the merge one after the other. -/
theorem insertRangeNonAssignable_eq {range : List α} (hrange : range ≠ []) :
    ∃ sorted, IsStableSort cmp range sorted ∧
      insertRangeNonAssignable cmp rep range = (merge cmp rep sorted).foldl (maybeAppend cmp)
        [] := by
  have hsort : IsStableSort cmp range (if range.length > 1 then stableSort cmp range
      else range) := by
    split_ifs with hlength
    · exact isStableSort_mergeSort h range
    · refine isStableSort_self ?_
      cases range with
      | nil => exact List.Pairwise.nil
      | cons x range =>
        have hnil : range = [] := by simpa using hlength
        rw [hnil]
        exact pairwise_singleton _ x
  refine ⟨_, hsort, ?_⟩
  rw [insertRangeNonAssignable, if_neg hrange]
  dsimp only
  generalize (if range.length > 1 then stableSort cmp range else range) = tmp at *
  have htmp : tmp = [] → ∀ back ∈ ([] : List α).getLast?, ∀ a ∈ rep.head?, cmp back a = true :=
    fun _ _ hback => nomatch hback
  obtain ⟨rep', first, second, hloop, hfold, hdone, hsuffix, hlast⟩ :=
    mergeLoop_spec [] rep tmp h (sorted_of_strictlySorted h hrep) hsort.sorted nofun htmp
  rw [hloop, hfold]
  cases first with
  | nil => rw [merge, nil_merge]
  | cons a first =>
    have hsecond : second = [] := hdone.resolve_left (by simp)
    have hfirst : StrictlySorted cmp (a :: first) := hrep.sublist hsuffix.sublist
    rw [hsecond, merge, merge_right, foldl_maybeAppend_strict hfirst hlast]
    cases hback : rep'.getLast? with
    | none => rfl
    | some back => simp [hlast back hback a rfl]

/-- Sort, merge and deduplicate in one pass. -/
theorem keepsFirst_insertRangeNonAssignable (range : List α) :
    KeepsFirst cmp (rep ++ range) (insertRangeNonAssignable cmp rep range) := by
  by_cases hrange : range = []
  · rw [hrange, append_nil]
    exact keepsFirst_self h hrep
  · obtain ⟨sorted, hsort, heq⟩ := insertRangeNonAssignable_eq h hrep hrange
    rw [heq, ← removeDuplicates_eq]
    exact keepsFirst_removeDuplicates h
      (hsort.append (isStableSort_merge h (sorted_of_strictlySorted h hrep) hsort.sorted))

/-! ## Agreement -/

/-- The elements kept are the old ones, and the first of equivalent new ones where no old one is
equivalent. -/
theorem mem_keepsFirst {range result : List α}
    (hresult : KeepsFirst cmp (rep ++ range) result) (x : α) : x ∈ result ↔ x ∈ rep ∨
      (∀ y ∈ rep, equiv cmp x y = false) ∧ range.find? (equiv cmp x) = some x := by
  rw [hresult.mem_iff, find?_append]
  cases hfind : rep.find? (equiv cmp x) with
  | none =>
    have hnone : ∀ y ∈ rep, equiv cmp x y = false :=
      fun y hy => Bool.eq_false_iff.mpr (find?_eq_none.mp hfind y hy)
    have hx : x ∉ rep := by
      intro hx
      rw [((keepsFirst_self h hrep).mem_iff x).mp hx] at hfind
      cases hfind
    exact ⟨fun hr => .inr ⟨hnone, hr⟩, fun hr => (hr.resolve_left hx).2⟩
  | some z =>
    have hxz : equiv cmp x z = true := find?_some hfind
    have hz : z ∈ rep := mem_of_find?_eq_some hfind
    rw [Option.some_or, ← hfind, ← (keepsFirst_self h hrep).mem_iff]
    refine ⟨.inl, fun hor => hor.elim id fun hnone => ?_⟩
    rw [hnone.1 z hz] at hxz
    cases hxz

end

/-- All insertion paths agree. The three ways to insert a range give the same strictly sorted
container, which keeps the old element of each key and otherwise the first of equivalent new ones.
An insertion with any hint gives the container without the hint, and so does one into a container
with duplicates, up to the order of equivalent elements. -/
theorem insertion_paths_agree (h : StrictWeak cmp) (assignable : Bool) :
    (∀ rep range : List α, StrictlySorted cmp rep → ∃ result,
      (∀ copyAssignable, insertRange copyAssignable cmp rep range = result) ∧
      insertRangeNonAssignable cmp rep range = result ∧
      insertEach assignable cmp .keepOldValue rep range = some result ∧ StrictlySorted cmp result ∧
      ∀ x, x ∈ result ↔ x ∈ rep ∨ (∀ y ∈ rep, equiv cmp x y = false) ∧
        range.find? (equiv cmp x) = some x) ∧
    (∀ (rep : List α) (hint : Nat) (v : α), StrictlySorted cmp rep → hint ≤ rep.length →
      ∃ result pos inserted,
        insert assignable cmp .keepOldValue rep v = some (result, pos, inserted) ∧
        insertHint assignable cmp .keepOldValue rep hint v = some (result, pos)) ∧
    ∀ (rep : List α) (hint : Nat) (v : α), Sorted cmp rep → hint ≤ rep.length →
      ∃ result hinted pos place, multiInsert assignable cmp rep v = some (result, pos) ∧
        multiInsertHint assignable cmp rep hint v = some (hinted, place) ∧
        Sorted cmp result ∧ Sorted cmp hinted ∧ hinted.Perm result := by
  refine ⟨fun rep range hrep => ?_, fun rep hint v hrep hhint => ?_,
    fun rep hint v hrep hhint => ?_⟩
  · obtain ⟨result, heach, hkeeps⟩ :=
      keepsFirst_insertEach h (keepsFirst_self h hrep) assignable range
    refine ⟨result, fun copyAssignable => ?_, ?_, heach, hkeeps.strictlySorted,
      mem_keepsFirst h hrep hkeeps⟩
    · exact (keepsFirst_insertRange h hrep copyAssignable range).unique h hkeeps
    · exact (keepsFirst_insertRangeNonAssignable h hrep range).unique h hkeeps
  · obtain ⟨result, pos, inserted, hinsert⟩ :
        ∃ result pos inserted,
          insert assignable cmp .keepOldValue rep v = some (result, pos, inserted) := by
      obtain ⟨front, back, rfl, hfront, hback⟩ | ⟨front, y, back, rfl, hfront, hequiv⟩ :=
        exists_place h hrep v
      · exact ⟨_, _, _, insert_new assignable _ hfront (fun y hy =>
          hback y (mem_of_mem_head? hy)) h⟩
      · exact ⟨_, _, _, insert_present assignable _ hfront hequiv⟩
    refine ⟨result, pos, inserted, hinsert, ?_⟩
    rw [insertHint_eq assignable _ h hrep hhint, hinsert]
    rfl
  · obtain ⟨result, pos, hresult, hsorted, hperm⟩ := multiInsert_spec assignable h hrep v
    obtain ⟨hinted, place, hhinted, hsorted', hperm'⟩ :=
      multiInsertHint_spec assignable h hrep hhint v
    exact ⟨result, hinted, pos, place, hresult, hhinted, hsorted, hsorted', hperm'.trans hperm.symm⟩

/-- Pairs by their first component. -/
def firstLess (a b : Nat × Nat) : Bool :=
  a.1 < b.1

/-- The sample order is a weak one. -/
theorem strictWeak_firstLess : StrictWeak firstLess where
  irrefl a := by simp [firstLess]
  trans a b c := by simp only [firstLess, decide_eq_true_eq]; omega
  incomp_trans a b c := by simp only [firstLess, decide_eq_true_eq]; omega

/-- A key that is there, a new key given twice, and a useless hint. -/
theorem insertion_paths_agree_pairs :
    insertRange true firstLess [(1, 0)] [(2, 5), (1, 7), (2, 6)] = [(1, 0), (2, 5)] ∧
      insertRangeNonAssignable firstLess [(1, 0)] [(2, 5), (1, 7), (2, 6)] = [(1, 0), (2, 5)] ∧
      insertHint true firstLess .keepOldValue [(1, 0), (3, 0)] 0 (2, 5) =
        some ([(1, 0), (2, 5), (3, 0)], 1) := by
  obtain ⟨hrange, hhint, -⟩ := insertion_paths_agree strictWeak_firstLess true
  obtain ⟨result, hbulk, hpass, heach, -, -⟩ :=
    hrange [(1, 0)] [(2, 5), (1, 7), (2, 6)] (pairwise_singleton _ _)
  have hresult : result = [(1, 0), (2, 5)] := (Option.some.inj heach).symm
  obtain ⟨inserted, pos, _, hinsert, hinserted⟩ := hhint [(1, 0), (3, 0)] 0 (2, 5)
    (by simp [StrictlySorted, firstLess]) (by decide)
  cases hinsert
  exact ⟨(hbulk true).trans hresult, hpass.trans hresult, hinserted⟩

end Gloop.Gtl.Flat
