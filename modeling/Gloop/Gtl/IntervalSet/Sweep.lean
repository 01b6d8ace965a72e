import Gloop.Gtl.IntervalSet.Model

/-!
# What the stored intervals stand for

`Separated` is the representation invariant: no stored interval is empty, and each limit lies
strictly below every later start. `covers` is the set of points that a list of intervals stands
for. The lemmas take both apart along `::` and `++`, the shape in which the loops of the model
move through the list.

`Intersection` and `Difference` move an iterator through each of two sets. Both begin at the
position that `FindIntersectionCandidate` returns (`findIntersectionCandidate_spec`) and then go
from one intersecting pair to the next with `FindNextIntersectingPairImpl`
(`findNextIntersectingPair_spec`). A position is written as the length of the part of the list
already passed, so that a state of either loop is a split of both lists.
-/

namespace Gloop.Gtl.IntervalSet

open Gloop.Foundation.OrderedSet
variable {T : Type*} [LinearOrder T]

section

open List

/-- The intervals are non-empty, sorted, pairwise disjoint and non-adjacent. -/
structure Separated (s : List (Interval T)) : Prop where
  nonempty : ∀ i ∈ s, i.start < i.limit
  gaps : s.Pairwise fun a b => a.limit < b.start

/-- The points covered by some interval of the list. -/
def covers (s : List (Interval T)) : Set T :=
  {p | ∃ i ∈ s, p ∈ i.points}

variable {s : List (Interval T)} {i : Interval T} {a b : Interval T}

@[simp] theorem mem_covers {p : T} : p ∈ covers s ↔ ∃ i ∈ s, i.start ≤ p ∧ p < i.limit :=
  Iff.rfl

@[simp] theorem covers_nil : covers ([] : List (Interval T)) = ∅ := by
  ext p
  simp

@[simp] theorem covers_cons (i : Interval T) (s : List (Interval T)) :
    covers (i :: s) = i.points ∪ covers s := by
  ext p
  simp

@[simp] theorem covers_append (s t : List (Interval T)) :
    covers (s ++ t) = covers s ∪ covers t := by
  ext p
  simp only [mem_covers, mem_append, Set.mem_union, or_and_right, exists_or]

variable {t : List (Interval T)}

/-- The points of a set do not depend on the order of its intervals. -/
theorem covers_congr (h : ∀ i, i ∈ s ↔ i ∈ t) : covers s = covers t := by
  ext p
  simp only [mem_covers, h]

theorem separated_nil : Separated ([] : List (Interval T)) :=
  ⟨by simp, .nil⟩

/-- A separated list starts with an interval before all others. -/
theorem separated_cons :
    Separated (i :: s) ↔ i.start < i.limit ∧ (∀ j ∈ s, i.limit < j.start) ∧ Separated s := by
  constructor
  · rintro ⟨hne, hgaps⟩
    obtain ⟨hgap, hs⟩ := pairwise_cons.1 hgaps
    obtain ⟨hi, hne⟩ := forall_mem_cons.1 hne
    exact ⟨hi, hgap, hne, hs⟩
  · rintro ⟨hi, hgap, hne, hs⟩
    exact ⟨forall_mem_cons.2 ⟨hi, hne⟩, pairwise_cons.2 ⟨hgap, hs⟩⟩

/-- Two separated lists, one before the other. -/
theorem separated_append : Separated (s ++ t) ↔
      Separated s ∧ Separated t ∧ ∀ a ∈ s, ∀ b ∈ t, a.limit < b.start := by
  constructor
  · rintro ⟨hne, hgaps⟩
    obtain ⟨hs, ht, hst⟩ := pairwise_append.1 hgaps
    obtain ⟨hnes, hnet⟩ := forall_mem_append.1 hne
    exact ⟨⟨hnes, hs⟩, ⟨hnet, ht⟩, hst⟩
  · rintro ⟨⟨hnes, hs⟩, ⟨hnet, ht⟩, hst⟩
    exact ⟨forall_mem_append.2 ⟨hnes, hnet⟩, pairwise_append.2 ⟨hs, ht, hst⟩⟩

theorem Separated.right (h : Separated (s ++ t)) : Separated t :=
  (separated_append.1 h).2.1

theorem Separated.sublist (h : Separated t) (hst : s.Sublist t) : Separated s :=
  ⟨fun i hi => h.nonempty i (hst.subset hi), h.gaps.sublist hst⟩

theorem separated_singleton : Separated [i] ↔ i.start < i.limit := by
  simp [separated_cons, separated_nil]

/-- Every interval of a separated list starts before the ones after it. -/
theorem Separated.starts (h : Separated (i :: s)) {j : Interval T} (hj : j ∈ s) :
    i.start < j.start := by
  obtain ⟨hi, hgap, -⟩ := separated_cons.1 h
  exact hi.trans (hgap j hj)

/-- In a separated list the first start bounds all starts. -/
theorem Separated.head_le (hs : Separated s) {first : Interval T} (hfirst : first ∈ s.head?)
    (hi : i ∈ s) : first.start ≤ i.start := by
  cases s with
  | nil => simp at hi
  | cons a s =>
    obtain rfl : a = first := by simpa using hfirst
    rcases mem_cons.1 hi with rfl | hi
    · exact le_rfl
    · exact (hs.starts hi).le

/-- An interval of a separated list can be replaced by separated intervals inside it. -/
theorem Separated.refine {front parts back : List (Interval T)} (h : Separated (front ++ i :: back))
    (hparts : Separated parts) (hinside : ∀ p ∈ parts, i.start ≤ p.start ∧ p.limit ≤ i.limit) :
    Separated (front ++ (parts ++ back)) := by
  obtain ⟨hfront, hrest, hgap⟩ := separated_append.1 h
  obtain ⟨-, hback, hsep⟩ := separated_cons.1 hrest
  refine separated_append.2 ⟨hfront, separated_append.2 ⟨hparts, hsep, ?_⟩, ?_⟩
  · intro p hp j hj
    exact (hinside p hp).2.trans_lt (hback j hj)
  · intro j hj
    obtain ⟨hji, hjback⟩ := forall_mem_cons.1 (hgap j hj)
    exact forall_mem_append.2 ⟨fun p hp => hji.trans_le (hinside p hp).1, hjback⟩

/-- `Valid()` computes the representation invariant. -/
theorem valid_iff (prev : Option (Interval T)) (s : List (Interval T)) : valid prev s = true ↔
      Separated s ∧ ∀ p ∈ prev, ∀ i ∈ s, p.limit < i.start := by
  induction s generalizing prev with
  | nil => simp [valid, separated_nil]
  | cons i s ih =>
    rw [valid, separated_cons]
    by_cases hi : i.limit ≤ i.start
    · simp [hi]
    have hlt : i.start < i.limit := not_le.1 hi
    cases prev with
    | none => simp [hi, hlt, ih, and_comm]
    | some p =>
      by_cases hp : i.start ≤ p.limit
      · simp [hp]
      · have hpi : p.limit < i.start := not_le.1 hp
        have hall (hs : ∀ j ∈ s, i.limit < j.start) : ∀ j ∈ s, p.limit < j.start :=
          fun j hj => hpi.trans (hlt.trans (hs j hj))
        simp only [hi, ↓reduceIte, Option.any_some, hp, decide_false,
          Bool.false_eq_true, ih, Option.mem_some_iff, forall_eq', mem_cons, forall_eq_or_imp]
        tauto

/-! ## The order of the stored intervals -/

/-- Intervals compare by their starts, and longer ones come first. -/
theorem intervalLess_iff : intervalLess a b = true ↔
      a.start < b.start ∨ (a.start = b.start ∧ b.limit < a.limit) := by
  simp [intervalLess]

theorem intervalLess_eq_false : intervalLess a b = false ↔
      b.start < a.start ∨ (a.start = b.start ∧ a.limit ≤ b.limit) := by
  rw [← Bool.not_eq_true, intervalLess_iff]
  grind

theorem start_le_of_intervalLess (h : intervalLess a b = true) : a.start ≤ b.start :=
  (intervalLess_iff.1 h).elim le_of_lt fun h => h.1.le

/-- An interval that starts earlier comes first. -/
theorem intervalLess_of_start (h : a.start < b.start) :
    intervalLess a b = true ∧ intervalLess b a = false :=
  ⟨intervalLess_iff.2 (.inl h), intervalLess_eq_false.2 (.inl h)⟩

/-- `IntervalLess` is a strict total order, so an ordered set holds an interval at most once. -/
theorem intervalLess_strictTotal : StrictTotal (intervalLess (T := T)) where
  irrefl x := by simp [intervalLess]
  trans := by
    intro x y z hxy hyz
    rw [intervalLess_iff] at *
    grind
  trichotomy := by
    rintro ⟨xs, xl⟩ ⟨ys, yl⟩ hxy hyx
    rw [intervalLess_eq_false] at hxy hyx
    grind

/-- Separated intervals are sorted. -/
theorem Separated.sorted (h : Separated s) : s.Pairwise (intervalLess · · = true) := by
  induction s with
  | nil => exact .nil
  | cons i s ih =>
    refine pairwise_cons.2 ⟨fun j hj => ?_, ih (separated_cons.1 h).2.2⟩
    exact (intervalLess_of_start (h.starts hj)).1

/-! ## Replacing an interval in place -/

variable {front back : List (Interval T)}

/-- An interval that starts between `front` and `back` is inserted between them. -/
theorem insert_between {new : Interval T}
    (hfront : ∀ j ∈ front, j.start < new.start) (hback : ∀ j ∈ back, new.start < j.start) :
    insert intervalLess (front ++ back) new = (front ++ new :: back, front.length, true) :=
  insert_split (fun j hj => (intervalLess_of_start (hfront j hj)).1)
    (fun j hj => intervalLess_of_start (hback j (mem_of_mem_head? hj)))

/-- A replacement that keeps the order of the starts stays at its position. -/
theorem replaceInterval_split {old new : Interval T}
    (hfront : ∀ j ∈ front, j.start < new.start) (hback : ∀ j ∈ back, new.start < j.start) :
    replaceInterval (front ++ old :: back) front.length new =
      some (front ++ new :: back, front.length) := by
  simp [replaceInterval, erase_split, insert_between hfront hback]

variable (h : Separated (front ++ i :: back))
include h

/-- In a separated list the starts tell where an interval belongs. -/
theorem Separated.around : (∀ j ∈ front, j.start < i.start) ∧ ∀ j ∈ back, i.start < j.start := by
  obtain ⟨hfront, hback, hgap⟩ := separated_append.1 h
  exact ⟨fun j hj => (hfront.nonempty j hj).trans (hgap j hj i (by simp)),
    fun j hj => hback.starts hj⟩

theorem Separated.insert_eq :
    insert intervalLess (front ++ back) i = (front ++ i :: back, front.length, true) :=
  insert_between h.around.1 h.around.2

/-- An interval is replaced in its place. -/
theorem Separated.replaceInterval_eq {old : Interval T} :
    replaceInterval (front ++ old :: back) front.length i =
      some (front ++ i :: back, front.length) :=
  replaceInterval_split h.around.1 h.around.2

end

/-! ## Walking over two interval sets -/

open Gloop.Foundation List Set

/-- Intervals whose limits lie below the starts of all others cover none of their points. -/
theorem covers_disjoint {s t : List (Interval T)}
    (h : ∀ a ∈ s, ∀ b ∈ t, a.limit ≤ b.start) : Disjoint (covers s) (covers t) := by
  rw [Set.disjoint_left]
  rintro p ⟨a, ha, hpa⟩ ⟨b, hb, hpb⟩
  exact disjoint_left.1 (Interval.points_disjoint_of_le (h a ha b hb)) hpa hpb

variable {s : List (Interval T)} {i : Interval T}

/-- An interval has nothing in common with later ones. -/
theorem points_disjoint_covers (h : ∀ b ∈ s, i.limit ≤ b.start) : Disjoint i.points (covers s) := by
  have hdisjoint : Disjoint (covers [i]) (covers s) := covers_disjoint (by simpa using h)
  simpa using hdisjoint

/-- An interval has nothing in common with earlier ones. -/
theorem covers_disjoint_points (h : ∀ a ∈ s, a.limit ≤ i.start) : Disjoint (covers s) i.points := by
  have hdisjoint : Disjoint (covers s) (covers [i]) := covers_disjoint (by simpa using h)
  simpa using hdisjoint

/-- No interval ends after the last one. -/
theorem Separated.le_last (hs : Separated s) {last : Interval T} (hlast : last ∈ s.getLast?)
    (hi : i ∈ s) : i.limit ≤ last.limit := by
  rcases eq_nil_or_concat s with rfl | ⟨front, a, rfl⟩
  · simp at hi
  · obtain rfl : a = last := by simpa using hlast
    rw [concat_eq_append] at hs hi
    obtain ⟨-, ha, hgap⟩ := separated_append.1 hs
    rcases mem_append.1 hi with hi | hi
    · exact ((hgap i hi a (by simp)).trans (separated_singleton.1 ha)).le
    · exact (mem_singleton.1 hi ▸ le_rfl)

omit [LinearOrder T] in
theorem exists_ends (hi : i ∈ s) : ∃ first last, s.head? = some first ∧ s.getLast? = some last := by
  have hne : s ≠ [] := ne_nil_of_mem hi
  exact ⟨s.head hne, s.getLast hne, head?_eq_some_head hne, getLast?_eq_some_getLast hne⟩

variable {other : List (Interval T)}

/-- Sets whose spanning intervals lie apart have no common point. -/
theorem spansDisjoint_spec (hs : Separated s) (hother : Separated other)
    (h : spansDisjoint s other = true) : Disjoint (covers s) (covers other) := by
  rw [Set.disjoint_left]
  rintro p ⟨i, hi, hip⟩ ⟨j, hj, hjp⟩
  obtain ⟨first, last, hfirst, hlast⟩ := exists_ends hi
  obtain ⟨ofirst, olast, hofirst, holast⟩ := exists_ends hj
  simp only [spansDisjoint, hfirst, hlast, hofirst, holast, Bool.or_eq_true, decide_eq_true_eq] at h
  have h₁ : first.start ≤ i.start := hs.head_le hfirst hi
  have h₂ : i.limit ≤ last.limit := hs.le_last hlast hi
  have h₃ : ofirst.start ≤ j.start := hother.head_le hofirst hj
  have h₄ : j.limit ≤ olast.limit := hother.le_last holast hj
  obtain ⟨hip₁, hip₂⟩ := hip
  obtain ⟨hjp₁, hjp₂⟩ := hjp
  rcases h with h | h <;> order

/-- Sets whose spans meet are not empty. -/
theorem spans_ne_nil (h : spansDisjoint s other = false) : s ≠ [] ∧ other ≠ [] := by
  constructor <;> rintro rfl <;> simp [spansDisjoint] at h

/-- The candidate splits a non-empty set: everything before it ends before the interval starts,
and everything after it starts no earlier than the interval. -/
theorem findIntersectionCandidate_spec (hs : Separated s) (hne : s ≠ []) (interval : Interval T) :
    ∃ front first rest, s = front ++ first :: rest ∧
      findIntersectionCandidate s interval = front.length ∧
        (∀ i ∈ front, i.limit < interval.start) ∧ ∀ i ∈ rest, interval.start ≤ i.start := by
  obtain ⟨below, above, hsplit, hposition, hbelow, habove⟩ :=
    exists_findIdx_split (intervalLess interval) s
  have hstarts : ∀ i ∈ above, interval.start ≤ i.start := by
    intro i hi
    cases above with
    | nil => simp at hi
    | cons a above =>
      have ha : interval.start ≤ a.start := start_le_of_intervalLess (habove a rfl)
      exact ha.trans ((hsplit ▸ hs).right.head_le rfl hi)
  unfold findIntersectionCandidate upperBound
  rw [hposition]
  rcases eq_nil_or_concat below with rfl | ⟨front, first, rfl⟩
  · cases above with
    | nil => exact absurd hsplit hne
    | cons first rest =>
      exact ⟨[], first, rest, hsplit, rfl, by simp, fun i hi => hstarts i (by simp [hi])⟩
  · refine ⟨front, first, above, by simpa using hsplit, by simp, ?_, hstarts⟩
    intro i hi
    have hfirst : first.start ≤ interval.start := by
      rcases intervalLess_eq_false.1 (hbelow first (by simp)) with h | ⟨h, -⟩
      · exact h.le
      · exact h.ge
    have hsep : Separated (front.concat first) := (separated_append.1 (hsplit ▸ hs)).1
    rw [concat_eq_append] at hsep
    exact ((separated_append.1 hsep).2.2 i hi first (by simp)).trans_le hfirst

/-- The positions before the candidate cover no point of a set that begins with the interval. -/
theorem candidate_spec (hs : Separated s) (hne : s ≠ [])
    {first : Interval T} (hother : Separated (first :: other)) :
    ∃ front m rest, s = front ++ m :: rest ∧ findIntersectionCandidate s first = front.length ∧
      Separated (m :: rest) ∧ Disjoint (covers front) (covers (first :: other)) := by
  obtain ⟨front, m, rest, hsplit, hmine, hfront, -⟩ := findIntersectionCandidate_spec hs hne first
  refine ⟨front, m, rest, hsplit, hmine, (hsplit ▸ hs).right, ?_⟩
  exact covers_disjoint fun a ha b hb => (hfront a ha).le.trans (hother.head_le rfl hb)

variable {otodo todo hole skipped todo' otodo' : List (Interval T)}

/-- What is before the candidates of two sets does not count for their common points. -/
theorem inter_candidates {s front rest other odone : List (Interval T)} (hsplit : s = front ++ rest)
    (hosplit : other = odone ++ otodo) (hfront : Disjoint (covers front) (covers other))
    (hofront : Disjoint (covers odone) (covers rest)) :
    covers s ∩ covers other = covers rest ∩ covers otodo := by
  rw [hsplit, covers_append, union_inter_distrib_right, hfront.inter_eq, hosplit,
    covers_append, inter_union_distrib_left, hofront.symm.inter_eq]
  simp

/-! ## From one intersecting pair to the next -/

/-- What an `on_hole` does to the intervals of a hole: it puts `keep hole` in their place and
returns the position behind them. -/
structure HoleRule (onHole : OnHole T) (keep : List (Interval T) → List (Interval T)) : Prop where
  apply : ∀ front hole rest,
    onHole (front ++ (hole ++ rest)) front.length (front.length + hole.length) =
      (front ++ keep hole ++ rest, (front ++ keep hole).length)
  nil : keep [] = []
  append : ∀ a b, keep (a ++ b) = keep a ++ keep b

omit [LinearOrder T] in
theorem keepHoles_rule : HoleRule (keepHoles (T := T)) id where
  apply front hole rest := by simp [keepHoles]
  nil := rfl
  append _ _ := rfl

omit [LinearOrder T] in
theorem eraseHoles_rule : HoleRule (eraseHoles (T := T)) (fun _ => []) where
  apply front hole rest := by simp [eraseHoles, eraseRange_split]
  nil := rfl
  append _ _ := rfl

/-- Two iterators have moved over `hole` and over `skipped` to the beginnings of `todo'` and
`otodo'`, and no point of the intersection was passed. -/
structure Swept (todo otodo hole todo' skipped otodo' : List (Interval T)) : Prop where
  todo_eq : todo = hole ++ todo'
  otodo_eq : otodo = skipped ++ otodo'
  hole_disjoint : Disjoint (covers hole) (covers otodo)
  skipped_disjoint : Disjoint (covers skipped) (covers todo')

theorem Swept.refl (todo otodo : List (Interval T)) : Swept todo otodo [] todo [] otodo :=
  ⟨rfl, rfl, by simp, by simp⟩

theorem Swept.trans {todo₁ otodo₁ hole₁ todo₂ skipped₁ otodo₂ : List (Interval T)}
    (h : Swept todo otodo hole todo₁ skipped otodo₁)
    (h₁ : Swept todo₁ otodo₁ hole₁ todo₂ skipped₁ otodo₂) :
    Swept todo otodo (hole ++ hole₁) todo₂ (skipped ++ skipped₁) otodo₂ := by
  obtain ⟨rfl, rfl, hhole, hskipped⟩ := h
  obtain ⟨rfl, rfl, hhole₁, hskipped₁⟩ := h₁
  simp only [covers_append, disjoint_union_right] at hhole hskipped hhole₁
  refine ⟨by simp, by simp, ?_, ?_⟩
  · rw [covers_append, disjoint_union_left]
    simp only [covers_append, disjoint_union_right]
    exact ⟨hhole, hskipped.1.symm, hhole₁⟩
  · rw [covers_append, disjoint_union_left]
    exact ⟨hskipped.2, hskipped₁⟩

/-- A sweep passes nothing that is in both sets. -/
theorem Swept.inter_eq (h : Swept todo otodo hole todo' skipped otodo') :
    covers todo ∩ covers otodo = covers todo' ∩ covers otodo' := by
  obtain ⟨rfl, rfl, hhole, hskipped⟩ := h
  rw [covers_append, union_inter_distrib_right, hhole.inter_eq, empty_union,
    covers_append, inter_union_distrib_left, hskipped.symm.inter_eq, empty_union]

/-- What a sweep passes is not in the other set. -/
theorem Swept.diff_eq (h : Swept todo otodo hole todo' skipped otodo') :
    covers todo \ covers otodo = covers hole ∪ (covers todo' \ covers otodo') := by
  obtain ⟨rfl, rfl, hhole, hskipped⟩ := h
  rw [covers_append, union_sdiff_distrib, hhole.sdiff_eq_left, covers_append,
    ← sdiff_sdiff, hskipped.symm.sdiff_eq_left]

/-- Passing the intervals of `todo` that end before `otodo` begins, and then those of `otodo` that
end before the rest of `todo` begins. -/
theorem swept_pass {todo todo' hole otodo otodo' skipped : List (Interval T)} {t m : Interval T}
    (htodo : Separated (hole ++ m :: todo')) (hotodo : Separated (t :: otodo))
    (hsplit : t :: otodo = skipped ++ otodo') (hhole : ∀ i ∈ hole, i.limit ≤ t.start)
    (hskipped : ∀ i ∈ skipped, i.limit ≤ m.start) (heq : todo = hole ++ m :: todo') :
      Swept todo (t :: otodo) hole (m :: todo') skipped otodo' := by
  refine ⟨heq, hsplit, covers_disjoint fun a ha b hb => ?_, covers_disjoint fun a ha b hb => ?_⟩
  · exact (hhole a ha).trans (hotodo.head_le rfl hb)
  · exact (hskipped a ha).trans (htodo.right.head_le rfl hb)

/-- The possible results of `FindNextIntersectingPairImpl`: the iterators stand at the next
intersecting pair, or there is none and the whole rest was a hole. -/
inductive NextPair (keep : List (Interval T) → List (Interval T))
    (done todo odone otodo : List (Interval T)) :
      Option (Bool × List (Interval T) × Nat × Nat) → Prop
  | found {hole todo' skipped otodo' : List (Interval T)} {m t : Interval T}
      (hswept : Swept todo otodo hole (m :: todo') skipped (t :: otodo'))
      (hmeet : m.intersects t = true) :
      NextPair keep done todo odone otodo (some (true, done ++ keep hole ++ m :: todo',
        (done ++ keep hole).length, (odone ++ skipped).length))
  | none (hdisjoint : Disjoint (covers todo) (covers otodo)) (mine theirs : Nat) :
      NextPair keep done todo odone otodo (some (false, done ++ keep todo, mine, theirs))

variable {keep : List (Interval T) → List (Interval T)} {onHole : OnHole T}
  (hrule : HoleRule onHole keep)
include hrule

/-- A pair found behind holes is found from in front of them. -/
theorem NextPair.after {done todo odone otodo hole todo₁ skipped otodo₁ : List (Interval T)}
    {result : Option (Bool × List (Interval T) × Nat × Nat)}
    (hswept : Swept todo otodo hole todo₁ skipped otodo₁)
    (h : NextPair keep (done ++ keep hole) todo₁ (odone ++ skipped) otodo₁ result) :
    NextPair keep done todo odone otodo result := by
  cases h with
  | found hnext hmeet =>
    have hfound : NextPair keep done todo odone otodo _ := .found (hswept.trans hnext) hmeet
    simpa [hrule.append] using hfound
  | none hdisjoint mine theirs =>
    have hnone : Disjoint (covers todo) (covers otodo) := by
      rw [disjoint_iff_inter_eq_empty, hswept.inter_eq, hdisjoint.inter_eq]
    have hall : NextPair keep done todo odone otodo _ := .none hnone mine theirs
    have htodo := hswept.todo_eq
    subst htodo
    simpa [hrule.append] using hall

/-- One pass through the loop of `FindNextIntersectingPairImpl` that finds the first intervals
apart: it ends the search, or moves at least one iterator. -/
theorem findNextStep_apart (done odone : List (Interval T))
    {m t : Interval T} {todo otodo : List (Interval T)} (htodo : Separated (m :: todo))
    (hotodo : Separated (t :: otodo)) (hapart : m.intersects t = false) :
    (∃ hole m' todo' skipped t' otodo',
      Swept (m :: todo) (t :: otodo) hole (m' :: todo') skipped (t' :: otodo') ∧
      0 < hole.length + skipped.length ∧
      findNextStep onHole (odone ++ t :: otodo) (done ++ m :: todo, done.length, odone.length) =
        some (.inl (done ++ keep hole ++ m' :: todo', (done ++ keep hole).length,
          (odone ++ skipped).length))) ∨
    Disjoint (covers (m :: todo)) (covers (t :: otodo)) ∧ ∃ mine theirs,
      findNextStep onHole (odone ++ t :: otodo) (done ++ m :: todo, done.length, odone.length) =
        some (.inr (false, done ++ keep (m :: todo), mine, theirs)) := by
  obtain ⟨hole, rest, hsplit, htake, -, hhole, hrest⟩ :=
    exists_takeWhile_split (fun i : Interval T => i.limit ≤ t.start) (m :: todo)
  have hreach := advanceWhile_split (fun i : Interval T => i.limit ≤ t.start) done (m :: todo)
  rw [htake] at hreach
  have happly := hrule.apply done hole rest
  rw [← hsplit] at happly
  have hholeDisjoint : ∀ i ∈ hole, i.limit ≤ t.start := fun i hi => by simpa using hhole i hi
  have hm := getElem?_split done m todo
  have ht := getElem?_split odone t otodo
  simp only [findNextStep, hm, ht, hapart, hreach, happly, Option.bind_eq_bind, Option.bind_some,
    Bool.false_eq_true, ↓reduceIte, Option.pure_def]
  cases rest with
  | nil =>
    right
    rw [append_nil] at hsplit
    subst hsplit
    refine ⟨covers_disjoint fun a ha b hb => ?_, (done ++ keep (m :: todo)).length, odone.length,
      ?_⟩
    · exact (hholeDisjoint a ha).trans (hotodo.head_le rfl hb)
    · simp
  | cons m' todo' =>
    obtain ⟨skipped, orest, hosplit, hotake, -, hskipped, horest⟩ :=
      exists_takeWhile_split (fun i : Interval T => i.limit ≤ m'.start) (t :: otodo)
    have horeach :=
      advanceWhile_split (fun i : Interval T => i.limit ≤ m'.start) odone (t :: otodo)
    rw [hotake] at horeach
    have hswept : Swept (m :: todo) (t :: otodo) hole (m' :: todo') skipped orest :=
      swept_pass (hsplit ▸ htodo) hotodo hosplit hholeDisjoint
        (fun i hi => by simpa using hskipped i hi) hsplit
    cases orest with
    | nil =>
      right
      rw [append_nil] at hosplit
      subst hosplit
      have hend := hrule.apply (done ++ keep hole) (m' :: todo') []
      refine ⟨?_, (done ++ keep (m :: todo)).length, (odone ++ t :: otodo).length, ?_⟩
      · rw [disjoint_iff_inter_eq_empty, hswept.inter_eq]
        simp
      · rw [append_nil, ← length_append] at hend
        rw [append_nil] at hend
        simp only [getElem?_split, horeach, hend]
        rw [← length_append, if_pos rfl, hsplit, hrule.append, append_assoc]
    | cons t' otodo' =>
      refine .inl ⟨hole, m', todo', skipped, t', otodo', hswept, ?_, ?_⟩
      · -- Neither iterator can stay where it is.
        by_contra hzero
        obtain ⟨hhole0, hskipped0⟩ : hole = [] ∧ skipped = [] := by
          constructor <;> refine length_eq_zero_iff.1 ?_ <;> omega
        subst hhole0 hskipped0
        obtain ⟨⟨rfl, -⟩, rfl, -⟩ := And.intro hsplit hosplit
        have hm : m.start < m.limit := (separated_cons.1 htodo).1
        have ht : t.start < t.limit := (separated_cons.1 hotodo).1
        rcases Interval.before_or_after hm ht hapart with h | h
        · simpa [h] using hrest m rfl
        · simpa [h] using horest t rfl
      · have hbefore : odone.length + skipped.length ≠ (odone ++ t :: otodo).length := by
          rw [hosplit]
          simp
        simp only [getElem?_split, horeach]
        rw [if_neg hbefore, ← length_append]

/-- The loop of `FindNextIntersectingPairImpl` from any position in both lists. -/
theorem iterate_findNextStep (done todo odone otodo : List (Interval T))
    (htodo : Separated todo) (hotodo : Separated otodo) (hne : todo ≠ []) (hone : otodo ≠ []) :
    NextPair keep done todo odone otodo
      (iterate (findNextStep onHole (odone ++ otodo))
        (done ++ todo, done.length, odone.length)) := by
  -- Every pass that continues shortens what is left of the two lists together.
  induction hn : todo.length + otodo.length using Nat.strongRecOn
    generalizing done todo odone otodo with
  | ind n ih =>
    obtain ⟨m, todoTail, rfl⟩ := exists_cons_of_ne_nil hne
    obtain ⟨t, otodoTail, rfl⟩ := exists_cons_of_ne_nil hone
    cases hmeet : m.intersects t with
    | true =>
      have hstep : findNextStep onHole (odone ++ t :: otodoTail)
          (done ++ m :: todoTail, done.length, odone.length) =
            some (.inr (true, done ++ m :: todoTail, done.length, odone.length)) := by
        simp [findNextStep, hmeet]
      have hfound : NextPair keep done (m :: todoTail) odone (t :: otodoTail) _ :=
        .found (Swept.refl _ _) hmeet
      rw [iterate_done hstep]
      simpa [hrule.nil] using hfound
    | false =>
      rcases findNextStep_apart hrule done odone htodo hotodo hmeet with
        ⟨hole, m', todo', skipped, t', otodo', hswept, hmoved, hstep⟩ |
        ⟨hdisjoint, mine, theirs, hstep⟩
      · have hsepTodo := (hswept.todo_eq ▸ htodo).right
        have hsepOtodo := (hswept.otodo_eq ▸ hotodo).right
        have hless : (m' :: todo').length + (t' :: otodo').length < n := by
          have h₁ := congrArg length hswept.todo_eq
          have h₂ := congrArg length hswept.otodo_eq
          simp only [length_append] at h₁ h₂
          omega
        have hmore := ih _ hless (done ++ keep hole) (m' :: todo') (odone ++ skipped)
          (t' :: otodo') hsepTodo hsepOtodo (by simp) (by simp) rfl
        rw [append_assoc, ← hswept.otodo_eq] at hmore
        rw [iterate_next hstep]
        exact hmore.after hrule hswept
      · rw [iterate_done hstep]
        exact .none hdisjoint mine theirs

/-- `FindNextIntersectingPairImpl`, which leaves the set as it is when an iterator is at its end. -/
theorem findNextIntersectingPair_spec (done odone : List (Interval T))
    {todo otodo : List (Interval T)} (htodo : Separated todo) (hotodo : Separated otodo)
    (hkeep : otodo = [] → keep todo = todo) : NextPair keep done todo odone otodo
      (findNextIntersectingPair onHole (done ++ todo)
        (odone ++ otodo) done.length odone.length) := by
  unfold findNextIntersectingPair
  by_cases hend : todo = [] ∨ otodo = []
  · have hsame : keep todo = todo := hend.elim (fun h => h ▸ hrule.nil) hkeep
    have hdisjoint : Disjoint (covers todo) (covers otodo) := by
      rcases hend with rfl | rfl <;> simp
    have hnone := @NextPair.none T _ keep done todo odone otodo hdisjoint
    rw [hsame] at hnone
    rw [if_pos (by simpa using hend)]
    exact hnone _ _
  · obtain ⟨hne, hone⟩ := not_or.1 hend
    rw [if_neg (by simp [hne, hone])]
    exact iterate_findNextStep hrule done todo odone otodo htodo hotodo hne hone

end Gloop.Gtl.IntervalSet
