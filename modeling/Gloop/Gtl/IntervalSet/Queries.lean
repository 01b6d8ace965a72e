import Gloop.Gtl.IntervalSet.Sweep

/-!
# Queries

What the functions that read an interval set compute, in terms of its stored intervals. Each search
ends one step behind the only interval that can be the answer, and `before_split` names that
interval.
-/

namespace Gloop.Gtl.IntervalSet

open List Option
open Gtl.Interval (containsInterval_iff contains_iff)
open Gloop.Foundation.OrderedSet

variable {T : Type*} [LinearOrder T] {s other : List (Interval T)} {v : T} {i : Interval T}

omit [LinearOrder T] in
theorem before_split (front back : List (Interval T)) :
    before (front ++ back) front.length = front.getLast? := by
  rcases eq_nil_or_concat front with rfl | ⟨front, c, rfl⟩
  · rfl
  · simp [before]

/-! ## The interval that covers a probe -/

/-- The search for the first interval with `p` passes an interval that covers the probe, with those
that start before it, and stops at those behind it. -/
structure Passes (p covering : Interval T → Bool) : Prop where
  here : ∀ j, covering j = true → p j = false
  below : ∀ j e, covering j = true → e.start < j.start → p e = false
  above : ∀ j e, covering j = true → j.limit < e.start → p e = true

/-- The search for a value passes the intervals that start up to it. -/
theorem passes_value (v : T) : Passes (pointLessInterval v) (·.contains v) where
  here j hj := by
    simpa [pointLessInterval] using (contains_iff.1 hj).1
  below j e hj he := by
    simpa [pointLessInterval] using (he.trans_le (contains_iff.1 hj).1).le
  above j e hj he := by
    simpa [pointLessInterval] using (contains_iff.1 hj).2.trans he

/-- The search for an interval passes those that are not greater. -/
theorem passes_interval (i : Interval T) : Passes (intervalLess i) (·.containsInterval i) where
  here j hj := by
    obtain ⟨-, -, hstart, hlimit⟩ := containsInterval_iff.1 hj
    exact intervalLess_eq_false.2 (hstart.lt_or_eq.imp_right fun h => ⟨h.symm, hlimit⟩)
  below j e hj he := by
    obtain ⟨-, -, hstart, -⟩ := containsInterval_iff.1 hj
    exact (intervalLess_of_start (he.trans_le hstart)).2
  above j e hj he := by
    obtain ⟨-, hi, -, hlimit⟩ := containsInterval_iff.1 hj
    exact (intervalLess_of_start (hi.trans (hlimit.trans_lt he))).1

section Cover

variable {p covering : Interval T → Bool}

/-- An interval that covers the probe is the one before the end of the search. -/
theorem Passes.before_eq (h : Passes p covering) (hs : Separated s) {j : Interval T} (hj : j ∈ s)
    (hcover : covering j = true) : before s (s.findIdx p) = some j ∧
      s[s.findIdx p - 1]? = some j := by
  obtain ⟨front, back, rfl⟩ := append_of_mem hj
  obtain ⟨hfront, hrest, hgap⟩ := separated_append.1 hs
  have hidx : (front ++ [j] ++ back).findIdx p = (front ++ [j]).length := by
    refine findIdx_split (forall_mem_append.2 ⟨fun e he => ?_, by simpa using h.here j hcover⟩)
      fun e he => ?_
    · exact h.below j e hcover ((hfront.nonempty e he).trans (hgap e he j (by simp)))
    · exact h.above j e hcover ((separated_cons.1 hrest).2.1 e (mem_of_mem_head? he))
  have hbefore := before_split (front ++ [j]) back
  rw [← hidx] at hbefore
  simp only [← append_cons, getLast?_append_cons] at hidx hbefore
  exact ⟨hbefore, by simp [hidx]⟩

/-- The interval before the place that is found is the only one to look at. -/
theorem Passes.any_iff (h : Passes p covering) (hs : Separated s) :
    (before s (s.findIdx p)).any covering = true ↔ ∃ j ∈ s, covering j = true := by
  constructor
  · intro hany
    obtain ⟨j, hj, hcover⟩ := (any_eq_true _ _).1 hany
    unfold before at hj
    split at hj
    · cases hj
    · exact ⟨j, mem_of_getElem? hj, hcover⟩
  · rintro ⟨j, hj, hcover⟩
    rw [(h.before_eq hs hj hcover).1]
    exact hcover

/-- `Find` returns the interval that covers the probe, if there is one. -/
theorem Passes.find (h : Passes p covering) (hs : Separated s) (found : Nat)
    (hfound : found = if (before s (s.findIdx p)).any covering then s.findIdx p - 1 else s.length) :
    (found ≠ s.length ↔ ∃ j ∈ s, covering j = true) ∧ ∀ j ∈ s, covering j = true →
      s[found]? = some j := by
  subst hfound
  by_cases hany : (before s (s.findIdx p)).any covering = true
  · rw [if_pos hany]
    obtain ⟨j, hj, hcover⟩ := (h.any_iff hs).1 hany
    have hlt := (List.getElem?_eq_some_iff.1 (h.before_eq hs hj hcover).2).1
    exact ⟨⟨fun _ => ⟨j, hj, hcover⟩, fun _ => hlt.ne⟩,
      fun j hj hcover => (h.before_eq hs hj hcover).2⟩
  · rw [if_neg hany]
    rw [h.any_iff hs] at hany
    exact ⟨⟨fun hne => absurd rfl hne, fun hex => absurd hex hany⟩,
      fun j hj hcover => absurd ⟨j, hj, hcover⟩ hany⟩

end Cover

/-! ## Bounds and overlaps -/

/-- `LowerBound` returns the first interval that ends behind the value. -/
theorem lowerBoundValue_eq (hs : Separated s) (v : T) :
    lowerBoundValue s v = s.findIdx (v < ·.limit) := by
  obtain ⟨front, back, rfl, hidx, hfront, hback⟩ :=
    exists_findIdx_split (fun i : Interval T => decide (v < i.limit)) s
  simp only [decide_eq_false_iff_not, not_lt, decide_eq_true_eq] at hfront hback
  have hless : ∀ i ∈ front, (!intervalLessPoint i v) = false := fun i hi => by
    have hi' := (hs.nonempty i (by simp [hi])).trans_le (hfront i hi)
    simp [intervalLessPoint, hi']
  rw [hidx, lowerBoundValue]
  by_cases hcover : ∃ j ∈ back.head?, j.start ≤ v
  · -- the value lies in the interval, and the search ends behind it
    obtain ⟨j, hj, hstart⟩ := hcover
    obtain ⟨back, rfl⟩ : ∃ rest, back = j :: rest := by
      cases back <;> simp_all
    have hlimit := hback j rfl
    have hafter := (separated_cons.1 (separated_append.1 hs).2.1).2.1
    have hit : (front ++ [j] ++ back).findIdx (!intervalLessPoint · v) = (front ++ [j]).length := by
      refine findIdx_split (forall_mem_append.2 ⟨hless, ?_⟩) fun e he => ?_
      · simpa [intervalLessPoint, hlimit] using fun hle => hstart.antisymm hle
      · have he' := hlimit.trans (hafter e (mem_of_mem_head? he))
        simp [intervalLessPoint, he'.le, he'.ne']
    have hbefore := before_split (front ++ [j]) back
    rw [← hit] at hbefore
    simp only [← append_cons] at hit hbefore
    rw [hbefore, hit]
    simp [Interval.contains, hstart, hlimit]
  · have hit : (front ++ back).findIdx (!intervalLessPoint · v) = front.length := by
      refine findIdx_split hless fun e he => ?_
      have he' : v < e.start := not_le.1 fun hle => hcover ⟨e, he, hle⟩
      simp [intervalLessPoint, he'.le, he'.ne']
    have hany : ¬ (front.getLast?.any (·.contains v) = true) := fun hany => by
      obtain ⟨j, hj, hcontains⟩ := (any_eq_true _ _).1 hany
      exact absurd (contains_iff.1 hcontains).2 (not_lt.2 (hfront j (mem_of_getLast? hj)))
    rw [hit, before_split, if_neg hany]

/-- `IsDisjoint` looks at the intervals on both sides of the start. -/
theorem isDisjoint_iff (hs : Separated s) : isDisjoint s i = true ↔
      i.limit ≤ i.start ∨ ∀ j ∈ s, ¬ (j.start < i.limit ∧ i.start < j.limit) := by
  unfold isDisjoint
  cases hempty : i.empty with
  | true => simpa using .inl (Interval.empty_eq_true.1 hempty)
  | false =>
    have hi := Interval.empty_eq_false.1 hempty
    obtain ⟨below, above, rfl, hidx, hbelow, habove⟩ :=
      exists_findIdx_split (pointLessInterval i.start) s
    simp only [pointLessInterval, decide_eq_false_iff_not, not_lt, decide_eq_true_eq]
      at hbelow habove
    obtain ⟨hsepBelow, hsepAbove, -⟩ := separated_append.1 hs
    have hat : (below ++ above)[below.length]? = above.head? := by
      rw [List.getElem?_append_right le_rfl, Nat.sub_self, List.head?_eq_getElem?]
    simp only [hidx, hat, before_split, List.forall_mem_append]
    -- the first interval above and the last one below are the nearest ones
    have hnear : (∀ j ∈ above, ¬ (j.start < i.limit ∧ i.start < j.limit)) ↔
        above.head?.any (i.limit > ·.start) = false := by
      cases above with
      | nil => simp
      | cons a above =>
        have ha := (habove a rfl).trans (hsepAbove.nonempty a (by simp))
        simp only [List.head?_cons, Option.any_some, decide_eq_false_iff_not, not_lt]
        refine ⟨fun h => not_lt.1 fun hlt => h a (by simp) ⟨hlt, ha⟩, fun h j hj hmeet => ?_⟩
        exact absurd hmeet.1 (not_lt.2 (h.trans (hsepAbove.head_le rfl hj)))
    have hlast : (∀ j ∈ below, ¬ (j.start < i.limit ∧ i.start < j.limit)) ↔
        below.getLast?.all (·.limit ≤ i.start) = true := by
      rw [Option.all_eq_true]
      constructor
      · intro h c hc
        have hmem := List.mem_of_getLast? hc
        simpa using fun hlt => h c hmem ⟨(hbelow c hmem).trans_lt hi, hlt⟩
      · intro h j hj hmeet
        obtain ⟨-, c, -, hc⟩ := exists_ends hj
        have hle : c.limit ≤ i.start := by simpa using h c hc
        exact absurd hmeet.2 (not_lt.2 ((hsepBelow.le_last hc hj).trans hle))
    rw [hnear, hlast]
    cases above.head?.any (i.limit > ·.start) <;> simp [hi]

/-- `Intersects` finds an interval of each set that overlap, if there are such. -/
theorem intersects_iff (hs : Separated s) (hother : Separated other) :
    ∃ found, intersects s other = some found ∧
      (found = true ↔ ∃ a ∈ s, ∃ b ∈ other, a.start < b.limit ∧ b.start < a.limit) := by
  have hcommon (hdisjoint : Disjoint (covers s) (covers other)) :
      ¬ ∃ a ∈ s, ∃ b ∈ other, a.start < b.limit ∧ b.start < a.limit := by
    rintro ⟨a, ha, b, hb, hab, hba⟩
    have ha' := hs.nonempty a ha
    have hb' := hother.nonempty b hb
    exact Set.disjoint_left.1 hdisjoint (mem_covers.2 ⟨a, ha, le_max_left _ _, max_lt ha' hba⟩)
      (mem_covers.2 ⟨b, hb, le_max_right _ _, max_lt hab hb'⟩)
  unfold intersects
  cases hspans : spansDisjoint s other with
  | true => exact ⟨false, rfl, by simpa using hcommon (spansDisjoint_spec hs hother hspans)⟩
  | false =>
    obtain ⟨ofirst, orest, rfl⟩ := exists_cons_of_ne_nil (spans_ne_nil hspans).2
    obtain ⟨front, m, rest, hsplit, hmine, hsep, hfront⟩ :=
      candidate_spec hs (spans_ne_nil hspans).1 hother
    obtain ⟨odone, t, otodo, hosplit, htheirs, hosep, hofront⟩ :=
      candidate_spec hother (by simp) hsep
    have hnext := findNextIntersectingPair_spec keepHoles_rule front odone hsep hosep (by simp)
    rw [← hsplit, ← hosplit] at hnext
    generalize hresult : findNextIntersectingPair keepHoles s (ofirst :: orest) front.length
      odone.length = result at hnext
    have hlength : front.length ≠ s.length := by
      rw [hsplit]
      simp
    have hm : s[front.length]? = some m := by rw [hsplit, getElem?_split]
    cases hnext with
    | found hswept hmeet =>
      rename_i hole todo' skipped otodo' m' t'
      obtain ⟨-, -, hab, hba⟩ := Interval.intersects_iff.1 hmeet
      refine ⟨true, by simp [hmine, hlength, hm, htheirs, hresult], fun _ => ?_, fun _ => rfl⟩
      refine ⟨m', ?_, t', ?_, hab, hba⟩
      · rw [hsplit, hswept.todo_eq]
        simp
      · rw [hosplit, hswept.otodo_eq]
        simp
    | none hdisjoint mine theirs =>
      refine ⟨false, by simp [hmine, hlength, hm, htheirs, hresult], ?_⟩
      have hnone : Disjoint (covers s) (covers (ofirst :: orest)) := by
        rw [Set.disjoint_iff_inter_eq_empty, inter_candidates hsplit hosplit hfront hofront,
          hdisjoint.inter_eq]
      simpa using hcommon hnone

/-- The queries of a valid interval set agree with its stored intervals. -/
theorem queries_agree (hs : Separated s) (hother : Separated other) (v : T) (i : Interval T) :
    (containsValue s v = true ↔ ∃ j ∈ s, v ∈ j.points) ∧
    (findValue s v ≠ s.length ↔ ∃ j ∈ s, v ∈ j.points) ∧
    (∀ j ∈ s, v ∈ j.points → s[findValue s v]? = some j) ∧
    (containsInterval s i = true ↔ i.start < i.limit ∧ ∃ j ∈ s, j.start ≤ i.start ∧
      i.limit ≤ j.limit) ∧
    (findInterval s i ≠ s.length ↔ i.start < i.limit ∧ ∃ j ∈ s, j.start ≤ i.start ∧
      i.limit ≤ j.limit) ∧
    (∀ j ∈ s, i.start < i.limit → j.start ≤ i.start → i.limit ≤ j.limit →
      s[findInterval s i]? = some j) ∧
    (isDisjoint s i = true ↔ i.limit ≤ i.start ∨ ¬ ∃ j ∈ s, j.start < i.limit ∧ i.start < j.limit) ∧
    lowerBoundValue s v = s.findIdx (v < ·.limit) ∧ upperBoundValue s v = s.findIdx (v < ·.start) ∧
    ∃ found, intersects s other = some found ∧
      (found = true ↔ ∃ a ∈ s, ∃ b ∈ other, a.start < b.limit ∧ b.start < a.limit) := by
  have hpoint : (∃ j ∈ s, j.contains v = true) ↔ ∃ j ∈ s, v ∈ j.points := by
    simp only [Interval.contains_iff]
  have hcover : (∃ j ∈ s, j.containsInterval i = true) ↔
      i.start < i.limit ∧ ∃ j ∈ s, j.start ≤ i.start ∧ i.limit ≤ j.limit := by
    simp only [containsInterval_iff]
    exact ⟨fun ⟨j, hj, _, hi, hin⟩ => ⟨hi, j, hj, hin⟩,
      fun ⟨hi, j, hj, hin⟩ => ⟨j, hj, hs.nonempty j hj, hi, hin⟩⟩
  obtain ⟨hfind, hfound⟩ := (passes_value v).find hs (findValue s v) rfl
  obtain ⟨hfindI, hfoundI⟩ := (passes_interval i).find hs (findInterval s i) rfl
  refine ⟨((passes_value v).any_iff hs).trans hpoint, hfind.trans hpoint,
    fun j hj hv => hfound j hj (contains_iff.2 hv),
    ((passes_interval i).any_iff hs).trans hcover, hfindI.trans hcover,
    fun j hj hi hstart hlimit => hfoundI j hj
      (containsInterval_iff.2 ⟨hs.nonempty j hj, hi, hstart, hlimit⟩),
    ?_, lowerBoundValue_eq hs v, rfl, intersects_iff hs hother⟩
  rw [isDisjoint_iff hs]
  simp only [not_exists, not_and]

/-- The sweep of `Intersects` leaves intervals of both sets behind before it finds a common
point. -/
theorem queries_agree_interleaved : Separated [(⟨0, 2⟩ : Interval Nat), ⟨6, 8⟩] ∧
      ∃ found, intersects [(⟨0, 2⟩ : Interval Nat), ⟨6, 8⟩] [⟨2, 3⟩, ⟨4, 5⟩, ⟨7, 9⟩] = some found ∧
        (found = true ↔ ∃ a ∈ [(⟨0, 2⟩ : Interval Nat), ⟨6, 8⟩],
          ∃ b ∈ [(⟨2, 3⟩ : Interval Nat), ⟨4, 5⟩, ⟨7, 9⟩], a.start < b.limit ∧
            b.start < a.limit) := by
  have hs : Separated [(⟨0, 2⟩ : Interval Nat), ⟨6, 8⟩] :=
    separated_cons.2 ⟨by decide, by decide, separated_singleton.2 (by decide)⟩
  have hother : Separated [(⟨2, 3⟩ : Interval Nat), ⟨4, 5⟩, ⟨7, 9⟩] :=
    separated_cons.2 ⟨by decide, by decide,
      separated_cons.2 ⟨by decide, by decide, separated_singleton.2 (by decide)⟩⟩
  exact ⟨hs, (queries_agree hs hother 0 ⟨0, 1⟩).2.2.2.2.2.2.2.2.2⟩

end Gloop.Gtl.IntervalSet
