import Gloop.Gtl.IntervalSet.Sweep
import Mathlib.Algebra.Order.BigOperators.Group.List
import Mathlib.Algebra.Order.Ring.Nat

/-!
# Intersection and difference of interval sets

Each pass through the loop of `Intersection` erases the intervals of the set that meet nothing,
takes the next interval `i` that meets one of the other set, and puts the parts of `i` that lie in
the other set in its place. `Difference(interval)` cuts one interval out of a set,
`Difference(other)` a whole set, and `Complement` is the difference of one interval and the set. The
results are `intersection_spec`, `differenceInterval_spec`, `difference_spec` and `complement_spec`.
-/

namespace Gloop.Gtl.IntervalSet

open Gloop.Foundation.OrderedSet
variable {T : Type*} [LinearOrder T]

section

open Gloop.Foundation List

/-- The common part of two intervals. -/
def meet (i t : Interval T) : Interval T :=
  ⟨max i.start t.start, min i.limit t.limit⟩

/-- What an interval has in common with others. -/
theorem covers_meet (i : Interval T) (l : List (Interval T)) :
    covers (l.map (meet i)) = i.points ∩ covers l := by
  induction l with
  | nil => simp
  | cons t l ih =>
    rw [map_cons, covers_cons, covers_cons, Set.inter_union_distrib_left]
    congr 1
    ext p
    simp only [meet, Interval.mem_points, Set.mem_inter_iff, max_le_iff, lt_min_iff]
    tauto

/-- The parts that an interval has in common with others are separated. -/
theorem separated_meet {i : Interval T} {l : List (Interval T)} (hl : Separated l)
    (hmeet : ∀ t ∈ l, i.intersects t = true) : Separated (l.map (meet i)) := by
  induction l with
  | nil => exact separated_nil
  | cons t l ih =>
    obtain ⟨-, hgap, hsep⟩ := separated_cons.1 hl
    obtain ⟨hi, ht, hstart, hlimit⟩ := Interval.intersects_iff.1 (hmeet t (by simp))
    refine separated_cons.2 ⟨?_, ?_, ih hsep fun u hu => hmeet u (by simp [hu])⟩
    · simp [meet, hi, ht, hstart, hlimit]
    · intro p hp
      obtain ⟨u, hu, rfl⟩ := mem_map.1 hp
      exact (min_le_right _ _).trans_lt ((hgap u hu).trans_le (le_max_right _ _))

/-- The inner loop inserts the common parts of `i` and the intervals `taken` it meets, one behind
the other, and leaves the iterator at the last of them. -/
theorem iterate_spliceStep {i : Interval T} {rest back : List (Interval T)}
    (hrest : ∀ t ∈ rest.head?, i.intersects t = false) (taken : List (Interval T)) :
    ∀ (front odone : List (Interval T)) (mine : Nat), (∀ t ∈ taken, i.intersects t = true) →
      Separated (front ++ (taken.map (meet i) ++ back)) →
      iterate (spliceStep i (odone ++ (taken ++ rest))) (front ++ back, mine, odone.length) =
        some (front ++ (taken.map (meet i) ++ back),
          if taken = [] then mine else front.length + taken.length - 1,
            odone.length + taken.length) := by
  induction taken with
  | nil =>
    intro front odone mine _ _
    have hend : (odone ++ rest)[odone.length]?.bind i.intersects? = none := by
      cases rest with
      | nil => simp
      | cons t rest => simp [Interval.intersects?_eq_none (hrest t rfl)]
    refine iterate_done ?_
    simp [spliceStep, hend]
  | cons t taken ih =>
    intro front odone mine hmeet hsep
    have hnew : Separated (front ++ meet i t :: back) := hsep.sublist (by simp)
    have hstep : spliceStep i (odone ++ (t :: taken ++ rest))
        (front ++ back, mine, odone.length) =
          some (.inl (front ++ meet i t :: back, front.length, odone.length + 1)) := by
      have hpiece : i.intersects? t = some (meet i t) :=
        Interval.intersects?_eq_some (hmeet t (by simp))
      simp [spliceStep, hpiece, hnew.insert_eq]
    have hmore := ih (front ++ [meet i t]) (odone ++ [t]) front.length
      (fun u hu => hmeet u (by simp [hu])) (by simpa using hsep)
    rw [iterate_next hstep]
    simp only [← append_cons, length_append, length_singleton] at hmore
    rw [cons_append, hmore]
    cases taken with
    | nil => simp
    | cons u taken =>
      simp only [reduceCtorEq, ↓reduceIte, map_cons, cons_append, length_cons,
        Option.some.injEq, Prod.mk.injEq, true_and]
      omega

/-- The intervals of the other set that `m` meets are those before some position, and the last of
them is the only one that a later interval of the set can meet as well. -/
theorem inter_split {m last : Interval T} {todo taken rest : List (Interval T)}
    (htodo : Separated (m :: todo)) (hother : Separated (taken ++ last :: rest))
    (hlast : m.intersects last = true) (hrest : ∀ t ∈ rest.head?, m.intersects t = false) :
    covers (m :: todo) ∩ covers (taken ++ last :: rest) =
      covers ((taken ++ [last]).map (meet m)) ∪ (covers todo ∩ covers (last :: rest)) := by
  obtain ⟨hm, hgap, -⟩ := separated_cons.1 htodo
  obtain ⟨-, hsepRest, hbelow⟩ := separated_append.1 hother
  obtain ⟨hl, hlastGap, hsepTail⟩ := separated_cons.1 hsepRest
  obtain ⟨-, -, hstart, hlimit⟩ := Interval.intersects_iff.1 hlast
  have hmRest : Disjoint m.points (covers rest) := by
    refine points_disjoint_covers fun b hb => ?_
    cases rest with
    | nil => simp at hb
    | cons r rest =>
      have hr : m.limit ≤ r.start := by
        have hrne : r.start < r.limit := (separated_cons.1 hsepTail).1
        rcases Interval.before_or_after hm hrne (hrest r rfl) with h | h
        · exact h
        · have hlr : last.limit < r.start := hlastGap r (by simp)
          order
      exact hr.trans (hsepTail.head_le rfl hb)
  have htaken : Disjoint (covers taken) (covers todo) := by
    refine covers_disjoint fun a ha b hb => ?_
    have hal : a.limit < last.start := hbelow a ha last (by simp)
    have hmb : m.limit < b.start := hgap b hb
    order
  rw [covers_meet]
  simp only [covers_cons, covers_append, covers_nil]
  rw [Set.disjoint_left] at hmRest htaken
  ext p
  simp only [Set.mem_union, Set.mem_inter_iff]
  tauto

/-- One pass through the loop of `Intersection` that finds an intersecting pair. -/
theorem intersectionStep_found {done todo odone otodo hole todo' skipped otodo' :
      List (Interval T)} {m t : Interval T}
    (hs : Separated (done ++ todo)) (hother : Separated (odone ++ otodo))
    (hswept : Swept todo otodo hole (m :: todo') skipped (t :: otodo'))
    (hmeet : m.intersects t = true)
    (hnext : findNextIntersectingPair eraseHoles (done ++ todo) (odone ++ otodo) done.length
      odone.length = some (true, done ++ m :: todo', done.length, (odone ++ skipped).length)) :
    ∃ done' odone' otodo', intersectionStep (odone ++ otodo)
          (done ++ todo, done.length, odone.length) =
          some (.inl (done' ++ todo', done'.length, odone'.length)) ∧
      odone ++ otodo = odone' ++ otodo' ∧ otodo' ≠ [] ∧ Separated (done' ++ todo') ∧
      covers done' ∪ (covers todo' ∩ covers otodo') =
        covers done ∪ (covers todo ∩ covers otodo) := by
  obtain ⟨passed, rest, hsplit, -, -, hpassed, hrest⟩ :=
    exists_takeWhile_split m.intersects (t :: otodo')
  have hholes : Separated (done ++ m :: todo') := by
    rw [hswept.todo_eq] at hs
    exact hs.sublist (by simp)
  have hotodo : Separated (passed ++ rest) := by
    rw [← hsplit]
    exact (hswept.otodo_eq ▸ hother.right).right
  rcases eq_nil_or_concat passed with rfl | ⟨taken, last, rfl⟩
  · -- The first interval is met, so `passed` is not empty.
    rw [nil_append] at hsplit
    have hapart := hrest t (by rw [← hsplit]; rfl)
    simp [hmeet] at hapart
  rw [concat_eq_append] at *
  have hmet : ∀ u ∈ taken ++ [last], m.intersects u = true := hpassed
  have hsepPassed := (separated_append.1 hotodo).1
  have hparts : Separated (done ++ ((taken ++ [last]).map (meet m) ++ todo')) := by
    refine hholes.refine (separated_meet hsepPassed hmet) fun p hp => ?_
    obtain ⟨u, hu, rfl⟩ := mem_map.1 hp
    exact ⟨le_max_left _ _, min_le_left _ _⟩
  have hloop := iterate_spliceStep hrest (taken ++ [last]) done (odone ++ skipped)
    (done ++ todo').length hmet hparts
  have heq : odone ++ otodo = odone ++ skipped ++ (taken ++ [last] ++ rest) := by
    rw [hswept.otodo_eq, hsplit, append_assoc odone]
  refine ⟨done ++ (taken ++ [last]).map (meet m), odone ++ skipped ++ taken, last :: rest,
    ?_, by simpa using heq, by simp, ?_, ?_⟩
  · rw [← heq] at hloop
    simp only [intersectionStep, hnext, getElem?_split, erase_split, hloop, Option.bind_eq_bind,
      Option.bind_some]
    simp
    omega
  · rwa [append_assoc]
  · have hinter := inter_split hholes.right (by simpa using hotodo)
      (hmet last (by simp)) hrest
    rw [hswept.inter_eq, hsplit, ← append_cons, hinter, covers_append, Set.union_assoc]

/-- The loop of `Intersection` reaches the wanted points from every split of the two sets at which
only `todo` and `otodo` still have to be intersected. -/
theorem iterate_intersectionStep {other : List (Interval T)} (hother : Separated other)
    {target : Set T} {done todo odone otodo : List (Interval T)}
    (heq : other = odone ++ otodo) (hne : otodo ≠ []) (hs : Separated (done ++ todo))
    (htarget : covers done ∪ (covers todo ∩ covers otodo) = target) :
    ∃ r, iterate (intersectionStep other) (done ++ todo, done.length, odone.length) = some r ∧
      Separated r ∧ covers r = target := by
  -- Each pass takes at least the interval that was found out of `todo`.
  induction hn : todo.length using Nat.strongRecOn generalizing done todo odone otodo with
  | ind n ih =>
    subst heq
    have hnext := findNextIntersectingPair_spec eraseHoles_rule done odone hs.right hother.right
      (absurd · hne)
    generalize hresult : findNextIntersectingPair eraseHoles (done ++ todo) (odone ++ otodo)
      done.length odone.length = result at hnext
    cases hnext with
    | found hswept hmeet =>
      rename_i hole todo' skipped otodo' m t
      simp only [append_nil] at hresult
      obtain ⟨done', odone', otodo'', hstep, hsplit, hne', hsep, hcovers⟩ :=
        intersectionStep_found hs hother hswept hmeet hresult
      have hless : todo'.length < n := by
        have := congrArg List.length hswept.todo_eq
        simp only [length_append, length_cons] at this
        omega
      rw [iterate_next hstep]
      exact ih _ hless hsplit hne' hsep (hcovers.trans htarget) rfl
    | none hdisjoint mine theirs =>
      refine ⟨done, iterate_done ?_, (separated_append.1 hs).1, ?_⟩
      · simp [intersectionStep, hresult]
      · rw [← htarget, hdisjoint.inter_eq, Set.union_empty]

/-- `Intersection` keeps the representation and leaves the common points. -/
theorem intersection_spec {s other : List (Interval T)} (hs : Separated s)
    (hother : Separated other) {same : Bool} (hsame : same = true → s = other) :
    ∃ r, intersection same s other = some r ∧ Separated r ∧ covers r = covers s ∩ covers other := by
  unfold intersection
  cases same with
  | true => exact ⟨s, rfl, hs, by rw [← hsame rfl, Set.inter_self]⟩
  | false =>
    cases hspans : spansDisjoint s other with
    | true =>
      exact ⟨[], rfl, separated_nil, by rw [(spansDisjoint_spec hs hother hspans).inter_eq,
        covers_nil]⟩
    | false =>
      obtain ⟨first, srest, rfl⟩ := exists_cons_of_ne_nil (spans_ne_nil hspans).1
      obtain ⟨ofirst, orest, rfl⟩ := exists_cons_of_ne_nil (spans_ne_nil hspans).2
      obtain ⟨front, m, rest, hsplit, hmine, hsep, hfront⟩ := candidate_spec hs (by simp) hother
      obtain ⟨odone, t, otodo, hosplit, htheirs, -, hofront⟩ := candidate_spec hother (by simp) hsep
      have herase : eraseRange (front ++ m :: rest) 0 front.length = m :: rest := by
        simpa using eraseRange_split [] front (m :: rest)
      have hloop := @iterate_intersectionStep T _ _ hother _ [] (m :: rest) odone (t :: otodo)
        hosplit (by simp) hsep rfl
      rw [covers_nil, Set.empty_union, ← inter_candidates hsplit hosplit hfront hofront] at hloop
      rw [← hsplit] at herase
      simp only [head?_cons, Option.bind_eq_bind, Option.bind_some, hmine, herase, htheirs]
      exact hloop

end

/-! ## Difference -/

open Gloop.Foundation List Gtl.Interval

/-! ## The parts around an interval -/

variable {whole lo hi i m t interval : Interval T}

variable {front todo otodo hole todo' skipped otodo' : List (Interval T)}

/-- The parts of an interval that remain around another one can take its place. -/
theorem split_refine {back : List (Interval T)} (hs : Separated (front ++ whole :: back))
    (hsplit : Interval.SplitBy whole i lo hi) (hmeet : whole.intersects i = true) :
      Separated (front ++ ([lo, hi].filter (!·.empty) ++ back)) := by
  obtain ⟨-, hne, hstart, hlimit⟩ := intersects_iff.1 hmeet
  have hsep : Separated ([lo, hi].filter (!·.empty)) := by
    rcases hsplit.lo_cases with ⟨-, hlo⟩ | ⟨hlo, rfl⟩ <;>
      rcases hsplit.hi_cases with ⟨-, hhi⟩ | ⟨hhi, rfl⟩
    · simp [hlo, hhi, separated_nil]
    · simp [hlo, hhi, separated_singleton]
    · simp [hlo, hhi, separated_singleton]
    · simp [hlo, hhi, hne, separated_cons, separated_nil]
  refine hs.refine hsep fun p hp => ?_
  obtain ⟨hmem, hfull⟩ := mem_filter.1 hp
  simp only [Bool.not_eq_true', empty_eq_false] at hfull
  simp only [mem_cons, not_mem_nil, or_false] at hmem
  rcases hmem with rfl | rfl
  · obtain ⟨-, rfl⟩ := hsplit.lo_eq hfull
    exact ⟨le_rfl, hlimit.le⟩
  · obtain ⟨-, rfl⟩ := hsplit.hi_eq hfull
    exact ⟨hstart.le, le_rfl⟩

/-- The parts of an interval that are left without another one. -/
theorem covers_parts (hsplit : Interval.SplitBy whole i lo hi) (hmeet : whole.intersects i = true) :
    covers ([lo, hi].filter (!·.empty)) = whole.points \ i.points := by
  have hfilter (l : List (Interval T)) : covers (l.filter (!·.empty)) = covers l := by
    ext p
    simp only [mem_covers, mem_filter]
    constructor
    · rintro ⟨i, ⟨hi, -⟩, hp⟩
      exact ⟨i, hi, hp⟩
    · rintro ⟨i, hi, hp⟩
      exact ⟨i, ⟨hi, by simpa using hp.1.trans_lt hp.2⟩, hp⟩
  rw [hfilter, ← hsplit.points_eq hmeet]
  simp

/-- The number of intersecting pairs that are still ahead of the two iterators. It is the variant
of the loop of `Difference(other)`, which may split an interval into two. -/
def meetings (todo otodo : List (Interval T)) : Nat :=
  (todo.map fun m => otodo.countP m.intersects).sum

theorem meetings_append (a b otodo : List (Interval T)) :
    meetings (a ++ b) otodo = meetings a otodo + meetings b otodo := by
  simp [meetings]

/-- The sweep does not make more meetings. -/
theorem Swept.meetings_le (h : Swept todo otodo hole todo' skipped otodo') :
      meetings todo' otodo' ≤ meetings todo otodo := by
  obtain ⟨rfl, rfl, -, -⟩ := h
  rw [meetings_append]
  refine Nat.le_add_left_of_le (sum_le_sum fun m _ => ?_)
  rw [countP_append]
  exact Nat.le_add_left _ _

/-- The parts that remain around `t` meet fewer of the intervals from `t` on: the lower part meets
none of them, and the upper one meets `t` no longer. -/
theorem meetings_parts (hotodo : Separated (t :: otodo)) (hsplit : Interval.SplitBy m t lo hi)
    (hmeet : m.intersects t = true) :
    meetings ([lo, hi].filter (!·.empty)) (t :: otodo) < meetings [m] (t :: otodo) := by
  obtain ⟨-, -, hstart, -⟩ := intersects_iff.1 hmeet
  have hlo : (t :: otodo).countP lo.intersects = 0 := by
    refine countP_eq_zero.2 fun u hu => ?_
    rw [intersects_iff]
    rintro ⟨hlo, -, -, hul⟩
    obtain ⟨-, rfl⟩ := hsplit.lo_eq hlo
    exact (hotodo.head_le rfl hu).not_gt hul
  have hhi : (t :: otodo).countP hi.intersects < (t :: otodo).countP m.intersects := by
    have ht : hi.intersects t = false := by
      rw [← Bool.not_eq_true, intersects_iff]
      rintro ⟨hhi, -, hit, -⟩
      obtain ⟨-, rfl⟩ := hsplit.hi_eq hhi
      exact lt_irrefl _ hit
    have hmono : otodo.countP hi.intersects ≤ otodo.countP m.intersects := by
      refine countP_mono_left fun u _ hu => ?_
      obtain ⟨hhi, hne, hiu, hui⟩ := intersects_iff.1 hu
      obtain ⟨-, rfl⟩ := hsplit.hi_eq hhi
      exact intersects_iff.2 ⟨hstart.trans hhi, hne, hstart.trans hiu, hui⟩
    rw [countP_cons_of_neg (by simp [ht]), countP_cons_of_pos (by simp [hmeet])]
    omega
  cases hl : lo.empty <;> cases hh : hi.empty <;>
    simp only [meetings, filter_cons, hl, hh, filter_nil, map_cons,
      sum_cons, Bool.not_true, Bool.not_false, Bool.false_eq_true, ↓reduceIte] <;> omega

/-! ## Cutting out one interval -/

/-- The end of `Difference(interval)`, from a position whose intervals start inside `interval` or
behind it. -/
theorem trimFrom_spec {front back : List (Interval T)} {interval : Interval T}
    (hs : Separated (front ++ back)) (hback : ∀ i ∈ back, interval.start ≤ i.start) :
    ∃ r, trimFrom (front ++ back) front.length interval = some r ∧ Separated r ∧
      covers r = covers front ∪ (covers back \ interval.points) := by
  obtain ⟨hsepFront, hsepBack, hgap⟩ := separated_append.1 hs
  obtain ⟨erased, rest, hsplit, -, hdrop, herased, hrest⟩ :=
    exists_takeWhile_split (fun i : Interval T => i.limit ≤ interval.limit) back
  have herase := eraseWhile_split (fun i : Interval T => i.limit ≤ interval.limit) front back
  rw [hdrop] at herase
  subst hsplit
  have hsepRest : Separated (front ++ rest) := hs.sublist (by simp)
  -- The erased intervals lie inside `interval`.
  have hinside : covers erased ⊆ interval.points := by
    rintro p ⟨i, hi, hp⟩
    have hlimit : i.limit ≤ interval.limit := by simpa using herased i hi
    exact ⟨(hback i (by simp [hi])).trans hp.1, hp.2.trans_le hlimit⟩
  have hcovers : covers (erased ++ rest) \ interval.points = covers rest \ interval.points := by
    rw [covers_append, Set.union_sdiff_distrib, Set.sdiff_eq_empty.2 hinside, Set.empty_union]
  rw [hcovers]
  unfold trimFrom
  rw [herase]
  cases rest with
  | nil => exact ⟨front, by simp, hsepFront, by simp⟩
  | cons i rest =>
    have hi : interval.limit < i.limit := by simpa using hrest i rfl
    have hiStart : interval.start ≤ i.start := hback i (by simp)
    obtain ⟨-, hsepI, hgapI⟩ := separated_append.1 hsepRest
    have hrestDisjoint : Disjoint (covers rest) interval.points :=
      (points_disjoint_covers fun b hb => (hi.trans ((separated_cons.1 hsepI).2.1 b hb)).le).symm
    by_cases hreach : i.start < interval.limit
    · have hparts : Separated [(⟨interval.limit, i.limit⟩ : Interval T)] :=
        separated_singleton.2 hi
      have hsep : Separated (front ++ ⟨interval.limit, i.limit⟩ :: rest) :=
        hsepRest.refine hparts (by simpa using hreach.le)
      refine ⟨_, by simp [hreach, hsep.replaceInterval_eq], hsep, ?_⟩
      rw [covers_append, covers_cons, covers_cons, Set.union_sdiff_distrib,
        hrestDisjoint.sdiff_eq_left]
      congr 2
      ext p
      simp only [mem_points, Set.mem_sdiff, not_and, not_lt]
      constructor
      · rintro ⟨h₁, h₂⟩
        exact ⟨⟨hreach.le.trans h₁, h₂⟩, fun _ => h₁⟩
      · rintro ⟨⟨h₁, h₂⟩, h₃⟩
        exact ⟨h₃ (hiStart.trans h₁), h₂⟩
    · refine ⟨front ++ i :: rest, by simp [hreach], hsepRest, ?_⟩
      have hiDisjoint : Disjoint i.points interval.points :=
        (points_disjoint_of_le (not_lt.1 hreach)).symm
      rw [covers_append, covers_cons, Set.union_sdiff_distrib, hrestDisjoint.sdiff_eq_left,
        hiDisjoint.sdiff_eq_left]

/-- The interval at the candidate position starts before `interval` and reaches into it: its
lower part stays, and what `interval` covers of the rest is removed. -/
theorem cutFirst_spec {rest : List (Interval T)} {first : Interval T}
    (hs : Separated (front ++ first :: rest)) (hsplit : Interval.SplitBy first interval lo hi)
    (hmeet : first.intersects interval = true) (hbefore : first.start < interval.start)
    (hrest : ∀ i ∈ rest, interval.start ≤ i.start) :
    ∃ r, (replaceInterval (front ++ first :: rest) front.length lo >>= fun x =>
        if !hi.empty then pure (insert intervalLess x.1 hi).1
        else trimFrom x.1 (x.2 + 1) interval) = some r ∧
      Separated r ∧ covers r = covers front ∪ (covers (first :: rest) \ interval.points) := by
  obtain ⟨-, hsepFirst, -⟩ := separated_append.1 hs
  have hlo : lo.empty = false := by
    rcases hsplit.lo_cases with ⟨h, -⟩ | ⟨-, rfl⟩
    · exact absurd hbefore (not_lt.2 h)
    · exact empty_eq_false.2 hbefore
  have hsep := split_refine hs hsplit hmeet
  rw [covers_cons, Set.union_sdiff_distrib, ← hsplit.points_eq hmeet]
  cases hempty : hi.empty with
  | true =>
    have hsep' : Separated (front ++ lo :: rest) := by simpa [hlo, hempty] using hsep
    have htrim := @trimFrom_spec T _ (front ++ [lo]) rest interval (by simpa using hsep') hrest
    rw [points_eq_empty hempty, hsep'.replaceInterval_eq]
    simpa [Set.union_assoc] using htrim
  | false =>
    obtain ⟨hreach, -⟩ := hsplit.hi_eq (empty_eq_false.1 hempty)
    have hrestDisjoint := points_disjoint_covers fun b hb =>
      (hreach.trans ((separated_cons.1 hsepFirst).2.1 b hb)).le
    have hsep' : Separated (front ++ lo :: hi :: rest) := by simpa [hlo, hempty] using hsep
    have hreplace : Separated (front ++ lo :: rest) := hsep'.sublist (by simp)
    have hinsert := @Separated.insert_eq T _ hi (front ++ [lo]) rest (by simpa using hsep')
    simp only [← append_cons] at hinsert
    refine ⟨_, by simp [hreplace.replaceInterval_eq, hinsert], hsep', ?_⟩
    rw [hrestDisjoint.symm.sdiff_eq_left]
    simp [Set.union_assoc]

variable [Inhabited T] {s : List (Interval T)}

/-- A set whose spanning interval does not meet an interval has no point in it. -/
theorem spanningInterval_disjoint (hs : Separated s)
    (h : (spanningInterval s).intersects interval = false) :
      Disjoint (covers s) interval.points := by
  rw [Set.disjoint_left]
  intro p hp hpi
  obtain ⟨i, hi, hip⟩ := hp
  obtain ⟨first, last, hfirst, hlast⟩ := exists_ends hi
  have h₁ : first.start ≤ p := (hs.head_le hfirst hi).trans hip.1
  have h₂ : p < last.limit := hip.2.trans_le (hs.le_last hlast hi)
  have hmeet : (spanningInterval s).intersects interval = true := by
    rw [spanningInterval, hfirst, hlast, intersects_iff]
    exact ⟨h₁.trans_lt h₂, hpi.1.trans_lt hpi.2, h₁.trans_lt hpi.2, hpi.1.trans_lt h₂⟩
  rw [h] at hmeet
  cases hmeet

/-- `Difference(interval)` keeps the representation and removes the points of the interval. The
argument may be a reference to one of the set's own intervals. -/
theorem differenceInterval_spec (hs : Separated s) (interval : Interval T) {address : Option Nat}
    (haddress : ∀ k ∈ address, s[k]? = some interval) :
    ∃ r, differenceInterval s interval address = some r ∧ Separated r ∧
      covers r = covers s \ interval.points := by
  unfold differenceInterval
  cases hspan : (spanningInterval s).intersects interval with
  | false =>
    refine ⟨s, by simp, hs, ?_⟩
    rw [(spanningInterval_disjoint hs hspan).sdiff_eq_left]
  | true =>
    have hne : s ≠ [] := by
      intro h
      subst h
      simp [spanningInterval, Interval.intersects, Interval.not_empty_default] at hspan
    obtain ⟨front, first, rest, rfl, hit, hfront, hrest⟩ :=
      findIntersectionCandidate_spec hs hne interval
    have hsepRest := hs.right
    have hfrontDisjoint := covers_disjoint_points fun a ha => (hfront a ha).le
    have hlength : front.length ≠ (front ++ first :: rest).length := by simp
    simp only [hit, hlength]
    by_cases hown : address = some front.length
    · -- The argument is the interval at the candidate position.
      have hsame := haddress front.length hown
      rw [getElem?_split] at hsame
      obtain rfl : first = interval := Option.some.inj hsame
      refine ⟨front ++ rest, by simp [hown, erase_split], hs.sublist (by simp), ?_⟩
      rw [covers_append, covers_append, Set.union_sdiff_distrib, hfrontDisjoint.sdiff_eq_left,
        covers_cons, Set.union_sdiff_distrib, sdiff_self, Set.bot_eq_empty, Set.empty_union]
      have hrestDisjoint := points_disjoint_covers fun b hb =>
        ((separated_cons.1 hsepRest).2.1 b hb).le
      rw [hrestDisjoint.symm.sdiff_eq_left]
    · have hfirst : first.start < first.limit := hs.nonempty first (by simp)
      simp only [hown, getElem?_split, Option.bind_eq_bind, Option.bind_some]
      rw [covers_append, Set.union_sdiff_distrib, hfrontDisjoint.sdiff_eq_left]
      by_cases hbefore : first.start < interval.start
      · rw [if_pos hbefore]
        cases hmeet : first.intersects interval with
        | false =>
          -- `first` ends before the interval, which can only reach the ones behind it.
          have hdisjoint : Disjoint first.points interval.points := by
            rw [Set.disjoint_left]
            intro p hp hpi
            have h : first.intersects interval = true := intersects_iff.2
              ⟨hfirst, hpi.1.trans_lt hpi.2, hp.1.trans_lt hpi.2, hpi.1.trans_lt hp.2⟩
            rw [hmeet] at h
            cases h
          have htrim := @trimFrom_spec T _ (front ++ [first]) rest interval (by simpa using hs)
            hrest
          rw [difference_of_not_intersects hfirst hmeet]
          rw [covers_cons, Set.union_sdiff_distrib, hdisjoint.sdiff_eq_left]
          simpa [Set.union_assoc] using htrim
        | true =>
          obtain ⟨lo, hi, hdifference, hsplit⟩ := difference_of_intersects hmeet
          have hcut := cutFirst_spec hs hsplit hmeet hbefore hrest
          simpa [hdifference] using hcut
      · rw [if_neg hbefore]
        exact trimFrom_spec hs fun i hi => (not_lt.1 hbefore).trans (hsepRest.head_le rfl hi)

/-! ## Cutting out a set -/

/-- One pass through the loop of `Difference(other)` that finds an intersecting pair. -/
theorem differenceStep_found {done odone : List (Interval T)}
    (hs : Separated (done ++ todo)) (hother : Separated (odone ++ otodo))
    (hswept : Swept todo otodo hole (m :: todo') skipped (t :: otodo'))
    (hmeet : m.intersects t = true)
    (hnext : findNextIntersectingPair keepHoles (done ++ todo) (odone ++ otodo) done.length
      odone.length =
        some (true, done ++ hole ++ m :: todo', (done ++ hole).length, (odone ++ skipped).length)) :
    ∃ done' todo'', differenceStep (odone ++ otodo) (done ++ todo, done.length, odone.length) =
          some (.inl (done' ++ todo'', done'.length, (odone ++ skipped).length)) ∧
      Separated (done' ++ todo'') ∧ covers done' ∪ (covers todo'' \ covers (t :: otodo')) =
        covers done ∪ (covers todo \ covers otodo) ∧
      meetings todo'' (t :: otodo') < meetings todo otodo := by
  have hsep : Separated (done ++ hole ++ m :: todo') := by
    rw [append_assoc, ← hswept.todo_eq]
    exact hs
  have hotodo : Separated (t :: otodo') :=
    (hswept.otodo_eq ▸ hother.right).right
  have htheirs : (odone ++ otodo)[(odone ++ skipped).length]? = some t := by
    rw [hswept.otodo_eq, ← append_assoc, getElem?_split]
  obtain ⟨lo, hi, hdifference, hsplit⟩ := difference_of_intersects hmeet
  have hparts := split_refine hsep hsplit hmeet
  have hcovers := covers_parts hsplit hmeet
  have hfewer := meetings_parts hotodo hsplit hmeet
  have hless : meetings ([lo, hi].filter (!·.empty) ++ todo')
      (t :: otodo') < meetings todo otodo := by
    refine lt_of_lt_of_le ?_ hswept.meetings_le
    have hcons := meetings_append [m] todo' (t :: otodo')
    rw [singleton_append] at hcons
    rw [meetings_append]
    omega
  -- Replacing `m` by its parts loses no point outside the other set.
  have hset : covers ([lo, hi].filter (!·.empty) ++ todo') \ covers (t :: otodo') =
      covers (m :: todo') \ covers (t :: otodo') := by
    rw [covers_append, hcovers, covers_cons, covers_cons]
    ext p
    simp only [Set.mem_union, Set.mem_sdiff]
    tauto
  rw [hswept.diff_eq, ← hset, ← Set.union_assoc, ← covers_append]
  generalize done ++ hole = front at *
  simp only [differenceStep, hnext, getElem?_split, htheirs, hdifference, Option.bind_eq_bind,
    Option.bind_some]
  cases hhi : hi.empty with
  | true =>
    cases hlo : lo.empty with
    | true =>
      simp only [filter_cons, hlo, hhi] at hparts hless ⊢
      exact ⟨front, todo', by simp [erase_split], by simpa
        using hparts, by simp, by simpa using hless⟩
    | false =>
      have hloLimit : lo.limit = t.start := by
        obtain ⟨-, rfl⟩ := hsplit.lo_eq (empty_eq_false.1 hlo)
        rfl
      have hsep' : Separated (front ++ lo :: todo') := by simpa [hlo, hhi] using hparts
      simp only [filter_cons, hlo, hhi, filter_nil] at hless ⊢
      have hdisjoint : Disjoint lo.points (covers (t :: otodo')) :=
        points_disjoint_covers fun b hb => hloLimit.le.trans (hotodo.head_le rfl hb)
      refine ⟨front ++ [lo], todo', by simp [hsep'.replaceInterval_eq], by simpa using hsep', ?_,
        ?_⟩
      · simp only [Bool.not_false, Bool.not_true, ↓reduceIte, Bool.false_eq_true]
        rw [covers_append, covers_append, covers_cons, covers_nil, Set.union_empty,
          Set.union_sdiff_distrib, hdisjoint.sdiff_eq_left, Set.union_assoc]
      · refine lt_of_le_of_lt ?_ hless
        exact Nat.le_add_left _ _
  | false =>
    refine ⟨front, [lo, hi].filter (!·.empty) ++ todo', ?_, hparts, rfl, hless⟩
    cases hlo : lo.empty with
    | true =>
      have hsep' : Separated (front ++ hi :: todo') := by simpa [hlo, hhi] using hparts
      simp [hhi, hlo, hsep'.replaceInterval_eq]
    | false =>
      have hsep' : Separated (front ++ lo :: hi :: todo') := by simpa [hlo, hhi] using hparts
      have hreplace : Separated (front ++ hi :: todo') := hsep'.sublist (by simp)
      simp [hhi, hlo, hreplace.replaceInterval_eq, hsep'.insert_eq]

/-- The loop of `Difference(other)` reaches the wanted points from every split of the two sets at
which `otodo` still has to be cut out of `todo`. -/
theorem iterate_differenceStep {other : List (Interval T)} (hother : Separated other)
    {target : Set T} {done todo odone otodo : List (Interval T)}
    (heq : other = odone ++ otodo) (hs : Separated (done ++ todo))
    (htarget : covers done ∪ (covers todo \ covers otodo) = target) :
    ∃ r, iterate (differenceStep other) (done ++ todo, done.length, odone.length) = some r ∧
      Separated r ∧ covers r = target := by
  -- Each pass that continues leaves fewer intersecting pairs.
  induction hn : meetings todo otodo using Nat.strongRecOn
    generalizing done todo odone otodo with
  | ind n ih =>
    subst heq
    have hnext := findNextIntersectingPair_spec keepHoles_rule done odone hs.right hother.right
      fun _ => rfl
    generalize hresult : findNextIntersectingPair keepHoles (done ++ todo) (odone ++ otodo)
      done.length odone.length = result at hnext
    cases hnext with
    | found hswept hmeet =>
      rename_i hole todo' skipped otodo' m t
      obtain ⟨done', todo'', hstep, hsep, hcovers, hless⟩ :=
        differenceStep_found hs hother hswept hmeet hresult
      have hsplit : odone ++ otodo = (odone ++ skipped) ++ t :: otodo' := by
        rw [hswept.otodo_eq, append_assoc]
      rw [iterate_next hstep]
      exact ih _ (hn ▸ hless) hsplit hsep (hcovers.trans htarget) rfl
    | none hdisjoint mine theirs =>
      refine ⟨done ++ todo, iterate_done (by simp [differenceStep, hresult]), hs, ?_⟩
      rw [← htarget, hdisjoint.sdiff_eq_left, covers_append]

/-- `Difference(other)` keeps the representation and removes the points of the other set. -/
theorem difference_spec {other : List (Interval T)} (hs : Separated s) (hother : Separated other)
    {same : Bool} (hsame : same = true → s = other) :
    ∃ r, difference same s other = some r ∧ Separated r ∧ covers r = covers s \ covers other := by
  unfold difference
  cases same with
  | true => exact ⟨[], rfl, separated_nil, by rw [hsame rfl, sdiff_self, covers_nil]; rfl⟩
  | false =>
    cases hspans : spansDisjoint s other with
    | true =>
      exact ⟨s, rfl, hs, by rw [(spansDisjoint_spec hs hother hspans).sdiff_eq_left]⟩
    | false =>
      obtain ⟨first, srest, rfl⟩ := exists_cons_of_ne_nil (spans_ne_nil hspans).1
      obtain ⟨ofirst, orest, rfl⟩ := exists_cons_of_ne_nil (spans_ne_nil hspans).2
      obtain ⟨front, m, rest, hsplit, hmine, -, h₁⟩ := candidate_spec hs (by simp) hother
      obtain ⟨odone, t, otodo, hosplit, htheirs, -, h₂⟩ := candidate_spec hother (by simp) hs
      have hloop := @iterate_differenceStep T _ _ _ hother _ front (m :: rest) odone
        (t :: otodo) hosplit (hsplit ▸ hs) rfl
      have hcovers : covers front ∪ (covers (m :: rest) \ covers (t :: otodo)) =
          covers (first :: srest) \ covers (ofirst :: orest) := by
        rw [hosplit] at h₁ ⊢
        rw [hsplit] at h₂ ⊢
        rw [covers_append, covers_append] at *
        rw [Set.disjoint_left] at h₁ h₂
        ext p
        have hp₁ := @h₁ p
        have hp₂ := @h₂ p
        simp only [Set.mem_union, Set.mem_sdiff] at *
        tauto
      have hlength : front.length ≠ (first :: srest).length := by
        rw [hsplit]
        simp
      rw [hcovers, ← hsplit] at hloop
      simp only [head?_cons, Option.bind_eq_bind, Option.bind_some, hmine, htheirs, hlength]
      exact hloop

/-- `Complement` leaves the points of the interval outside the set. -/
theorem complement_spec (hs : Separated s) (start limit : T) :
    ∃ r, complement s start limit = some r ∧ Separated r ∧
      covers r = Set.Ico start limit \ covers s := by
  have hinit : Separated (init (⟨start, limit⟩ : Interval T)) ∧
      covers (init (⟨start, limit⟩ : Interval T)) = Set.Ico start limit := by
    unfold init
    cases hempty : (⟨start, limit⟩ : Interval T).empty with
    | true =>
      refine ⟨separated_nil, ?_⟩
      rw [if_pos rfl, covers_nil]
      exact (points_eq_empty hempty).symm
    | false =>
      have hinsert : insert intervalLess [] (⟨start, limit⟩ : Interval T) =
          ([⟨start, limit⟩], 0, true) :=
        @insert_between T _ [] [] _ (by simp) (by simp)
      rw [hinsert]
      exact ⟨separated_singleton.2 (empty_eq_false.1 hempty), by simp [points]⟩
  rw [← hinit.2]
  exact difference_spec hinit.1 hs (by simp)

end Gloop.Gtl.IntervalSet
