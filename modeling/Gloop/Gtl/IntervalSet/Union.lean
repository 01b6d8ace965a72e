import Gloop.Gtl.IntervalSet.Sweep
import Gloop.Foundation.BinaryHeap
import Gloop.Foundation.IntType
import Mathlib.Data.Int.ConditionallyCompleteOrder
import Mathlib.Order.ConditionallyCompleteLattice.Basic
import Mathlib.Order.Interval.Set.LinearOrder

/-!
# Adding intervals

`Add` and `Union` insert intervals without regard to overlaps and then call `Compact`, which
walks over a window of the list and merges touching neighbours. `mergeFrom` is that walk as a
function of the interval at `prev` and the rest of the list; `compact_eq` says that the loop
computes it. The results are `add_spec` and `union_spec`.

`AddIntsToIntervalSet` turns runs of consecutive integers into intervals. A value here is an integer
of its type, so that `addIntsToIntervalSet` has a result only if no end of an interval overflows.
`UnionImpl` merges any number of sets. A list of separated intervals is determined by its points, so
it is enough to follow the points through the merge, and the order in which the heap hands out the
intervals does not matter.
-/

namespace Gloop.Gtl.IntervalSet

section

open Gloop.Foundation List Set
open Gloop.Foundation.OrderedSet
variable {T : Type*} [LinearOrder T]

/-- The list that `Compact` leaves from the interval `p` on, when `rest` follows it. -/
def mergeFrom (shouldContinue : Interval T → Bool) (p : Interval T) :
    List (Interval T) → List (Interval T)
  | [] => [p]
  | q :: rest =>
    if shouldContinue q then
      if q.start ≤ p.limit then
        mergeFrom shouldContinue ⟨p.start, max p.limit q.limit⟩ rest
      else p :: mergeFrom shouldContinue q rest
    else p :: q :: rest

variable {shouldContinue : Interval T → Bool}

/-- The loop of `Compact` computes `mergeFrom` behind an untouched front. -/
theorem iterate_compactStep (rest : List (Interval T)) :
    ∀ (front : List (Interval T)) (p : Interval T), (∀ i ∈ front, i.start < p.start) →
      p.start < p.limit → (∀ i ∈ rest, i.start < i.limit) →
      (p :: rest).Pairwise (intervalLess · · = true) → iterate (compactStep shouldContinue)
        (front ++ p :: rest, front.length, front.length + 1) =
        some (front ++ mergeFrom shouldContinue p rest) := by
  induction rest with
  | nil =>
    intro front p hfront _ _ _
    refine iterate_done ?_
    simp [compactStep, mergeFrom]
  | cons q rest ih =>
    intro front p hfront hp hne hsorted
    obtain ⟨hpq, hqrest⟩ := pairwise_cons.1 hsorted
    obtain ⟨hqall, hrest⟩ := pairwise_cons.1 hqrest
    have hneRest : ∀ i ∈ rest, i.start < i.limit := fun i hi => hne i (by simp [hi])
    have herase (r : Interval T) :
        erase (front ++ r :: q :: rest) (front.length + 1) = some (front ++ r :: rest) := by
      simpa using erase_split (front ++ [r]) q rest
    rw [mergeFrom]
    cases hcont : shouldContinue q with
    | false => exact iterate_done (by simp [compactStep, hcont])
    | true =>
      by_cases htouch : q.start ≤ p.limit
      · rw [if_pos htouch]
        by_cases hlonger : p.limit < q.limit
        · -- `it` reaches further than `prev`, so `prev` is replaced by their union.
          have hstart : p.start < q.start := by
            rcases intervalLess_iff.1 (hpq q (by simp)) with h | ⟨-, h⟩
            · exact h
            · exact absurd h (not_lt.2 hlonger.le)
          have hafter : ∀ i ∈ q :: rest, p.start < i.start := forall_mem_cons.2
            ⟨hstart, fun i hi => hstart.trans_le (start_le_of_intervalLess (hqall i hi))⟩
          have hreplace : replaceInterval (front ++ p :: q :: rest) front.length
              ⟨p.start, q.limit⟩ = some (front ++ ⟨p.start, q.limit⟩ :: q :: rest, front.length) :=
            replaceInterval_split hfront hafter
          have hstep : compactStep shouldContinue
              (front ++ p :: q :: rest, front.length, front.length + 1) =
                some (.inl (front ++ ⟨p.start, q.limit⟩ :: rest, front.length,
                  front.length + 1)) := by
            simp [compactStep, hcont, htouch, hlonger, hreplace, herase]
          rw [max_eq_right hlonger.le, iterate_next hstep]
          refine ih front _ hfront (hp.trans hlonger) hneRest ?_
          refine pairwise_cons.2 ⟨fun i hi => ?_, hrest⟩
          exact intervalLess_iff.2 (.inl (hafter i (by simp [hi])))
        · -- `prev` covers `it`, which is erased.
          have hstep : compactStep shouldContinue
              (front ++ p :: q :: rest, front.length, front.length + 1) =
                some (.inl (front ++ p :: rest, front.length, front.length + 1)) := by
            simp [compactStep, hcont, htouch, hlonger, herase]
          rw [max_eq_left (not_lt.1 hlonger), iterate_next hstep]
          refine ih front p hfront hp hneRest ?_
          exact pairwise_cons.2 ⟨fun i hi => hpq i (by simp [hi]), hrest⟩
      · have hstep : compactStep shouldContinue
            (front ++ p :: q :: rest, front.length, front.length + 1) =
              some (.inl (front ++ p :: q :: rest, front.length + 1, front.length + 2)) := by
          simp [compactStep, hcont, htouch]
        rw [if_neg htouch, iterate_next hstep]
        have hstart : p.start < q.start := hp.trans (not_le.1 htouch)
        have hfront' : ∀ i ∈ front ++ [p], i.start < q.start := forall_mem_append.2
          ⟨fun i hi => (hfront i hi).trans hstart, by simpa using hstart⟩
        simpa using ih (front ++ [p]) q hfront' (hne q (by simp)) hneRest hqrest

variable {front rest middle far s : List (Interval T)}

/-- `Compact` from a position in the list. -/
theorem compact_eq {p : Interval T}
    (hfront : ∀ i ∈ front, i.start < p.start) (hne : ∀ i ∈ p :: rest, i.start < i.limit)
    (hsorted : (p :: rest).Pairwise (intervalLess · · = true)) :
    compact (front ++ p :: rest) front.length shouldContinue =
      some (front ++ mergeFrom shouldContinue p rest) := by
  rw [compact, if_neg (by simp)]
  exact iterate_compactStep rest front p hfront (hne p (by simp))
    (fun i hi => hne i (by simp [hi])) hsorted

/-- Nothing is merged in a list that is separated already. -/
theorem mergeFrom_of_separated {p : Interval T}
    (h : Separated (p :: rest)) : mergeFrom shouldContinue p rest = p :: rest := by
  induction rest generalizing p with
  | nil => rfl
  | cons q rest ih =>
    obtain ⟨-, hgap, hrest⟩ := separated_cons.1 h
    have hpq : ¬ q.start ≤ p.limit := not_le.2 (hgap q (by simp))
    rw [mergeFrom, ih hrest]
    split <;> rfl

/-- Merging over a window `middle` that ends before the separated intervals `far` gives a
separated list with the same points, whose intervals do not start before `p`. -/
theorem mergeFrom_spec (hfar : Separated far) (hcont : ∀ q ∈ middle, shouldContinue q = true) :
    ∀ p : Interval T, p.start < p.limit → (∀ q ∈ middle, q.start < q.limit) →
      (p :: middle).Pairwise (fun a b => a.start ≤ b.start) →
      (∀ q ∈ p :: middle, ∀ f ∈ far, q.limit < f.start) →
      Separated (mergeFrom shouldContinue p (middle ++ far)) ∧
        covers (mergeFrom shouldContinue p (middle ++ far)) =
        p.points ∪ covers middle ∪ covers far ∧ ∀ i ∈ mergeFrom shouldContinue p (middle ++ far),
          p.start ≤ i.start := by
  induction middle with
  | nil =>
    intro p hp _ _ hbelow
    have hsep : Separated (p :: far) := separated_cons.2 ⟨hp, hbelow p (by simp), hfar⟩
    rw [nil_append, mergeFrom_of_separated hsep]
    exact ⟨hsep, by simp, fun i hi => hsep.head_le rfl hi⟩
  | cons q middle ih =>
    intro p hp hne hsorted hbelow
    obtain ⟨hpall, hqsorted⟩ := pairwise_cons.1 hsorted
    have hqall := (pairwise_cons.1 hqsorted).1
    have hq : q.start < q.limit := hne q (by simp)
    have hneMiddle : ∀ r ∈ middle, r.start < r.limit := fun r hr => hne r (by simp [hr])
    have hcontMiddle : ∀ r ∈ middle, shouldContinue r = true := fun r hr => hcont r (by simp [hr])
    have hpq : p.start ≤ q.start := hpall q (by simp)
    obtain ⟨hbelowP, hbelowRest⟩ := forall_mem_cons.1 hbelow
    obtain ⟨hbelowQ, hbelowMiddle⟩ := forall_mem_cons.1 hbelowRest
    rw [cons_append, mergeFrom, if_pos (hcont q (by simp))]
    by_cases htouch : q.start ≤ p.limit
    · rw [if_pos htouch]
      -- the pair becomes one interval, which starts the rest of the merge
      have hmerged := ih hcontMiddle ⟨p.start, max p.limit q.limit⟩
        (hp.trans_le (le_max_left _ _)) hneMiddle ?_ ?_
      · obtain ⟨hsep, hcovers, hstart⟩ := hmerged
        refine ⟨hsep, ?_, hstart⟩
        rw [hcovers, covers_cons]
        have hpoints : (⟨p.start, max p.limit q.limit⟩ : Interval T).points =
            p.points ∪ q.points := by
          have hunion := Ico_union_Ico' htouch (hpq.trans hq.le)
          rw [min_eq_left hpq] at hunion
          exact hunion.symm
        rw [hpoints, union_assoc p.points]
      · exact pairwise_cons.2
          ⟨fun r hr => hpq.trans (hqall r hr), (pairwise_cons.1 hqsorted).2⟩
      · refine forall_mem_cons.2 ⟨fun f hf => ?_, hbelowMiddle⟩
        exact max_lt (hbelowP f hf) (hbelowQ f hf)
    · rw [if_neg htouch]
      obtain ⟨hsep, hcovers, hstart⟩ := ih hcontMiddle q hq hneMiddle hqsorted hbelowRest
      have hall : Separated (p :: mergeFrom shouldContinue q (middle ++ far)) :=
        separated_cons.2 ⟨hp, fun i hi => (not_le.1 htouch).trans_le (hstart i hi), hsep⟩
      refine ⟨hall, ?_, fun i hi => hall.head_le rfl hi⟩
      rw [covers_cons, hcovers, covers_cons]
      simp only [union_assoc]

/-- `Compact` over a window of a list: the front is untouched and separated from the window, the
window is sorted by start, and what follows it is separated. -/
theorem compact_spec {front middle far : List (Interval T)} {p : Interval T}
    (hfront : Separated front) (hgap : ∀ i ∈ front, i.limit < p.start)
    (hfar : Separated far) (hcont : ∀ q ∈ middle, shouldContinue q = true)
    (hne : ∀ i ∈ p :: (middle ++ far), i.start < i.limit)
    (hsorted : (p :: (middle ++ far)).Pairwise (intervalLess · · = true))
    (hbelow : ∀ q ∈ p :: middle, ∀ f ∈ far, q.limit < f.start) :
    ∃ r, compact (front ++ p :: (middle ++ far)) front.length shouldContinue = some r ∧
      Separated r ∧ covers r = covers (front ++ p :: (middle ++ far)) := by
  have hstarts : (p :: middle).Pairwise (fun a b => a.start ≤ b.start) := by
    have hsub : (p :: middle).Sublist (p :: (middle ++ far)) := by simp
    exact (hsorted.sublist hsub).imp start_le_of_intervalLess
  obtain ⟨hsep, hcovers, hstart⟩ := mergeFrom_spec hfar hcont p (hne p (by simp))
    (fun q hq => hne q (by simp [hq])) hstarts hbelow
  have hfrontStart : ∀ i ∈ front, i.start < p.start :=
    fun i hi => (hfront.nonempty i hi).trans (hgap i hi)
  refine ⟨_, compact_eq hfrontStart hne hsorted, ?_, ?_⟩
  · exact separated_append.2
      ⟨hfront, hsep, fun i hi j hj => (hgap i hi).trans_le (hstart j hj)⟩
  · rw [covers_append, hcovers, covers_append, covers_cons, covers_append, union_assoc]

/-- The window that `Add` compacts: it begins one position before the inserted interval, unless
that is the first, and its condition accepts everything up to the separated intervals `far`. -/
theorem compact_inserted {i : Interval T} (hs : Separated (front ++ (middle ++ far)))
    (hi : i.start < i.limit) (hfront : ∀ j ∈ front, intervalLess j i = true)
    (hafter : ∀ j ∈ middle ++ far, intervalLess i j = true) (hfar : ∀ f ∈ far, i.limit < f.start)
    (hcont : ∀ q ∈ i :: middle, shouldContinue q = true) : ∃ r,
      compact (front ++ i :: (middle ++ far))
        (if front.length ≠ 0 then front.length - 1 else front.length) shouldContinue = some r ∧
      Separated r ∧ covers r = covers (front ++ (middle ++ far)) ∪ i.points := by
  obtain ⟨hsepFront, hsepRest, hgap⟩ := separated_append.1 hs
  obtain ⟨-, hsepFar, hmiddleFar⟩ := separated_append.1 hsepRest
  have hbelow : ∀ q ∈ i :: middle, ∀ f ∈ far, q.limit < f.start :=
    forall_mem_cons.2 ⟨hfar, hmiddleFar⟩
  have hsorted : (i :: (middle ++ far)).Pairwise (intervalLess · · = true) :=
    pairwise_cons.2 ⟨hafter, hsepRest.sorted⟩
  have hne : ∀ j ∈ i :: (middle ++ far), j.start < j.limit :=
    forall_mem_cons.2 ⟨hi, hsepRest.nonempty⟩
  rcases eq_nil_or_concat front with rfl | ⟨before, a, rfl⟩
  · obtain ⟨r, hr, hsep, hcovers⟩ := compact_spec separated_nil (by simp) hsepFar
      (fun q hq => hcont q (by simp [hq])) hne hsorted hbelow
    refine ⟨r, hr, hsep, ?_⟩
    rw [hcovers]
    simp only [nil_append, covers_cons]
    exact union_comm _ _
  · rw [concat_eq_append] at *
    obtain ⟨hsepBefore, hsepA, hgapA⟩ := separated_append.1 hsepFront
    have hneAll : ∀ j ∈ a :: (i :: middle ++ far), j.start < j.limit :=
      forall_mem_cons.2 ⟨separated_singleton.1 hsepA, hne⟩
    have hai : intervalLess a i = true := hfront a (by simp)
    have hsortedAll : (a :: (i :: middle ++ far)).Pairwise (intervalLess · · = true) :=
      pairwise_cons.2 ⟨forall_mem_cons.2
        ⟨hai, fun j hj => intervalLess_strictTotal.trans hai (hafter j hj)⟩, hsorted⟩
    have hbelowAll : ∀ q ∈ a :: i :: middle, ∀ f ∈ far, q.limit < f.start :=
      forall_mem_cons.2 ⟨fun f hf => hgap a (by simp) f (by simp [hf]), hbelow⟩
    obtain ⟨r, hr, hsep, hcovers⟩ := compact_spec hsepBefore
      (fun j hj => hgapA j hj a (by simp)) hsepFar hcont hneAll hsortedAll hbelowAll
    refine ⟨r, by simpa using hr, hsep, ?_⟩
    rw [hcovers]
    simp only [covers_cons, covers_append, covers_nil]
    ext x
    simp only [mem_union]
    tauto

/-- `Add` keeps the representation and adds the points of the interval. -/
theorem add_spec (hs : Separated s) (i : Interval T) :
    ∃ r, add s i = some r ∧ Separated r ∧ covers r = covers s ∪ i.points := by
  unfold add
  cases hempty : i.empty with
  | true => exact ⟨s, rfl, hs, by simp [Interval.points_eq_empty hempty]⟩
  | false =>
    have hi : i.start < i.limit := Interval.empty_eq_false.1 hempty
    rcases insert_cases intervalLess_strictTotal hs.sorted i with
      ⟨front, back, rfl, hinsert⟩ | ⟨front, back, rfl, hinsert, hfront, hback⟩
    · -- The interval is already stored.
      refine ⟨_, by simp [hinsert], hs, ?_⟩
      rw [covers_append]
      ext x
      simp only [mem_union]
      tauto
    · obtain ⟨middle, far, rfl, -, hmiddle, hfirst⟩ :=
        exists_findIdx_split (pointLessInterval i.limit) back
      simp only [pointLessInterval, decide_eq_false_iff_not, not_lt, decide_eq_true_eq]
        at hmiddle hfirst
      have hsepFar := hs.right.right
      have hfar : ∀ f ∈ far, i.limit < f.start := by
        cases far with
        | nil => simp
        | cons g far => exact fun f hf => (hfirst g rfl).trans_le (hsepFar.head_le rfl hf)
      have hlast : (front ++ i :: (middle ++ far)).findIdx (pointLessInterval i.limit) =
          front.length + 1 + middle.length := by
        have hbelow : ∀ j ∈ front ++ i :: middle, pointLessInterval i.limit j = false := by
          intro j hj
          simp only [pointLessInterval, decide_eq_false_iff_not, not_lt]
          simp only [mem_append, mem_cons] at hj
          rcases hj with hj | rfl | hj
          · exact (start_le_of_intervalLess (hfront j hj)).trans hi.le
          · exact hi.le
          · exact hmiddle j hj
        have hsplit : (front ++ i :: middle ++ far).findIdx (pointLessInterval i.limit) =
            (front ++ i :: middle).length :=
          findIdx_split hbelow (by simpa [pointLessInterval] using hfirst)
        simpa [add_assoc, add_comm 1] using hsplit
      have hlimit : (front ++ i :: (middle ++ far))[front.length]? = some i :=
        getElem?_split front i _
      simp only [Bool.false_eq_true, ↓reduceIte, hinsert, Bool.not_true, hlimit, hlast,
        Option.bind_eq_bind, Option.bind_some]
      cases far with
      | nil =>
        rw [if_pos (by simp; omega)]
        exact compact_inserted hs hi hfront hback hfar (by simp)
      | cons f far =>
        have hat : (front ++ i :: (middle ++ f :: far))[front.length + 1 + middle.length]? =
          some f := by
          simp [add_assoc, add_comm 1]
        rw [if_neg (by simp; omega), hat]
        -- Everything up to the limit of the new interval starts before `f`.
        refine compact_inserted hs hi hfront hback hfar fun q hq => ?_
        have hq : q.start < f.start := by
          rcases mem_cons.1 hq with rfl | hq
          · exact hi.trans (hfar f (by simp))
          · exact (hmiddle q hq).trans_lt (hfar f (by simp))
        simp [intervalLessPoint, hq]

/-- `Union` keeps the representation and adds the points of the other set. -/
theorem union_spec {other : List (Interval T)} (hs : Separated s) (hother : Separated other) :
    ∃ r, union s other = some r ∧ Separated r ∧ covers r = covers s ∪ covers other := by
  have hsorted := insertAll_sorted intervalLess_strictTotal hs.sorted other
  have hmem := mem_insertAll intervalLess_strictTotal hs.sorted other
  have hcovers : covers (insertAll intervalLess s other) = covers s ∪ covers other := by
    rw [union_comm, ← covers_append]
    exact covers_congr fun i => (hmem i).trans mem_append.symm
  unfold union
  rw [← hcovers]
  have hne : ∀ i ∈ insertAll intervalLess s other, i.start < i.limit := fun i hi =>
    ((hmem i).1 hi).elim (hother.nonempty i) (hs.nonempty i)
  cases hlist : insertAll intervalLess s other with
  | nil => exact ⟨[], rfl, separated_nil, rfl⟩
  | cons p rest =>
    rw [hlist] at hsorted hne
    have hspec := @compact_spec T _ (fun _ => true) [] rest [] p separated_nil (by simp)
      separated_nil (by simp) (by simpa using hne) (by simpa using hsorted) (by simp)
    simpa using hspec

end

open Gloop.Foundation List

/-! ## Runs of integers -/

/-- The values of an integer type. -/
abbrev Value (t : IntType) := {x : Int // t.Fits x}

variable {t : IntType}

/-- `std::numeric_limits<T>::max()`. -/
def maxValue (t : IntType) : Value t :=
  ⟨t.max, t.min_nonpos.trans t.max_nonneg, le_rfl⟩

/-- `value + 1`, or `none` if it overflows. -/
def next (value : Value t) : Option (Value t) :=
  if h : t.Fits (value + 1) then some ⟨value + 1, h⟩ else none

/-- The variables of the loop of `AddIntsToIntervalSet`, with the value that `last_start` points
to. -/
structure IntRun (t : IntType) where
  set : List (Interval (Value t))
  lastStart : Value t
  lastValue : Value t

/-- A round of the loop. -/
def addIntsStep (run : IntRun t) (value : Value t) : Option (IntRun t) :=
  if value = maxValue t then some run
  else do
    let limit ← next run.lastValue
    if limit ≠ value then
      let set ← add run.set ⟨run.lastStart, limit⟩
      pure ⟨set, value, value⟩
    else pure { run with lastValue := value }

/-- `AddIntsToIntervalSet(ints, set)`. -/
def addIntsToIntervalSet (ints : List (Value t)) (set : List (Interval (Value t))) :
    Option (List (Interval (Value t))) :=
  match ints.dropWhile (· = maxValue t) with
  | [] => some set
  | start :: rest => do
    let run ← rest.foldlM addIntsStep ⟨set, start, start⟩
    add run.set ⟨run.lastStart, ← next run.lastValue⟩

/-- The integers that can be in a set. -/
def representable (ints : List (Value t)) : Set (Value t) :=
  {v | v ∈ ints ∧ v ≠ maxValue t}

/-- Integers are added one by one. -/
theorem representable_cons (v : Value t) (ints : List (Value t)) :
    representable (v :: ints) = representable [v] ∪ representable ints := by
  ext p
  simp [representable, or_and_right]

/-- The greatest value cannot be in an interval. -/
theorem representable_max : representable [maxValue t] = ∅ := by
  simp [representable]

theorem representable_singleton {v : Value t} (h : v ≠ maxValue t) : representable [v] = {v} := by
  ext p
  simp only [representable, mem_singleton]
  exact ⟨And.left, fun hp => ⟨hp, hp ▸ h⟩⟩

/-- Values that cannot be in an interval may be skipped. -/
theorem representable_dropWhile (ints : List (Value t)) :
    representable (ints.dropWhile (· = maxValue t)) = representable ints := by
  induction ints with
  | nil => rfl
  | cons v ints ih =>
    by_cases hv : v = maxValue t
    · rw [dropWhile_cons_of_pos (by simpa using hv), ih, representable_cons, hv, representable_max,
        Set.empty_union]
    · rw [dropWhile_cons_of_neg (by simpa using hv)]

/-- The end of an interval that stops at `v` does not overflow. -/
theorem next_eq {v : Value t} (h : v ≠ maxValue t) :
    ∃ limit, next v = some limit ∧ ∀ p, p < limit ↔ p ≤ v := by
  have hlt : v.1 < t.max := lt_of_le_of_ne v.2.2 fun heq => h (Subtype.ext heq)
  have hfits : t.Fits (v + 1) := ⟨v.2.1.trans (Int.le_add_one le_rfl), hlt⟩
  exact ⟨⟨v + 1, hfits⟩, dif_pos hfits, fun p => Int.lt_add_one_iff⟩

/-- The set together with the run that is not yet in it holds the given points. -/
structure IntRun.Holds (run : IntRun t) (points : Set (Value t)) : Prop where
  separated : Separated run.set
  start_le : run.lastStart ≤ run.lastValue
  value_ne : run.lastValue ≠ maxValue t
  points_eq : covers run.set ∪ Set.Icc run.lastStart run.lastValue = points

variable {run : IntRun t} {points : Set (Value t)}

/-- Adding the run. -/
theorem IntRun.Holds.add (h : run.Holds points) :
    ∃ limit r, next run.lastValue = some limit ∧ add run.set ⟨run.lastStart, limit⟩ = some r ∧
      Separated r ∧ covers r = points ∧ ∀ p, p < limit ↔ p ≤ run.lastValue := by
  obtain ⟨limit, hnext, hlimit⟩ := next_eq h.value_ne
  obtain ⟨r, hadd, hr, hcovers⟩ := add_spec h.separated ⟨run.lastStart, limit⟩
  refine ⟨limit, r, hnext, hadd, hr, ?_, hlimit⟩
  rw [hcovers, ← h.points_eq]
  congr 1
  ext p
  exact and_congr_right fun _ => hlimit p

/-- A round of `AddInts` adds one value. -/
theorem addIntsStep_holds (h : run.Holds points) (value : Value t) :
    ∃ run', addIntsStep run value = some run' ∧ run'.Holds (points ∪ representable [value]) := by
  rw [addIntsStep]
  by_cases hmax : value = maxValue t
  · rw [if_pos hmax, hmax, representable_max, Set.union_empty]
    exact ⟨run, rfl, h⟩
  obtain ⟨limit, r, hnext, hadd, hr, hcovers, hlimit⟩ := h.add
  rw [if_neg hmax, hnext, Option.bind_eq_bind, Option.bind_some, representable_singleton hmax]
  by_cases hrun : limit = value
  · subst hrun
    have hle : run.lastStart ≤ limit := ((hlimit _).2 h.start_le).le
    refine ⟨{ run with lastValue := limit }, if_neg (not_not.2 rfl), h.separated, hle, hmax, ?_⟩
    rw [← h.points_eq, Set.union_assoc]
    congr 1
    ext p
    have hsplit : p ≤ limit ↔ p ≤ run.lastValue ∨ p = limit := by rw [← hlimit, le_iff_lt_or_eq]
    simp only [Set.mem_Icc, hsplit]
    exact ⟨fun ⟨hstart, hp⟩ => hp.imp_left (And.intro hstart),
      fun hp => ⟨hp.elim And.left fun heq => heq ▸ hle, hp.imp_left And.right⟩⟩
  · refine ⟨⟨r, value, value⟩, ?_, hr, le_rfl, hmax, ?_⟩
    · rw [if_pos hrun, hadd]
      rfl
    · rw [hcovers, Set.Icc_self]

/-- The loop of `AddInts` adds all values. -/
theorem foldlM_addIntsStep (h : run.Holds points) (ints : List (Value t)) :
    ∃ run', ints.foldlM addIntsStep run = some run' ∧ run'.Holds (points ∪ representable ints) := by
  induction ints generalizing run points with
  | nil =>
    simpa [representable] using h
  | cons value ints ih =>
    obtain ⟨run₁, hstep, h₁⟩ := addIntsStep_holds h value
    obtain ⟨run', hrest, h'⟩ := ih h₁
    refine ⟨run', ?_, ?_⟩
    · rw [foldlM_cons, hstep]
      exact hrest
    · rwa [representable_cons, ← Set.union_assoc]

/-- The set gets the integers other than the greatest one, in whatever order and however often they
occur. -/
theorem addIntsToIntervalSet_spec (ints : List (Value t)) {set : List (Interval (Value t))}
    (h : Separated set) : ∃ r, addIntsToIntervalSet ints set = some r ∧ Separated r ∧
      covers r = covers set ∪ {v | v ∈ ints ∧ v ≠ maxValue t} := by
  show ∃ r, _ ∧ _ ∧ covers r = covers set ∪ representable ints
  rw [addIntsToIntervalSet, ← representable_dropWhile]
  cases hints : ints.dropWhile (· = maxValue t) with
  | nil => exact ⟨set, rfl, h, by simp [representable]⟩
  | cons start rest =>
    have hstart : start ≠ maxValue t := by
      have hhead := head_dropWhile_not (· = maxValue t) (l := ints) (by simp [hints])
      simpa [hints] using hhead
    have hinit : (IntRun.mk set start start).Holds (covers set ∪ representable [start]) :=
      ⟨h, le_rfl, hstart, by rw [representable_singleton hstart, Set.Icc_self]⟩
    obtain ⟨run, hfold, hrun⟩ := foldlM_addIntsStep hinit rest
    obtain ⟨limit, r, hnext, hadd, hr, hcovers, -⟩ := hrun.add
    refine ⟨r, ?_, hr, ?_⟩
    · simp only [hfold, Option.bind_eq_bind, Option.bind_some, hnext, hadd]
    · rw [hcovers, representable_cons start rest, Set.union_assoc]

/-- Unsigned bytes with the greatest one in the middle of a run. -/
theorem addIntsToIntervalSet_bytes : ∃ r, addIntsToIntervalSet (t := ⟨8, false⟩)
        [⟨3, by decide⟩, ⟨255, by decide⟩, ⟨4, by decide⟩, ⟨0, by decide⟩]
          [] = some r ∧ Separated r ∧
      covers r = covers [] ∪ {v | v ∈ [⟨3, by decide⟩, ⟨255, by decide⟩, ⟨4, by decide⟩,
        ⟨0, by decide⟩] ∧
        v ≠ maxValue ⟨8, false⟩} :=
  addIntsToIntervalSet_spec _ separated_nil

/-! ## The union of many sets -/

section Union

variable {T : Type*} [LinearOrder T]

/-- `operator<` of `Interval`. -/
def less (a b : Interval T) : Bool :=
  a.start < b.start || (!(b.start < a.start) && b.limit < a.limit)

/-- A `HeapElement`: the intervals from one iterator up to the other, of which there is a first. -/
structure HeapElement (T : Type*) where
  first : Interval T
  rest : List (Interval T)

/-- `min_heap_compare`. -/
def minHeapCompare (a b : HeapElement T) : Bool :=
  less b.first a.first

/-- The sets that are not empty. -/
def heapElements (inputSets : List (List (Interval T))) : List (HeapElement T) :=
  inputSets.filterMap fun
    | [] => none
    | first :: rest => some ⟨first, rest⟩

variable (std : HeapAlgorithms (HeapElement T))

/-- Move on the iterator at the top of the heap. -/
def advance (heap : List (HeapElement T)) : Option (List (HeapElement T)) :=
  let heap := std.popHeap minHeapCompare heap
  heap.getLast?.map fun back =>
    match back.rest with
    | [] => heap.dropLast
    | next :: rest => std.pushHeap minHeapCompare (heap.dropLast ++ [⟨next, rest⟩])

/-- A round of the loop of `UnionImpl` with the heap, `prior` and the result. -/
def unionStep : List (HeapElement T) × Interval T × List (Interval T) →
    Option ((List (HeapElement T) × Interval T × List (Interval T)) ⊕
      (Interval T × List (Interval T)))
  | ([], prior, result) => some (.inr (prior, result))
  | (top :: heap, prior, result) => do
    let current := top.first
    let heap ← advance std (top :: heap)
    if current.start ≤ prior.limit ∧ current.limit ≥ prior.start then
      pure (.inl (heap, ⟨min prior.start current.start, max prior.limit current.limit⟩, result))
    else
      let result ← add result prior
      pure (.inl (heap, current, result))

/-- `UnionImpl(input_sets)`. -/
def unionImpl (inputSets : List (List (Interval T))) : Option (List (Interval T)) :=
  let heap := heapElements inputSets
  if heap.isEmpty then some []
  else do
    let heap := std.makeHeap minHeapCompare heap
    let top ← heap.head?
    let (prior, result) ← iterate (unionStep std) (heap, top.first, [])
    add result prior

/-- The order of the heap is a weak order. -/
theorem minHeapCompare_strictWeak : StrictWeak (minHeapCompare (T := T)) := by
  have hless : (less : Interval T → Interval T → Bool) = intervalLess := by
    funext a b
    rw [Bool.eq_iff_iff, intervalLess_iff]
    simp only [less]
    grind
  have htotal := intervalLess_strictTotal (T := T)
  have hweak : StrictWeak (intervalLess) :=
    { irrefl := fun a => by simp [htotal.irrefl a]
      trans := fun _ _ _ => htotal.trans
      incomp_trans := fun a b c hab hbc => by
        simp only [Bool.not_eq_true] at hab hbc
        rwa [htotal.trichotomy hab.1 hab.2, Bool.not_eq_true, Bool.not_eq_true] }
  show StrictWeak fun a b : HeapElement T => less b.first a.first
  rw [hless]
  exact hweak.opposite.comap HeapElement.first

/-- The intervals that are left. -/
def remaining (heap : List (HeapElement T)) : List (Interval T) :=
  heap.flatMap fun e => e.first :: e.rest

section Unique

variable {i j : Interval T} {s t : List (Interval T)}

theorem Separated.start_mem (h : Separated (i :: s)) : i.start ∈ covers (i :: s) :=
  ⟨i, mem_cons_self, le_rfl, (separated_cons.1 h).1⟩

/-- Without its first interval, a set has the points behind it. -/
theorem Separated.covers_tail (h : Separated (i :: s)) :
    covers s = {p ∈ covers (i :: s) | i.limit < p} := by
  obtain ⟨-, hgap, -⟩ := separated_cons.1 h
  ext p
  constructor
  · rintro ⟨j, hj, hp⟩
    exact ⟨⟨j, mem_cons_of_mem _ hj, hp⟩, (hgap j hj).trans_le hp.1⟩
  · rintro ⟨⟨j, hj, hp⟩, hlt⟩
    rcases mem_cons.1 hj with rfl | hj
    · exact absurd hp.2 hlt.not_gt
    · exact ⟨j, hj, hp⟩

/-- The first interval starts at the least point and ends at a point that is not covered. -/
theorem Separated.first_le (hs : Separated (i :: s)) (ht : Separated (j :: t))
    (h : covers (i :: s) = covers (j :: t)) : j.start ≤ i.start ∧ j.limit ≤ i.limit := by
  obtain ⟨hi, hgap, -⟩ := separated_cons.1 hs
  have hstart : j.start ≤ i.start := by
    obtain ⟨k, hk, hle, -⟩ : i.start ∈ covers (j :: t) := h ▸ hs.start_mem
    exact (ht.head_le rfl hk).trans hle
  refine ⟨hstart, ?_⟩
  by_contra hlt
  obtain ⟨k, hk, hle, hlimit⟩ : i.limit ∈ covers (i :: s) :=
    h ▸ ⟨j, mem_cons_self, hstart.trans hi.le, not_le.1 hlt⟩
  rcases mem_cons.1 hk with rfl | hk
  · exact lt_irrefl _ hlimit
  · exact (hgap k hk).not_ge hle

/-- A separated list is determined by its points. -/
theorem Separated.eq_of_covers_eq (hs : Separated s) (ht : Separated t) (h : covers s = covers t) :
    s = t := by
  induction s generalizing t with
  | nil =>
    cases t with
    | nil => rfl
    | cons j t => exact absurd (h ▸ ht.start_mem) (by simp)
  | cons i s ih =>
    cases t with
    | nil => exact absurd (h ▸ hs.start_mem) (by simp)
    | cons j t =>
      obtain ⟨hstart, hlimit⟩ := hs.first_le ht h
      obtain ⟨hstart', hlimit'⟩ := ht.first_le hs h.symm
      have heq : i = j := by
        rw [show i = ⟨i.start, i.limit⟩ from rfl, le_antisymm hstart' hstart,
          le_antisymm hlimit' hlimit]
      have htail : covers s = covers t := by rw [hs.covers_tail, ht.covers_tail, h, heq]
      rw [heq, ih (separated_cons.1 hs).2.2 (separated_cons.1 ht).2.2 htail]

end Unique

omit [LinearOrder T] in
/-- The heap starts with all intervals. -/
theorem remaining_heapElements (inputSets : List (List (Interval T))) :
    remaining (heapElements inputSets) = inputSets.flatten := by
  induction inputSets with
  | nil => rfl
  | cons s inputSets ih =>
    rw [flatten_cons, ← ih]
    cases s <;> rfl

variable {heap : List (HeapElement T)} {top : HeapElement T}

/-- The heap loses the interval at its top, and no other one. -/
theorem advance_spec (h : HeapOrdered minHeapCompare (top :: heap)) :
    ∃ heap', advance std (top :: heap) = some heap' ∧ HeapOrdered minHeapCompare heap' ∧
      (remaining (top :: heap)).Perm (top.first :: remaining heap') := by
  obtain ⟨popped, hpop, hperm, hordered⟩ := std.popHeap_eq _ top heap minHeapCompare_strictWeak h
  have hleft : (remaining heap).Perm (remaining popped) := (hperm.flatMap_right _).symm
  simp only [advance, hpop, getLast?_concat, dropLast_concat, Option.map_some]
  cases hrest : top.rest with
  | nil =>
    refine ⟨popped, rfl, hordered, ?_⟩
    rw [remaining, flatMap_cons, hrest]
    exact hleft.cons _
  | cons next rest =>
    refine ⟨_, rfl, std.pushHeap_ordered _ _ _ minHeapCompare_strictWeak hordered, ?_⟩
    have hpush := (std.pushHeap_perm _ popped ⟨next, rest⟩ minHeapCompare_strictWeak
      hordered).flatMap_right fun e => e.first :: e.rest
    rw [flatMap_append, flatMap_singleton] at hpush
    rw [remaining, flatMap_cons, hrest]
    exact .cons _ ((perm_append_comm.trans (hleft.append_right _)).trans hpush.symm)

/-- The result, `prior` and the intervals in the heap have the given points. -/
structure Merging (points : Set T) (heap : List (HeapElement T)) (prior : Interval T)
    (result : List (Interval T)) : Prop where
  ordered : HeapOrdered minHeapCompare heap
  nonempty : ∀ i ∈ prior :: remaining heap, i.start < i.limit
  separated : Separated result
  points_eq : covers result ∪ covers (prior :: remaining heap) = points

variable {points : Set T} {prior : Interval T} {result : List (Interval T)}

/-- A round takes one interval from the heap. -/
theorem unionStep_merging (h : Merging points (top :: heap) prior result) : ∃ heap' prior' result',
      unionStep std (top :: heap, prior, result) = some (.inl (heap', prior', result')) ∧
      Merging points heap' prior' result' ∧
      (remaining heap').length < (remaining (top :: heap)).length := by
  obtain ⟨heap', hadvance, hordered, hperm⟩ := advance_spec std h.ordered
  have hpoints := h.points_eq
  rw [covers_cons, covers_congr fun i => hperm.mem_iff, covers_cons] at hpoints
  obtain ⟨hprior, hall⟩ := forall_mem_cons.1 h.nonempty
  obtain ⟨htop, hrest⟩ := forall_mem_cons.1 fun i hi => hall i (hperm.mem_iff.2 hi)
  have hlength : (remaining heap').length < (remaining (top :: heap)).length := by
    rw [hperm.length_eq]
    exact Nat.lt_succ_self _
  rw [unionStep, hadvance]
  by_cases htouch : top.first.start ≤ prior.limit ∧ top.first.limit ≥ prior.start
  · have hmerged : min prior.start top.first.start < max prior.limit top.first.limit :=
      lt_max_of_lt_left (min_lt_of_left_lt hprior)
    refine ⟨heap', ⟨_, _⟩, result, if_pos htouch, ⟨hordered, forall_mem_cons.2 ⟨hmerged, hrest⟩,
      h.separated, ?_⟩, hlength⟩
    rw [← hpoints, covers_cons, ← Set.union_assoc prior.points]
    congr 2
    exact (Set.Ico_union_Ico' htouch.1 htouch.2).symm
  · obtain ⟨r, hadd, hr, hcovers⟩ := add_spec h.separated prior
    refine ⟨heap', top.first, r, ?_, ⟨hordered, forall_mem_cons.2 ⟨htop, hrest⟩, hr, ?_⟩, hlength⟩
    · simp [htouch, hadd]
    · rw [hcovers, covers_cons, Set.union_assoc, hpoints]

/-- The loop goes on until the heap is empty. -/
theorem iterate_unionStep (h : Merging points heap prior result) :
    ∃ out, iterate (unionStep std) (heap, prior, result) = some out ∧
      Merging points [] out.1 out.2 := by
  refine iterate_total (fun state => Merging points state.1 state.2.1 state.2.2) _
    (fun state => (remaining state.1).length) ?_ h
  rintro ⟨heap, prior, result⟩ hstate
  cases heap with
  | nil => exact .inr ⟨_, rfl, hstate⟩
  | cons top heap =>
    obtain ⟨heap', prior', result', hstep, hnext, hlength⟩ := unionStep_merging std hstate
    exact .inl ⟨_, hstep, hnext, hlength⟩

variable {inputSets : List (List (Interval T))}

/-- The merge returns a separated list of all points. -/
theorem unionImpl_covers (h : ∀ s ∈ inputSets, Separated s) :
    ∃ r, unionImpl std inputSets = some r ∧ Separated r ∧ covers r = covers inputSets.flatten := by
  have hperm := std.perm minHeapCompare (heapElements inputSets)
  have hordered := std.heapOrdered minHeapCompare (heapElements inputSets) minHeapCompare_strictWeak
  rw [unionImpl]
  generalize std.makeHeap minHeapCompare (heapElements inputSets) = heap at *
  have hmem : ∀ i, i ∈ remaining heap ↔ i ∈ inputSets.flatten := fun i => by
    rw [← remaining_heapElements]
    exact (hperm.flatMap_right _).mem_iff
  rw [← covers_congr hmem, ← hperm.isEmpty_eq]
  cases heap with
  | nil => exact ⟨[], rfl, separated_nil, rfl⟩
  | cons top heap =>
    have hne : ∀ i ∈ remaining (top :: heap), i.start < i.limit := by
      intro i hi
      obtain ⟨s, hs, his⟩ := mem_flatten.1 ((hmem i).1 hi)
      exact (h s hs).nonempty i his
    have hfirst : top.first ∈ remaining (top :: heap) := mem_cons_self
    have hinit : Merging (covers (remaining (top :: heap))) (top :: heap) top.first [] := by
      refine ⟨hordered, forall_mem_cons.2 ⟨hne _ hfirst, hne⟩, separated_nil, ?_⟩
      rw [covers_nil, Set.empty_union, covers_cons]
      exact Set.union_eq_self_of_subset_left fun p hp => ⟨_, hfirst, hp⟩
    obtain ⟨⟨prior, result⟩, hrun, hend⟩ := iterate_unionStep std hinit
    obtain ⟨r, hadd, hr, hcovers⟩ := add_spec hend.separated prior
    refine ⟨r, ?_, hr, ?_⟩
    · simp [hrun, hadd]
    · have hpoints : covers result ∪ covers [prior] = _ := hend.points_eq
      rw [hcovers, ← hpoints, covers_cons, covers_nil, Set.union_empty]

/-- Sets are united one after the other. -/
theorem foldlM_union {s : List (Interval T)} (hs : Separated s) (h : ∀ s ∈ inputSets, Separated s) :
    ∃ r, inputSets.foldlM union s = some r ∧ Separated r ∧
      covers r = covers s ∪ covers inputSets.flatten := by
  induction inputSets generalizing s with
  | nil => exact ⟨s, rfl, hs, by simp⟩
  | cons other inputSets ih =>
    obtain ⟨hother, hrest⟩ := forall_mem_cons.1 h
    obtain ⟨s', hunion, hs', hcovers'⟩ := union_spec hs hother
    obtain ⟨r, hfold, hr, hcovers⟩ := ih hs' hrest
    refine ⟨r, ?_, hr, ?_⟩
    · rw [foldlM_cons, hunion]
      exact hfold
    · rw [hcovers, hcovers', flatten_cons, covers_append, Set.union_assoc]

/-- `UnionImpl` is what `Union` with one set after the other gives. -/
theorem unionImpl_eq_foldlM_union (inputSets : List (List (Interval T)))
    (h : ∀ s ∈ inputSets, Separated s) : ∃ r, unionImpl std inputSets = some r ∧
      inputSets.foldlM union [] = some r ∧ Separated r ∧ covers r = covers inputSets.flatten := by
  obtain ⟨r, hrun, hr, hcovers⟩ := unionImpl_covers std h
  obtain ⟨r', hfold, hr', hcovers'⟩ := foldlM_union separated_nil h
  rw [covers_nil, Set.empty_union, ← hcovers] at hcovers'
  exact ⟨r, hrun, hr'.eq_of_covers_eq hr hcovers' ▸ hfold, hr, hcovers⟩

/-- Three sets, of which one is empty and two touch. -/
theorem unionImpl_eq_foldlM_union_touching :
    ∃ r, unionImpl .bySorting [[⟨2, 4⟩], [], [⟨0, 2⟩, ⟨7, 9⟩]] = some r ∧
      [[⟨2, 4⟩], [], [⟨0, 2⟩, ⟨7, 9⟩]].foldlM union [] = some r ∧ Separated r ∧
      covers r = covers (T := Nat) [[⟨2, 4⟩], [], [⟨0, 2⟩, ⟨7, 9⟩]].flatten :=
  unionImpl_eq_foldlM_union .bySorting _ (by
    simp [separated_cons, separated_nil])

end Union

end Gloop.Gtl.IntervalSet
