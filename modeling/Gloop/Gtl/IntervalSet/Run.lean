import Gloop.Foundation.Refinement
import Gloop.Gtl.IntervalSet.Union
import Gloop.Gtl.IntervalSet.Difference

/-!
# Interval sets over whole programs

A program works with named interval sets, so that the argument of an operation may be the object
it is called on. `onSets` says what each operation does to sets of points, and `run_covers`
says that every program over the stored intervals refines it: the representation invariant holds
throughout, and the stored intervals cover exactly the points of the abstract set.
-/

namespace Gloop.Gtl.IntervalSet

open Gloop.Foundation Function

variable {ι T : Type*}

/-- An operation on the object `x`. -/
inductive Op (ι T : Type*)
  | add (x : ι) (interval : Interval T)
  | union (x y : ι)
  | intersection (x y : ι)
  /-- `aliased` says that the argument is a reference to the interval of `x` equal to it, if there
  is one, and not an interval stored elsewhere. -/
  | differenceInterval (x : ι) (interval : Interval T) (aliased : Bool)
  | difference (x y : ι)
  | complement (x : ι) (start limit : T)

variable [DecidableEq ι] [LinearOrder T]

/-- The effect of an operation on sets of points. -/
def onSets (sets : ι → Set T) : Op ι T → ι → Set T
  | .add x interval => update sets x (sets x ∪ interval.points)
  | .union x y => update sets x (sets x ∪ sets y)
  | .intersection x y => update sets x (sets x ∩ sets y)
  | .differenceInterval x interval _ => update sets x (sets x \ interval.points)
  | .difference x y => update sets x (sets x \ sets y)
  | .complement x start limit => update sets x (Set.Ico start limit \ sets x)

variable [Inhabited T]

/-- The position of the argument of `Difference(interval)` in the set itself. -/
def addressIn (s : List (Interval T)) (interval : Interval T) (aliased : Bool) : Option Nat :=
  if aliased then s.findIdx? (· = interval) else none

/-- Run one operation on the stored intervals. -/
def execute (store : ι → List (Interval T)) : Op ι T → Option (ι → List (Interval T))
  | .add x interval => (add (store x) interval).map (update store x)
  | .union x y => (union (store x) (store y)).map (update store x)
  | .intersection x y =>
    (intersection (x = y) (store x) (store y)).map (update store x)
  | .differenceInterval x interval aliased =>
    (differenceInterval (store x) interval (addressIn (store x) interval aliased)).map
      (update store x)
  | .difference x y => (difference (x = y) (store x) (store y)).map (update store x)
  | .complement x start limit =>
    (complement (store x) start limit).map (update store x)

/-- The stored intervals satisfy the representation invariant and cover the given points. -/
def Represents (s : List (Interval T)) (points : Set T) : Prop :=
  Separated s ∧ covers s = points

omit [Inhabited T] in
/-- An argument inside of the set is one of its intervals. -/
theorem addressIn_spec (s : List (Interval T)) (interval : Interval T) (aliased : Bool) :
    ∀ k ∈ addressIn s interval aliased, s[k]? = some interval := by
  intro k hk
  cases aliased with
  | false => simp [addressIn] at hk
  | true =>
    obtain ⟨hlt, hfound, -⟩ := List.findIdx?_eq_some_iff_getElem.1 hk
    rw [List.getElem?_eq_getElem]
    simpa using hfound

/-- Every operation keeps the stored intervals and the abstract sets related. -/
theorem execute_represents {store : ι → List (Interval T)} {sets : ι → Set T}
    (h : ∀ x, Represents (store x) (sets x)) (op : Op ι T) :
    ∃ next, execute store op = some next ∧ ∀ x, Represents (next x) (onSets sets op x) := by
  have update (x : ι) {result : Option (List (Interval T))} {points : Set T}
      (hresult : ∃ r, result = some r ∧ Separated r ∧ covers r = points) :
      ∃ next, result.map (update store x) = some next ∧
        ∀ y, Represents (next y) (update sets x points y) := by
    obtain ⟨r, rfl, hr⟩ := hresult
    exact ⟨_, rfl, related_update h x hr⟩
  have hcovers (x : ι) : sets x = covers (store x) := (h x).2.symm
  cases op with
  | add x interval =>
    refine update x ?_
    rw [hcovers]
    exact add_spec (h x).1 interval
  | union x y =>
    refine update x ?_
    rw [hcovers, hcovers]
    exact union_spec (h x).1 (h y).1
  | intersection x y =>
    refine update x ?_
    rw [hcovers, hcovers]
    exact intersection_spec (h x).1 (h y).1 (by simp +contextual)
  | differenceInterval x interval aliased =>
    refine update x ?_
    rw [hcovers]
    exact differenceInterval_spec (h x).1 interval (addressIn_spec _ _ _)
  | difference x y =>
    refine update x ?_
    rw [hcovers, hcovers]
    exact difference_spec (h x).1 (h y).1 (by simp +contextual)
  | complement x start limit =>
    refine update x ?_
    rw [hcovers]
    exact complement_spec (h x).1 start limit

/-- A run of interval sets is one of sets of points. -/
theorem run_represents (ops : List (Op ι T)) :
    ∃ store, ops.foldlM execute (fun _ : ι => []) = some store ∧
      ∀ x, Represents (store x) (ops.foldl onSets (fun _ => ∅) x) :=
  @run_refines _ _ _ (fun _ _ => True) onSets execute
    (fun store sets => ∀ x, Represents (store x) (sets x))
      (fun _ _ op h _ => execute_represents h op)
    (fun _ : ι => []) (fun _ => ∅) (fun _ => ⟨separated_nil, covers_nil⟩) ops
    (legal_of_forall (fun _ _ => trivial) _ ops)

/-- Every program over initially empty interval sets runs without a fault. Its stored intervals
are non-empty, sorted and separated by gaps, and cover the points that the corresponding
operations on sets give. -/
theorem run_covers (ops : List (Op ι T)) :
    ∃ store, ops.foldlM execute (fun _ : ι => []) = some store ∧
      ∀ x, Separated (store x) ∧ covers (store x) = ops.foldl onSets (fun _ => ∅) x :=
  run_represents ops

omit [Inhabited T] in
/-- Sets are equal for `operator==` if they store the same intervals. -/
theorem equal_iff (a b : List (Interval T)) : equal a b = true ↔ a = b := by
  induction a generalizing b with
  | nil => cases b <;> simp [equal]
  | cons x a ih =>
    cases b with
    | nil => simp [equal]
    | cons y b =>
      have hrest := ih b
      cases x
      cases y
      simp [equal, nonemptyIntervalEq] at hrest ⊢
      tauto

/-- Whatever a program has done, `operator==` between two of its sets compares their points. -/
theorem run_eq_iff (ops : List (Op ι T)) :
    ∃ store, ops.foldlM execute (fun _ : ι => []) = some store ∧
      ∀ x y, equal (store x) (store y) = true ↔
        ops.foldl onSets (fun _ => ∅) x = ops.foldl onSets (fun _ => ∅) y := by
  obtain ⟨store, hrun, h⟩ := run_represents ops
  refine ⟨store, hrun, fun x y => ?_⟩
  rw [equal_iff, ← (h x).2, ← (h y).2]
  exact ⟨congrArg covers, (h x).1.eq_of_covers_eq (h y).1⟩

end Gloop.Gtl.IntervalSet
