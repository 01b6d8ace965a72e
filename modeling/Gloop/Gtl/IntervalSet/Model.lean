import Gloop.Foundation.Iterate
import Gloop.Foundation.OrderedSet
import Gloop.Gtl.Interval

/-!
# The interval set of `interval_set.h`

`IntervalSet<T>` keeps its intervals in an ordered set under `IntervalLess`. Here the stored
intervals are a list and an iterator is a position in it, so each member function below follows
the C++ body statement by statement. A result `none` stands for dereferencing or erasing the end
iterator and for a loop that does not end. `Intersection` and `Difference` test whether their
argument is the object itself, so they take the outcome of that test as an argument.
-/

namespace Gloop.Gtl.IntervalSet

open Gloop.Foundation
open Gloop.Foundation.OrderedSet

variable {T : Type*} [LinearOrder T]

/-- `IntervalLess`: ascending start, then descending limit. -/
def intervalLess (a b : Interval T) : Bool :=
  a.start < b.start || (a.start == b.start && a.limit > b.limit)

/-- `IntervalLess` between an interval and the point interval at `b`. -/
def intervalLessPoint (a : Interval T) (b : T) : Bool :=
  a.start < b || (a.start == b && a.limit > b)

/-- `IntervalLess` between the point interval at `a` and an interval. -/
def pointLessInterval (a : T) (b : Interval T) : Bool :=
  a < b.start

/-- `Valid()`: no interval is empty, and each starts after the limit of the one before it. -/
def valid : Option (Interval T) → List (Interval T) → Bool
  | _, [] => true
  | prev, it :: rest =>
    if it.start ≥ it.limit then false
    else if prev.any (fun prev => prev.limit ≥ it.start) then false
    else valid (some it) rest

/-- `NonemptyIntervalEq`, without the case of empty intervals. -/
def nonemptyIntervalEq (a b : Interval T) : Bool :=
  a.start == b.start && a.limit == b.limit

/-- `operator==`: as many intervals, and `std::equal` on them. -/
def equal (a b : List (Interval T)) : Bool :=
  a.length == b.length && (a.zip b).all fun (x, y) => nonemptyIntervalEq x y

/-- `SpanningInterval()`: from the first start to the last limit. -/
def spanningInterval [Inhabited T] (s : List (Interval T)) : Interval T :=
  match s.head?, s.getLast? with
  | some first, some last => ⟨first.start, last.limit⟩
  | _, _ => default

variable (s : List (Interval T))

/-- `ReplaceInterval(it, interval)`: erase the interval at `it` and insert the new one. The
iterator moves to the new interval. -/
def replaceInterval (it : Nat) (interval : Interval T) : Option (List (Interval T) × Nat) := do
  let s ← erase s it
  let (s, it, _) := insert intervalLess s interval
  pure (s, it)

/-- One pass through the loop of `Compact` with its iterators `prev` and `it`. -/
def compactStep (shouldContinue : Interval T → Bool) : List (Interval T) × Nat × Nat →
      Option ((List (Interval T) × Nat × Nat) ⊕ List (Interval T))
  | (s, prev, it) =>
    match s[it]? with
    | none => some (.inr s)
    | some current =>
      if !shouldContinue current then some (.inr s)
      else do
        let before ← s[prev]?
        if before.limit ≥ current.start then
          if before.limit < current.limit then
            let (s, prev) ← replaceInterval s prev ⟨before.start, current.limit⟩
            let s ← erase s (prev + 1)
            pure (.inl (s, prev, prev + 1))
          else
            let s ← erase s it
            pure (.inl (s, it - 1, it))
        else pure (.inl (s, it, it + 1))

/-- `Compact(begin, should_continue)`: merge touching neighbours from `begin` on. -/
def compact (begin : Nat) (shouldContinue : Interval T → Bool) : Option (List (Interval T)) :=
  if begin = s.length then some s
  else iterate (compactStep shouldContinue) (s, begin, begin + 1)

/-- `Add(interval)`, that is `AddImpl`. -/
def add (interval : Interval T) : Option (List (Interval T)) :=
  if interval.empty then some s
  else
    let (s, it, inserted) := insert intervalLess s interval
    if !inserted then some s
    else do
      let limit := (← s[it]?).limit
      let it := if it ≠ 0 then it - 1 else it
      let last := s.findIdx (pointLessInterval limit)
      if last = s.length then compact s it (fun _ => true)
      else do
        let actualEnd := (← s[last]?).start
        compact s it (intervalLessPoint · actualEnd)

/-- `InitImpl`: the set that holds the interval, unless it is empty. -/
def init (interval : Interval T) : List (Interval T) :=
  if interval.empty then [] else (insert intervalLess [] interval).1

variable (s other : List (Interval T))

/-- `Union(other)`. When `other` is the object itself nothing is inserted, so the iteration over
it is not disturbed. -/
def union : Option (List (Interval T)) :=
  compact (insertAll intervalLess s other) 0 (fun _ => true)

/-- `FindIntersectionCandidate(interval)`. -/
def findIntersectionCandidate (interval : Interval T) : Nat :=
  let mine := upperBound intervalLess s interval
  if mine ≠ 0 then mine - 1 else mine

/-- `*--it` for an iterator that is not the first. -/
def before (it : Nat) : Option (Interval T) :=
  if it = 0 then none else s[it - 1]?

/-- `Contains(value)`. -/
def containsValue (value : T) : Bool :=
  (before s (s.findIdx (pointLessInterval value))).any (·.contains value)

/-- `Contains(interval)`. -/
def containsInterval (interval : Interval T) : Bool :=
  (before s (upperBound intervalLess s interval)).any (·.containsInterval interval)

/-- `Find(value)`, the end if there is none. -/
def findValue (value : T) : Nat :=
  let it := s.findIdx (pointLessInterval value)
  if (before s it).any (·.contains value) then it - 1 else s.length

/-- `Find(probe)`, the end if there is none. -/
def findInterval (probe : Interval T) : Nat :=
  let it := upperBound intervalLess s probe
  if (before s it).any (·.containsInterval probe) then it - 1 else s.length

/-- `LowerBound(value)`. -/
def lowerBoundValue (value : T) : Nat :=
  let it := s.findIdx (!intervalLessPoint · value)
  if (before s it).any (·.contains value) then it - 1 else it

/-- `UpperBound(value)`. -/
def upperBoundValue (value : T) : Nat :=
  s.findIdx (pointLessInterval value)

/-- `IsDisjoint(interval)`. -/
def isDisjoint (interval : Interval T) : Bool :=
  if interval.empty then true
  else
    let it := s.findIdx (pointLessInterval interval.start)
    if s[it]?.any (interval.limit > ·.start) then false
    else (before s it).all (·.limit ≤ interval.start)

/-- What `FindNextIntersectingPairImpl` does with the intervals between two iterators that meet
nothing: it returns the changed list and the position after them. -/
abbrev OnHole (T : Type*) := List (Interval T) → Nat → Nat → List (Interval T) × Nat

/-- The `on_hole` of `FindNextIntersectingPair`, which keeps them. -/
def keepHoles : OnHole T := fun x _ last => (x, last)

/-- The `on_hole` of `FindNextIntersectingPairAndEraseHoles`. -/
def eraseHoles : OnHole T := fun x first last => (eraseRange x first last, first)

/-- One pass through the loop of `FindNextIntersectingPairImpl`. -/
def findNextStep (onHole : OnHole T) (y : List (Interval T)) : List (Interval T) × Nat × Nat →
      Option ((List (Interval T) × Nat × Nat) ⊕ (Bool × List (Interval T) × Nat × Nat))
  | (x, mine, theirs) => do
    let m ← x[mine]?
    let t ← y[theirs]?
    if m.intersects t then pure (.inr (true, x, mine, theirs))
    else
      let reached := advanceWhile (fun m => m.limit ≤ t.start) x mine
      let (x, mine) := onHole x mine reached
      match x[mine]? with
      | none => pure (.inr (false, x, mine, theirs))
      | some m =>
        let theirs := advanceWhile (fun t => t.limit ≤ m.start) y theirs
        if theirs = y.length then
          let (x, mine) := onHole x mine x.length
          pure (.inr (false, x, mine, theirs))
        else pure (.inl (x, mine, theirs))

/-- `FindNextIntersectingPairImpl(x, y, mine, theirs, on_hole)`. -/
def findNextIntersectingPair (onHole : OnHole T) (x y : List (Interval T))
    (mine theirs : Nat) : Option (Bool × List (Interval T) × Nat × Nat) :=
  if mine = x.length || theirs = y.length then some (false, x, mine, theirs)
  else iterate (findNextStep onHole y) (x, mine, theirs)

/-- The test `empty() || other.empty() || ...` that the spanning intervals do not meet. -/
def spansDisjoint : Bool :=
  match s.head?, s.getLast?, other.head?, other.getLast? with
  | some first, some last, some otherFirst, some otherLast =>
    first.start ≥ otherLast.limit || last.limit ≤ otherFirst.start
  | _, _, _, _ => true

/-- `Intersects(other)`. -/
def intersects : Option Bool :=
  if spansDisjoint s other then some false
  else
    other.head?.bind fun first =>
      let mine := findIntersectionCandidate s first
      if mine = s.length then some false
      else
        s[mine]?.bind fun m =>
          let theirs := findIntersectionCandidate other m
          (findNextIntersectingPair keepHoles s other mine theirs).map (·.1)

/-- One pass through the loop of `Intersection` that inserts the pieces of `i`. -/
def spliceStep (i : Interval T) (other : List (Interval T)) : List (Interval T) × Nat × Nat →
      Option ((List (Interval T) × Nat × Nat) ⊕ (List (Interval T) × Nat × Nat))
  | (s, mine, theirs) =>
    match other[theirs]?.bind i.intersects? with
    | none => some (.inr (s, mine, theirs))
    | some piece =>
      let (s, mine, _) := insert intervalLess s piece
      some (.inl (s, mine, theirs + 1))

/-- One pass through the outer loop of `Intersection`. -/
def intersectionStep (other : List (Interval T)) : List (Interval T) × Nat × Nat →
      Option ((List (Interval T) × Nat × Nat) ⊕ List (Interval T))
  | (s, mine, theirs) => do
    let (found, s, mine, theirs) ← findNextIntersectingPair eraseHoles s other mine theirs
    if !found then pure (.inr s)
    else
      let i ← s[mine]?
      let s ← erase s mine
      let (s, mine, theirs) ← iterate (spliceStep i other) (s, s.length, theirs)
      pure (.inl (s, mine + 1, theirs - 1))

/-- `Intersection(other)`; `same` is `this == &other`. -/
def intersection (same : Bool) (s other : List (Interval T)) : Option (List (Interval T)) :=
  if same then some s
  else if spansDisjoint s other then some []
  else do
    let mine := findIntersectionCandidate s (← other.head?)
    let s := eraseRange s 0 mine
    let theirs := findIntersectionCandidate other (← s.head?)
    iterate (intersectionStep other) (s, 0, theirs)

variable [Inhabited T]

/-- The end of `Difference(interval)`: erase the covered intervals from `it` on, then shorten the
next one if `interval` reaches into it. -/
def trimFrom (it : Nat) (interval : Interval T) : Option (List (Interval T)) :=
  let s := eraseWhile (fun i => i.limit ≤ interval.limit) s it
  match s[it]? with
  | none => some s
  | some i =>
    if i.start < interval.limit then
      (replaceInterval s it ⟨interval.limit, i.limit⟩).map (·.1)
    else some s

/-- `Difference(interval)`; `address` is the position of `interval` in this very set when the
argument is a reference to a stored interval. -/
def differenceInterval (s : List (Interval T)) (interval : Interval T) (address : Option Nat) :
    Option (List (Interval T)) :=
  if !(spanningInterval s).intersects interval then some s
  else
    let it := findIntersectionCandidate s interval
    if it = s.length then some s
    else if address = some it then erase s it
    else do
      let first ← s[it]?
      if first.start < interval.start then
        let (met, lo, hi) := first.difference interval
        if met then
          let (s, it) ← replaceInterval s it lo
          if !hi.empty then pure (insert intervalLess s hi).1
          else trimFrom s (it + 1) interval
        else trimFrom s (it + 1) interval
      else trimFrom s it interval

/-- One pass through the loop of `Difference(other)`. -/
def differenceStep (other : List (Interval T)) : List (Interval T) × Nat × Nat →
      Option ((List (Interval T) × Nat × Nat) ⊕ List (Interval T))
  | (s, mine, theirs) => do
    let (found, s, mine, theirs) ← findNextIntersectingPair keepHoles s other mine theirs
    if !found then pure (.inr s)
    else
      let (_, lo, hi) := (← s[mine]?).difference (← other[theirs]?)
      if !hi.empty then
        let (s, mine) ← replaceInterval s mine hi
        if !lo.empty then
          let (s, mine, _) := insert intervalLess s lo
          pure (.inl (s, mine, theirs))
        else pure (.inl (s, mine, theirs))
      else if !lo.empty then
        let (s, mine) ← replaceInterval s mine lo
        pure (.inl (s, mine + 1, theirs))
      else
        let s ← erase s mine
        pure (.inl (s, mine, theirs))

/-- `Difference(other)`; `same` is `this == &other`. -/
def difference (same : Bool) (s other : List (Interval T)) : Option (List (Interval T)) :=
  if same then some []
  else if spansDisjoint s other then some s
  else do
    let mine := findIntersectionCandidate s (← other.head?)
    if mine = s.length then pure s
    else
      let theirs := findIntersectionCandidate other (← s.head?)
      iterate (differenceStep other) (s, mine, theirs)

/-- `Complement(start, limit)`. -/
def complement (s : List (Interval T)) (start limit : T) : Option (List (Interval T)) :=
  difference false (init ⟨start, limit⟩) s

end Gloop.Gtl.IntervalSet
