import Gloop.Foundation.OrderedSet
import Gloop.Foundation.WeakOrder

/-!
# Insertion into `flat_set` and `flat_map` of `flat_internal.h`

The container is the list of the elements of `rep`, and an iterator is a position. The algorithms of
the standard library stand for what their documentation says: `std::lower_bound` and
`std::upper_bound` are searches for the first position, `std::stable_sort` is a merge sort,
`std::merge` and `std::inplace_merge` prefer the first range, and `std::unique` compares each
element with the last one that it kept. `assignable` and `copyAssignable` select the branches of `if
constexpr`. A read or a write beyond the end is `none`.
-/

namespace Gloop.Gtl.Flat

variable {α : Type}

/-- `OnKeyCollision`. The second policy assigns the mapped value; `assign old v` is the element that
results. -/
inductive OnKeyCollision (α : Type) where
  | keepOldValue
  | assignNewValue (assign : α → α → α)

/-! ## Positions -/

/-- `std::lower_bound`. -/
def lowerBound (cmp : α → α → Bool) (rep : List α) (v : α) : Nat :=
  rep.findIdx fun y => !cmp y v

/-- `std::upper_bound`. -/
def upperBound (cmp : α → α → Bool) (rep : List α) (v : α) : Nat :=
  rep.findIdx fun y => cmp v y

/-- `reconstruct_element(rep, pos, v)`. -/
def reconstructElement (rep : List α) (pos : Nat) (v : α) : Option (List α) :=
  if pos < rep.length then some (rep.set pos v) else none

/-- The loop of `emplace_non_assignable`, where `last` is `n` positions behind `it`. -/
def shiftElements (it : Nat) : Nat → List α → Option (List α)
  | 0, rep => some rep
  | n + 1, rep => do
    let previous ← rep[it + n]?
    let rep ← reconstructElement rep (it + n + 1) previous
    shiftElements it n rep

/-- `emplace_non_assignable(rep, pos, v)`, with the position of the new element. -/
def emplaceNonAssignable (rep : List α) (pos : Nat) (v : α) : Option (List α × Nat) :=
  if pos = rep.length then some (rep ++ [v], pos)
  else do
    let tmp ← (rep ++ [v]).getLast?
    let rep ← shiftElements pos ((rep ++ [v]).length - 1 - pos) (rep ++ [v])
    let rep ← reconstructElement rep pos tmp
    some (rep, pos)

/-- `container_emplace(rep, pos, v)`. -/
def containerEmplace (assignable : Bool) (rep : List α) (pos : Nat) (v : α) :
    Option (List α × Nat) :=
  if assignable then
    if pos ≤ rep.length then some (rep.insertIdx pos v, pos) else none
  else emplaceNonAssignable rep pos v

/-! ## Inserting one element -/

section One

variable (assignable : Bool) (cmp : α → α → Bool) (policy : OnKeyCollision α) (rep : List α)

/-- `multi_insert(rep, v, cmp)`. -/
def multiInsert (v : α) : Option (List α × Nat) :=
  containerEmplace assignable rep (upperBound cmp rep v) v

/-- What the policy does with the element at a position. -/
def collide (it : Nat) (v : α) : Option (List α) :=
  match policy with
  | .keepOldValue => some rep
  | .assignNewValue assign => do
    let old ← rep[it]?
    some (rep.set it (assign old v))

/-- `insert(rep, v, cmp)`: the container, the position and whether the element was inserted. -/
def insert (v : α) : Option (List α × Nat × Bool) :=
  let it := lowerBound cmp rep v
  match rep[it]? with
  | none => do
    let (rep, pos) ← containerEmplace assignable rep it v
    some (rep, pos, true)
  | some y =>
    if cmp v y then do
      let (rep, pos) ← containerEmplace assignable rep it v
      some (rep, pos, true)
    else do
      let rep ← collide policy rep it v
      some (rep, it, false)

/-- `VerifyHintResult` with the iterator that comes with it. -/
inductive VerifyHintResult where
  | perfectHint (pos : Nat)
  | keyExists (pos : Nat)
  | badHint
  deriving DecidableEq, Repr

/-- The second half of `verify_hint`: the comparison with `*(hint - 1)`, which is not made at the
beginning. -/
def verifyBefore (hint : Nat) (v : α) : Option VerifyHintResult :=
  if hint ≠ 0 then do
    let y ← rep[hint - 1]?
    some (if !cmp y v then (if cmp v y then .badHint else .keyExists (hint - 1))
      else .perfectHint hint)
  else some (.perfectHint hint)

/-- `verify_hint(c, hint, v, cmp)`. -/
def verifyHint (hint : Nat) (v : α) : Option VerifyHintResult :=
  if hint ≠ rep.length then do
    let y ← rep[hint]?
    if !cmp v y then some (if cmp y v then .badHint else .keyExists hint)
    else verifyBefore cmp rep hint v
  else verifyBefore cmp rep hint v

/-- `insert_hint(rep, hint, v, cmp)`. -/
def insertHint (hint : Nat) (v : α) : Option (List α × Nat) := do
  match ← verifyHint cmp rep hint v with
  | .perfectHint pos => containerEmplace assignable rep pos v
  | .keyExists pos => do
    let rep ← collide policy rep pos v
    some (rep, pos)
  | .badHint => do
    let (rep, pos, _) ← insert assignable cmp policy rep v
    some (rep, pos)

/-- The `else if` of `multi_insert_hint`: a hint above the place of `v` becomes the upper bound. -/
def lowerHint (hint : Nat) (v : α) : Option Nat :=
  if hint ≠ 0 then do
    let y ← rep[hint - 1]?
    some (if cmp v y then upperBound cmp rep v else hint)
  else some hint

/-- The hint that `multi_insert_hint` ends up with. -/
def adjustHint (hint : Nat) (v : α) : Option Nat :=
  if hint ≠ rep.length then do
    let y ← rep[hint]?
    if cmp y v then some (lowerBound cmp rep v) else lowerHint cmp rep hint v
  else lowerHint cmp rep hint v

/-- `multi_insert_hint(rep, hint, v, cmp)`. -/
def multiInsertHint (hint : Nat) (v : α) : Option (List α × Nat) := do
  let hint ← adjustHint cmp rep hint v
  containerEmplace assignable rep hint v

/-- The elements of a range inserted one after the other. -/
def insertEach (range : List α) : Option (List α) :=
  range.foldlM (fun rep v => do
    let (rep, _, _) ← insert assignable cmp policy rep v
    some rep) rep

end One

/-! ## Inserting a range -/

section Range

variable (copyAssignable : Bool) (cmp : α → α → Bool)

/-- `std::stable_sort`. -/
def stableSort (l : List α) : List α :=
  l.mergeSort fun a b => !cmp b a

/-- `std::merge` and `std::inplace_merge`. -/
def merge (first second : List α) : List α :=
  first.merge second fun a b => !cmp b a

/-- A round of `std::unique`, with the elements that are kept. -/
def uniqueStep (eq : α → α → Bool) (kept : List α) (x : α) : List α :=
  match kept.getLast? with
  | none => [x]
  | some last => if eq last x then kept else kept ++ [x]

/-- `multi_insert_range(rep, first, last, cmp)`. -/
def multiInsertRange (rep range : List α) : List α :=
  if copyAssignable then
    let originalSize := rep.length
    let rep := rep ++ range
    let rep := rep.take originalSize ++ stableSort cmp (rep.drop originalSize)
    merge cmp (rep.take originalSize) (rep.drop originalSize)
  else merge cmp rep (stableSort cmp range)

/-- `remove_duplicates(rep, cmp)`. -/
def removeDuplicates (rep : List α) : List α :=
  rep.foldl (uniqueStep fun left right => !cmp left right) []

/-- `insert_range(rep, first, last, cmp)`. -/
def insertRange (rep range : List α) : List α :=
  if range = [] then rep else removeDuplicates cmp (multiInsertRange copyAssignable cmp rep range)

/-- `maybe_append(it)`. -/
def maybeAppend (rep : List α) (x : α) : List α :=
  match rep.getLast? with
  | none => rep ++ [x]
  | some back => if cmp back x then rep ++ [x] else rep

/-- The loop of `insert_range_non_assignable` over both ranges, with what it leaves of them. -/
def mergeLoop : List α → List α → List α → List α × List α × List α
  | rep, a :: first, b :: second =>
    if cmp b a then mergeLoop (maybeAppend cmp rep b) (a :: first) second
    else mergeLoop (maybeAppend cmp rep a) first (b :: second)
  | rep, first, second => (rep, first, second)
termination_by _ first second => first.length + second.length

/-- `insert_range_non_assignable(rep, first, last, cmp)`. -/
def insertRangeNonAssignable (rep range : List α) : List α :=
  if range = [] then rep
  else
    let old := rep
    let tmp := if range.length > 1 then stableSort cmp range else range
    let (rep, first, second) := mergeLoop cmp [] old tmp
    -- the rest of the old elements goes in at once if its head does
    let rep := match first, rep.getLast? with
      | [], _ => rep
      | first, none => rep ++ first
      | a :: first, some back => if cmp back a then rep ++ a :: first else rep
    second.foldl (maybeAppend cmp) rep

end Range

end Gloop.Gtl.Flat
