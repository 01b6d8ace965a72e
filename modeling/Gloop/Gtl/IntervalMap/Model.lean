import Gloop.Foundation.OrderedSet
import Mathlib.Order.Lattice

/-!
# The interval map of `intervalmap.h`

`IntervalMap<K, V, Comparison>` keeps entries `[start, limit) -> value` in an ordered set sorted by
`limit`. The table is a list here and an iterator is a position in it, as for the interval set. The
order of the instance `LinearOrder K` is the one of `Comparison`. A result `none` stands for writing
through the end iterator.
-/

namespace Gloop.Gtl.IntervalMap

open Gloop.Foundation.OrderedSet

/-- `Entry`: the interval `[start, limit)` and its value. -/
structure Entry (K V : Type*) where
  limit : K
  start : K
  value : V
deriving DecidableEq, Repr

variable {K V : Type*} [LinearOrder K]

/-- `EntryComparison` on two entries. -/
def entryLess (a b : Entry K V) : Bool :=
  a.limit < b.limit

variable (table : List (Entry K V))

/-- `find(key)`, that is `table_.upper_bound(key)`: the first entry whose limit is above `key`. -/
def find (key : K) : Nat :=
  table.findIdx (fun e => key < e.limit)

omit [LinearOrder K] in
/-- `MutateStart(it, new_start)`. -/
def mutateStart (it : Nat) (newStart : K) : Option (List (Entry K V)) :=
  if it < table.length then some (table.modify it fun e => { e with start := newStart })
  else none

/-- `SplitAt(k)`. -/
def splitAt (k : K) : Option (List (Entry K V) × Nat) :=
  let iter := find table k
  match table[iter]? with
  | none => some (table, iter)
  | some e =>
    if e.start < k then do
      let (table, iter, _) := insert entryLess table ⟨k, e.start, e.value⟩
      let iter := iter + 1
      let table ← mutateStart table iter k
      pure (table, iter)
    else some (table, iter)

/-- The range erase in `EraseInternal`: the entries from `i` on that end within the range. -/
def eraseCovered (i : Nat) (limit : K) : List (Entry K V) :=
  match table[i]? with
  | none => table
  | some e => if !(limit < e.limit) then eraseRange table i (find table limit) else table

/-- `EraseInternal(start, limit)`, also called as `Erase`. -/
def eraseInternal (start limit : K) : Option (List (Entry K V) × Nat) := do
  let (table, i) ← splitAt table start
  let table := eraseCovered table i limit
  match table[i]? with
  | none => pure (table, i)
  | some e =>
    if e.start < limit then
      let table ← mutateStart table i limit
      pure (table, i)
    else pure (table, i)

/-- `SetInternal(start, limit, value)`, also called as `Set`. The hint that `InsertEntryWithHint`
passes to the ordered set only saves a search. -/
def setInternal (start limit : K) (value : V) : Option (List (Entry K V)) := do
  let (table, _) ← eraseInternal table start limit
  pure (insert entryLess table ⟨limit, start, value⟩).1

variable (valueEq : V → V → Bool)

/-- The part of `SetAndCoalesce` that supersedes the entry to the left of the gap, if it adjoins
and has the same value. It returns the table, the position of the entry to the right, and the start
of the range that is now missing. -/
def absorbLeft (table : List (Entry K V)) (right : Nat) (start : K)
    (value : V) : Option (List (Entry K V) × Nat × K) :=
  if right = 0 then some (table, right, start)
  else do
    let left := right - 1
    let e ← table[left]?
    if !(e.limit < start) && valueEq e.value value then
      let table ← erase table left
      pure (table, left, e.start)
    else pure (table, right, start)

/-- The part of `SetAndCoalesce` that extends the entry to the right of the gap, if it adjoins and
has the same value, and otherwise creates an entry. -/
def extendRight (table : List (Entry K V)) (right : Nat)
    (start limit : K) (value : V) : Option (List (Entry K V)) :=
  match table[right]? with
  | none => some (insert entryLess table ⟨limit, start, value⟩).1
  | some e =>
    if !(limit < e.start) && valueEq e.value value then mutateStart table right start
    else some (insert entryLess table ⟨limit, start, value⟩).1

/-- `SetAndCoalesce(start, limit, value, value_eq)`. -/
def setAndCoalesce (table : List (Entry K V)) (start limit : K)
    (value : V) : Option (List (Entry K V)) := do
  let (table, right) ← eraseInternal table start limit
  let (table, right, start) ← absorbLeft valueEq table right start value
  extendRight valueEq table right start limit value

/-- `SetNoOverlap(start, limit, value)`, that is `InsertEntry`. -/
def setNoOverlap (start limit : K) (value : V) : List (Entry K V) :=
  (insert entryLess table ⟨limit, start, value⟩).1

/-- `MergeFrom(src)`, for a source other than the map itself. -/
def mergeFrom (table src : List (Entry K V)) : Option (List (Entry K V)) :=
  if table.isEmpty then some src
  else src.foldlM (fun table e => setInternal table e.start e.limit e.value) table

/-- The end of the bulk copy: the entries of the source that are copied entirely, and a prefix of
the one after them. `le` is the built-in `<=` of the keys, which need not be the order of
`Comparison`; where it is, the `DCHECK` there repeats the test that ended the loop. -/
def copyEntire (le : K → K → Bool) (limit : K) (table : List (Entry K V)) :
    List (Entry K V) → List (Entry K V)
  | [] => table
  | e :: src =>
    if le e.limit limit then copyEntire le limit (insert entryLess table e).1 src
    else if e.start < limit then (insert entryLess table ⟨limit, e.start, e.value⟩).1
    else table

/-- The bulk copy of `MergeSubRangeFrom`, with the part of the source from `src_iter` on. The
built-in `>` is the negation of `<=`. -/
def copyBulk (le : K → K → Bool) (start limit : K) (table : List (Entry K V)) :
    List (Entry K V) → List (Entry K V)
  | [] => table
  | e :: src =>
    if !le start e.start then
      if le limit e.limit then (insert entryLess table ⟨limit, start, e.value⟩).1
      else copyEntire le limit (insert entryLess table ⟨e.limit, start, e.value⟩).1 src
    else copyEntire le limit table (e :: src)

/-- The loop of `MergeSubRangeFrom` that sets one clipped entry after the other. -/
def setClipped (start limit : K) (table : List (Entry K V)) :
    List (Entry K V) → Option (List (Entry K V))
  | [] => some table
  | e :: src =>
    let s := if e.start < start then start else e.start
    let l := if limit < e.limit then limit else e.limit
    if s < l then do
      let table ← setInternal table s l e.value
      setClipped start limit table src
    else some table

/-- `MergeSubRangeFrom(src, start, limit)`, for a source other than the map itself and keys with the
built-in `<=` given by `le`. -/
def mergeSubRangeFromBy (le : K → K → Bool) (table src : List (Entry K V)) (start limit : K) :
    Option (List (Entry K V)) :=
  let src := src.drop (find src start)
  if src.isEmpty then some table
  else if (table[find table start]?).all fun e => le limit e.start then
    some (copyBulk le start limit table src)
  else setClipped start limit table src

/-- `MergeSubRangeFrom(src, start, limit)` where `Comparison` is the natural order of the keys. -/
def mergeSubRangeFrom (table src : List (Entry K V)) (start limit : K) :
    Option (List (Entry K V)) :=
  mergeSubRangeFromBy (· ≤ ·) table src start limit

/-- `find_at(key)`: the entry that contains `key`, or the end. -/
def findAt (key : K) : Option (Entry K V) :=
  match table[find table key]? with
  | none => none
  | some e => if !(key < e.start) then some e else none

/-- `contains(key)`. -/
def contains (key : K) : Bool :=
  (findAt table key).isSome

/-- `Lookup(key, value)`; `LookupPtr` points to the same value. -/
def lookup (key : K) : Option V :=
  (findAt table key).map (·.value)

/-- `FindInterval(key, start, limit, value)`. -/
def findInterval (key : K) : Option (K × K × V) :=
  (findAt table key).map fun e => (e.start, e.limit, e.value)

/-- `IsEmptyInterval(start, limit)`. -/
def isEmptyInterval (start limit : K) : Bool :=
  match table[find table start]? with
  | none => true
  | some e => !(e.start < limit)

end Gloop.Gtl.IntervalMap
