import Gloop.Foundation.ArrayLoop
import Gloop.Foundation.Iterate

/-!
# `CircularBuffer` of `circularbuffer.h`

The buffer keeps its elements in an array of `capacity_` slots, from `begin_` on, and goes on at the
first slot after the last one. A slot is `none` while there is no object in it: constructing an
object needs such a slot, and reading, assigning and destroying one needs an object. Arithmetic is
that of `size_t`. A failed check is `none`.
-/

namespace Gloop.Gtl

open Gloop.Foundation

/-- The members of a `CircularBuffer`. An array without slots stands for a null `space_`. -/
structure CircularBuffer (α : Type) where
  capacity : Nat
  begin : Nat
  size : Nat
  space : List (Option α)
deriving DecidableEq, Repr

namespace CircularBuffer

variable {α : Type}

/-! ## Slots -/

variable (space : List (Option α))

/-- `Construct(space_ + pos, x)`. -/
def construct (pos : Nat) (x : α) : Option (List (Option α)) :=
  match space[pos]? with
  | some none => some (space.set pos (some x))
  | _ => none

/-- `Destroy(space_ + pos)`. -/
def destroy (pos : Nat) : Option (List (Option α)) :=
  match space[pos]? with
  | some (some _) => some (space.set pos none)
  | _ => none

/-- `space_[pos] = x`. -/
def assignSlot (pos : Nat) (x : α) : Option (List (Option α)) :=
  match space[pos]? with
  | some (some _) => some (space.set pos (some x))
  | _ => none

variable (b : CircularBuffer α)

/-- `space_[pos]`, and `at_absolute(pos)`. -/
def atAbsolute (pos : Nat) : Option α :=
  (b.space[pos]?).join

/-- `Allocate(n)`. -/
def allocate (n : Nat) : List (Option α) :=
  List.replicate n none

/-- `Deallocate(p, n)`, which needs slots without objects. -/
def deallocate (n : Nat) : Option Unit := do
  guard (space.isEmpty = decide (n = 0))
  guard (space.all Option.isNone)

/-! ## Positions -/

/-- `empty()`. -/
def empty : Bool :=
  b.size = 0

/-- `full()`. -/
def full : Bool :=
  b.size = b.capacity

/-- `logical_to_absolute(logical)`. -/
def logicalToAbsolute (logical : Nat) : Option Nat := do
  guard (logical < b.size)
  let absolute := (b.begin + logical) % 2 ^ 64
  let absolute := if b.capacity ≤ absolute then absolute - b.capacity else absolute
  guard (absolute < b.capacity)
  pure absolute

/-- `absolute_to_logical(absolute)`. -/
def absoluteToLogical (absolute : Nat) : Option Nat := do
  guard (absolute < b.capacity)
  let logical := (b.capacity + (2 ^ 64 - b.begin) + absolute) % 2 ^ 64
  let logical := if b.capacity ≤ logical then logical - b.capacity else logical
  guard (logical ≤ b.capacity)
  pure logical

/-- `nextpos(absolute)`. -/
def nextpos (absolute : Nat) : Option Nat := do
  guard (absolute < b.capacity)
  pure (if absolute + 1 = b.capacity then 0 else absolute + 1)

/-- `prevpos(absolute)`. -/
def prevpos (absolute : Nat) : Option Nat := do
  guard (absolute < b.capacity)
  pure ((if absolute = 0 then absolute + b.capacity else absolute) - 1)

/-! ## Elements -/

/-- `front()`. -/
def front : Option α :=
  b.atAbsolute b.begin

/-- `back()`. -/
def back : Option α := do
  let pos ← b.logicalToAbsolute ((b.size + 2 ^ 64 - 1) % 2 ^ 64)
  b.atAbsolute pos

/-- `at(pos)`. -/
def atPos (pos : Int) : Option α := do
  let logical := ((pos + if pos < 0 then (b.size : Int) else 0) % 2 ^ 64).toNat
  guard (logical < b.size)
  let absolute ← b.logicalToAbsolute logical
  b.atAbsolute absolute

/-- `CircularBuffer(c)`. -/
def new (c : Nat) : CircularBuffer α :=
  { capacity := c, begin := 0, size := 0, space := allocate c }

/-- `push_front(item)`. -/
def pushFront (item : α) : Option (CircularBuffer α) := do
  guard (b.capacity ≠ 0)
  let begin ← b.prevpos b.begin
  if b.full then
    let space ← assignSlot b.space begin item
    pure { b with begin, space }
  else
    let space ← construct b.space begin item
    pure { b with begin, space, size := b.size + 1 }

/-- `push_back(item)`. -/
def pushBack (item : α) : Option (CircularBuffer α) := do
  guard (b.capacity ≠ 0)
  if b.full then
    let space ← assignSlot b.space b.begin item
    let begin ← b.nextpos b.begin
    pure { b with begin, space }
  else
    let b := { b with size := b.size + 1 }
    let pos ← b.logicalToAbsolute (b.size - 1)
    let space ← construct b.space pos item
    pure { b with space }

/-- The arguments of an `emplace`: the elements of the buffer that they refer to, by their positions
from the front, and the object that they make with these elements. -/
structure Args (α : Type) where
  refs : List Nat
  make : List α → α

/-- Make the object, which reads the elements in the given slots. -/
def Args.read (args : Args α) (slots : List Nat) (space : List (Option α)) : Option α := do
  let elements ← slots.mapM fun pos => (space[pos]?).join
  pure (args.make elements)

/-- `emplace_front(args)`. On a full buffer, the last element is gone when `args` are read. -/
def emplaceFront (args : Args α) : Option (CircularBuffer α) := do
  guard (b.capacity ≠ 0)
  let slots ← args.refs.mapM b.logicalToAbsolute
  let begin ← b.prevpos b.begin
  if b.full then
    let space ← destroy b.space begin
    let item ← args.read slots space
    let space ← construct space begin item
    pure { b with begin, space }
  else
    let item ← args.read slots b.space
    let space ← construct b.space begin item
    pure { b with begin, space, size := b.size + 1 }

/-- `emplace_back(args)`. On a full buffer, the first element is gone when `args` are read. -/
def emplaceBack (args : Args α) : Option (CircularBuffer α) := do
  guard (b.capacity ≠ 0)
  let slots ← args.refs.mapM b.logicalToAbsolute
  if b.full then
    let space ← destroy b.space b.begin
    let item ← args.read slots space
    let space ← construct space b.begin item
    let begin ← b.nextpos b.begin
    pure { b with begin, space }
  else
    let item ← args.read slots b.space
    let b := { b with size := b.size + 1 }
    let pos ← b.logicalToAbsolute (b.size - 1)
    let space ← construct b.space pos item
    pure { b with space }

/-- `pop_front()`. -/
def popFront : Option (CircularBuffer α) := do
  guard (0 < b.size)
  let space ← destroy b.space b.begin
  let begin ← b.nextpos b.begin
  pure { b with begin, space, size := b.size - 1 }

/-- `pop_back()`. -/
def popBack : Option (CircularBuffer α) := do
  guard (0 < b.size)
  let pos ← b.logicalToAbsolute (b.size - 1)
  let space ← destroy b.space pos
  pure { b with space, size := b.size - 1 }

/-- A round of `clear`. -/
def clearSlot (space : List (Option α)) (i : Nat) : Option (List (Option α)) := do
  let pos ← b.logicalToAbsolute i
  destroy space pos

/-- `clear()`. -/
def clear : Option (CircularBuffer α) := do
  let space ← (List.range b.size).foldlM b.clearSlot b.space
  pure { b with begin := 0, size := 0, space }

/-! ## Iterators -/

/-- `kEnd`, as a position. -/
def kEnd : Nat := 2 ^ 64 - 1

/-- `begin()`, as a position. -/
def beginIter : Nat :=
  if b.empty then kEnd else b.begin

/-- `logical_pos()`. -/
def logicalPos (pos : Nat) : Option Nat :=
  if pos = kEnd then some b.size else b.absoluteToLogical pos

/-- `Incr(n)`, and `+=`, `++` and, with `-n`, `-=` and `--`. -/
def incr (pos : Nat) (n : Int) : Option Nat := do
  let logical ← b.logicalPos pos
  let logical := (((logical : Int) + n) % 2 ^ 64).toNat
  guard (logical ≤ b.size)
  if logical = b.size then pure kEnd else b.logicalToAbsolute logical

/-- `Subtract(a, b)`. -/
def subtract (first second : Nat) : Option Int := do
  let i ← b.logicalPos first
  let j ← b.logicalPos second
  pure ((BitVec.ofNat 64 i).toInt - (BitVec.ofNat 64 j).toInt)

/-- `a < b` on iterators. -/
def iterLt (first second : Nat) : Option Bool := do
  let d ← b.subtract second first
  pure (decide (0 < d))

/-- `a <= b` on iterators, which is `!(a > b)`. -/
def iterLe (first second : Nat) : Option Bool := do
  let gt ← b.iterLt second first
  pure (!gt)

/-! ## Copies -/

/-- A round of `for (const auto& e : o) Construct(p++, e)`. -/
def copyStep (o : CircularBuffer α) :
    Nat × Nat × List (Option α) → Option (Nat × Nat × List (Option α) ⊕ List (Option α))
  | (pos, p, space) =>
    if pos = kEnd then some (.inr space)
    else do
      let e ← o.atAbsolute pos
      let space ← construct space p e
      let pos ← o.incr pos 1
      pure (.inl (pos, p + 1, space))

/-- `CircularBuffer(o)`. -/
def copy (o : CircularBuffer α) : Option (CircularBuffer α) := do
  let space ← iterate o.copyStep (o.beginIter, 0, allocate o.capacity)
  pure { capacity := o.capacity, begin := 0, size := o.size, space }

/-- Destroy the elements and give back the array: `~CircularBuffer()`. -/
def release : Option Unit := do
  let b ← b.clear
  deallocate b.space b.capacity

/-- `operator=(o)` for another object. -/
def assign (b o : CircularBuffer α) : Option (CircularBuffer α) := do
  b.release
  o.copy

/-- `operator=(std::move(o))` for another object. An allocator that cannot be taken over makes the
elements move one by one into a new array. -/
def moveAssign (steals : Bool) (b o : CircularBuffer α) : Option (CircularBuffer α) := do
  b.release
  if steals then pure o
  else
    let result ← o.copy
    o.release
    pure result

/-- A round of `std::copy` into `std::back_inserter(tmp)`. -/
def insertStep (last : Nat) :
    Nat × CircularBuffer α → Option (Nat × CircularBuffer α ⊕ CircularBuffer α)
  | (pos, tmp) =>
    if pos = last then some (.inr tmp)
    else do
      let e ← b.atAbsolute pos
      let tmp ← tmp.pushBack e
      let pos ← b.incr pos 1
      pure (.inl (pos, tmp))

/-- `ChangeCapacity(new_capacity)`. -/
def changeCapacity (steals : Bool) (b : CircularBuffer α) (newCapacity : Nat) :
    Option (CircularBuffer α) :=
  if newCapacity = b.capacity then some b
  else do
    let last ← b.incr b.beginIter (min b.size newCapacity)
    let tmp ← iterate (b.insertStep last) (b.beginIter, new newCapacity)
    moveAssign steals b tmp

end CircularBuffer

end Gloop.Gtl
