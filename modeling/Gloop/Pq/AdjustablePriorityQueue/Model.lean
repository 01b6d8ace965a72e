import Gloop.Foundation.BinaryHeap
import Gloop.Foundation.Iterate

/-!
# Model of `AdjustablePriorityQueue`

A state is the vector of pointers together with what the elements hold: their heap indices and their
priorities. `lower` is the comparison of priorities. An access outside of the vector and a failed
check are `none`. `std::make_heap` is any function that does what the standard says.
-/

namespace Gloop.Pq

open Gloop.Foundation

/-- The vector of an `AdjustablePriorityQueue`, and the heap indices and priorities of all
elements. -/
structure AdjustablePriorityQueue (π κ : Type) where
  elems : List π
  heapIndex : π → Int
  priority : π → κ

namespace AdjustablePriorityQueue

variable {π κ : Type} [DecidableEq π] (lower : κ → κ → Bool) (s : AdjustablePriorityQueue π κ)

/-- `lower_priority(a, b)`. -/
def lowerPriority (a b : π) : Bool :=
  lower (s.priority a) (s.priority b)

/-- `SetHeapIndex(elems_[offset], offset)`, which is also what the index maintainer does. -/
def setHeapIndex (offset : Nat) : Option (AdjustablePriorityQueue π κ) := do
  let t ← s.elems[offset]?
  some { s with heapIndex := Function.update s.heapIndex t offset }

/-- `elems_[i] = t`. -/
def setElem (i : Nat) (t : π) : Option (AdjustablePriorityQueue π κ) :=
  if i < s.elems.length then some { s with elems := s.elems.set i t } else none

/-- `elems_.pop_back()`. -/
def popBack : Option (AdjustablePriorityQueue π κ) :=
  if s.elems = [] then none else some { s with elems := s.elems.dropLast }

/-- `*(first + i) = t` and the call of the maintainer that follows it. -/
def place (i : Nat) (t : π) : Option (AdjustablePriorityQueue π κ) := do
  let s ← s.setElem i t
  s.setHeapIndex i

/-! ## `adjustable-heap.h` -/

/-- A turn of the loop of `AdjustUpwards`. -/
def adjustUpwardsStep (t : π) : AdjustablePriorityQueue π κ × Nat →
    Option ((AdjustablePriorityQueue π κ × Nat) ⊕ (AdjustablePriorityQueue π κ × Nat))
  | (s, i) =>
    if i > 0 then do
      let parent := (i - 1) / 2
      let q ← s.elems[parent]?
      if !s.lowerPriority lower q t then some (.inr (s, i))
      else do
        let s ← s.place i q
        some (.inl (s, parent))
    else some (.inr (s, i))

/-- `AdjustUpwards(first, i, t, comp, maintainer)`. -/
def adjustUpwards (i : Nat) (t : π) : Option (AdjustablePriorityQueue π κ) := do
  let (s, i) ← iterate (adjustUpwardsStep lower t) (s, i)
  s.place i t

/-- The `next_i` of `AdjustDownwards`. -/
def nextChild (leftChild length : Nat) : Option Nat :=
  let rightChild := leftChild + 1
  if rightChild < length then do
    let left ← s.elems[leftChild]?
    let right ← s.elems[rightChild]?
    some (if s.lowerPriority lower left right then rightChild else leftChild)
  else some leftChild

/-- A turn of the loop of `AdjustDownwards`. -/
def adjustDownwardsStep (length : Nat) (t : π) : AdjustablePriorityQueue π κ × Nat →
    Option ((AdjustablePriorityQueue π κ × Nat) ⊕ (AdjustablePriorityQueue π κ × Nat))
  | (s, i) =>
    let leftChild := 1 + 2 * i
    if leftChild ≥ length then some (.inr (s, i))
    else do
      let next ← s.nextChild lower leftChild length
      let k ← s.elems[next]?
      if !s.lowerPriority lower t k then some (.inr (s, i))
      else do
        let s ← s.place i k
        some (.inl (s, next))

/-- `AdjustDownwards(first, i, length, t, comp, maintainer)`. -/
def adjustDownwards (i length : Nat) (t : π) : Option (AdjustablePriorityQueue π κ) := do
  let (s, i) ← iterate (adjustDownwardsStep lower length t) (s, i)
  s.place i t

/-- A turn of the loop of `AdjustHoleDownwards`. -/
def adjustHoleDownwardsStep (length : Nat) : AdjustablePriorityQueue π κ × Nat →
    Option ((AdjustablePriorityQueue π κ × Nat) ⊕ (AdjustablePriorityQueue π κ × Nat))
  | (s, i) =>
    let leftChild := 1 + 2 * i
    if leftChild ≥ length then some (.inr (s, i))
    else
      let rightChild := leftChild + 1
      if rightChild ≥ length then do
        let left ← s.elems[leftChild]?
        let s ← s.place i left
        some (.inr (s, leftChild))
      else do
        let left ← s.elems[leftChild]?
        let right ← s.elems[rightChild]?
        let next := if s.lowerPriority lower left right then rightChild else leftChild
        let k ← s.elems[next]?
        let s ← s.place i k
        some (.inl (s, next))

/-- `AdjustHoleDownwards(first, i, length, comp, maintainer)`, with the slot that it returns. -/
def adjustHoleDownwards (i length : Nat) : Option (AdjustablePriorityQueue π κ × Nat) :=
  iterate (adjustHoleDownwardsStep lower length) (s, i)

/-! ## `adjustable_priority_queue.h` -/

/-- The constructor from a range. The elements hold what they held before. -/
def construct (make : MakeHeap π) (s : AdjustablePriorityQueue π κ) (range : List π) :
    Option (AdjustablePriorityQueue π κ) :=
  if range = [] then some { s with elems := [] }
  else
    let elems := make.makeHeap (s.lowerPriority lower) range
    (List.range elems.length).foldlM setHeapIndex { s with elems := elems }

/-- `Top()`. -/
def top : Option π :=
  s.elems[0]?

/-- `need_to_check_children.push_back(child)`, if the child exists and is not of lower priority. -/
def pushChild (t : π) (child : Nat) (needToCheck : List Nat) : Option (List Nat) :=
  if child < s.elems.length then do
    let c ← s.elems[child]?
    some (if !s.lowerPriority lower c t then needToCheck ++ [child] else needToCheck)
  else some needToCheck

/-- A turn of the loop of `AllTop`. A slot without a left child has no right one either. -/
def allTopStep : List Nat × List π → Option ((List Nat × List π) ⊕ List π)
  | ([], topvec) => some (.inr topvec)
  | (ind :: needToCheck, topvec) => do
    let t ← s.elems[ind]?
    let topvec := topvec ++ [t]
    let leftChild := 1 + 2 * ind
    if leftChild < s.elems.length then do
      let needToCheck ← s.pushChild lower t leftChild needToCheck
      let needToCheck ← s.pushChild lower t (leftChild + 1) needToCheck
      some (.inl (needToCheck, topvec))
    else some (.inl (needToCheck, topvec))

/-- `AllTop(topvec)`. -/
def allTop : Option (List π) :=
  if s.elems.length = 0 then some [] else iterate (s.allTopStep lower) ([0], [])

/-- `Add(val)`. -/
def add (val : π) : Option (AdjustablePriorityQueue π κ) :=
  let s := { s with elems := s.elems ++ [val] }
  s.adjustUpwards lower (s.elems.length - 1) val

/-- `i > 0 && lower_priority(elems_[parent], val)`, with the element of the parent. -/
def lowerParent (i : Nat) (val : π) : Option (Option π) :=
  if i > 0 then do
    let q ← s.elems[(i - 1) / 2]?
    some (if s.lowerPriority lower q val then some q else none)
  else some none

/-- `NoteChangedPriority(val)`. A negative index is outside of the vector. -/
def noteChangedPriority (val : π) : Option (AdjustablePriorityQueue π κ) := do
  let i ← (s.heapIndex val).toNat?
  match ← s.lowerParent lower i val with
  | some q => do
    let s ← s.setElem i q
    let s ← s.setHeapIndex i
    s.adjustUpwards lower ((i - 1) / 2) val
  | none => s.adjustDownwards lower i s.elems.length val

/-- `Remove(val)`. -/
def remove (val : π) : Option (AdjustablePriorityQueue π κ) := do
  let i ← (s.heapIndex val).toNat?
  let e ← s.elems[i]?
  guard (e = val)
  if i = s.elems.length - 1 then s.popBack
  else do
    let last ← s.elems[s.elems.length - 1]?
    let s ← s.setElem i last
    let s ← s.setHeapIndex i
    let s ← s.popBack
    let e ← s.elems[i]?
    s.noteChangedPriority lower e

/-- `Pop()`. -/
def pop : Option (AdjustablePriorityQueue π κ) := do
  let size := s.elems.length
  guard (size > 0)
  let v ← s.elems[size - 1]?
  let (s, i) ← s.adjustHoleDownwards lower 0 size
  let s ← s.popBack
  if i + 1 = size then some s else s.adjustUpwards lower i v

/-- `Contains(val)`. -/
def contains (val : π) : Bool :=
  match s.heapIndex val with
  | .ofNat i => i < s.elems.length ∧ s.elems[i]? = some val
  | .negSucc _ => false

/-- `Clear()`. -/
def clear : AdjustablePriorityQueue π κ :=
  { s with elems := [] }

/-- The check of one child in `CheckValid()`. -/
def checkChild (i child : Nat) : Option Unit :=
  if child < s.elems.length then do
    let t ← s.elems[i]?
    let c ← s.elems[child]?
    guard (!s.lowerPriority lower t c)
  else some ()

/-- `CheckValid()`. -/
def checkValid : Option Unit :=
  (List.range s.elems.length).forM fun i => do
    let leftChild := 1 + 2 * i
    s.checkChild lower i leftChild
    s.checkChild lower i (leftChild + 1)

end AdjustablePriorityQueue

end Gloop.Pq
