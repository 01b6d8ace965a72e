import Gloop.Foundation.Iterate

/-!
# Model of `IntrusiveHeap`

A state is the vector of pointers together with what the elements hold: their links to the heap and
the keys that the comparison looks at. The link `kNotMember` is `none`. An access outside of the
vector and a failed check are `none`.
-/

namespace Gloop.Gtl

open Gloop.Foundation

/-- The vector of an `IntrusiveHeap`, and the links and keys of all elements. -/
structure IntrusiveHeap (π κ : Type) where
  heap : List π
  link : π → Option Nat
  key : π → κ

namespace IntrusiveHeap

variable {π κ : Type} [DecidableEq π] (less : κ → κ → Bool) (s : IntrusiveHeap π κ)

/-- `compare()(a, b)`. -/
def compare (a b : π) : Bool :=
  less (s.key a) (s.key b)

/-- `SetPositionOf(t, pos)`. -/
def setPositionOf (t : π) (pos : Option Nat) : IntrusiveHeap π κ :=
  { s with link := Function.update s.link t pos }

/-- `heap()[h] = t`. -/
def setSlot (h : Nat) (t : π) : Option (IntrusiveHeap π κ) :=
  if h < s.heap.length then some { s with heap := s.heap.set h t } else none

/-- `heap().pop_back()`. -/
def popBack : Option (IntrusiveHeap π κ) :=
  if s.heap = [] then none else some { s with heap := s.heap.dropLast }

/-- `heap()[h] = t` and `SetPositionOf(t, h)`. -/
def place (h : Nat) (t : π) : Option (IntrusiveHeap π κ) := do
  let s ← s.setSlot h t
  some (s.setPositionOf t (some h))

/-- A turn of the loop of `FixHeapUp(t)`. -/
def fixHeapUpStep (t : π) : IntrusiveHeap π κ × Nat →
    Option ((IntrusiveHeap π κ × Nat) ⊕ (IntrusiveHeap π κ × Nat))
  | (s, h) =>
    if h = 0 then some (.inr (s, h))
    else do
      let parent := (h - 1) >>> 1
      let q ← s.heap[parent]?
      if s.compare less q t then some (.inr (s, h))
      else do
        let s ← s.place h q
        some (.inl (s, parent))

/-- `FixHeapUp(t)`. -/
def fixHeapUp (t : π) : Option (IntrusiveHeap π κ) := do
  let h ← s.link t
  let (s, h) ← iterate (fixHeapUpStep less t) (s, h)
  s.place h t

/-- The child that `FixHeapDown` compares with: the second one if it is before the first one. -/
def firstKid (kid : Nat) : Option Nat :=
  if kid + 1 < s.heap.length then do
    let right ← s.heap[kid + 1]?
    let left ← s.heap[kid]?
    some (if s.compare less right left then kid + 1 else kid)
  else some kid

/-- A turn of the loop of `FixHeapDown(t)`. -/
def fixHeapDownStep (t : π) : IntrusiveHeap π κ × Nat →
    Option ((IntrusiveHeap π κ × Nat) ⊕ (IntrusiveHeap π κ × Nat))
  | (s, h) =>
    let kid := (h <<< 1) + 1
    if kid ≥ s.heap.length then some (.inr (s, h))
    else do
      let kid ← s.firstKid less kid
      let k ← s.heap[kid]?
      if s.compare less t k then some (.inr (s, h))
      else do
        let s ← s.place h k
        some (.inl (s, kid))

/-- `FixHeapDown(t)`. -/
def fixHeapDown (t : π) : Option (IntrusiveHeap π κ) := do
  let h ← s.link t
  let (s, h) ← iterate (fixHeapDownStep less t) (s, h)
  s.place h t

/-- `Contains(t)`. -/
def contains (t : π) : Bool :=
  match s.link t with
  | none => false
  | some h => h < s.heap.length ∧ s.heap[h]? = some t

/-- `top()`. -/
def top : Option π :=
  s.heap[0]?

/-- `Push(t)`. -/
def push (t : π) : Option (IntrusiveHeap π κ) :=
  let s := s.setPositionOf t (some s.heap.length)
  let s := { s with heap := s.heap ++ [t] }
  s.fixHeapUp less t

/-- `h != 0 && compare()(t, heap()[(h - 1) >> 1])`. -/
def beforeParent (h : Nat) (t : π) : Option Bool :=
  if h = 0 then some false
  else do
    let q ← s.heap[(h - 1) >>> 1]?
    some (s.compare less t q)

/-- `Adjust(t)`. -/
def adjust (t : π) : Option (IntrusiveHeap π κ) := do
  guard (s.contains t)
  let h ← s.link t
  if ← s.beforeParent less h t then s.fixHeapUp less t else s.fixHeapDown less t

/-- `Remove(t)`. -/
def remove (t : π) : Option (IntrusiveHeap π κ) := do
  guard (s.contains t)
  let h ← s.link t
  let s := s.setPositionOf t none
  if h = s.heap.length - 1 then s.popBack
  else do
    let elem ← s.heap.getLast?
    let s ← s.place h elem
    let s ← s.popBack
    s.adjust less elem

/-- `Pop()`. -/
def pop : Option (IntrusiveHeap π κ × π) := do
  let t ← s.top
  let s ← s.remove less t
  some (s, t)

/-- `Clear()`. -/
def clear : IntrusiveHeap π κ :=
  { s with heap := [] }

end IntrusiveHeap

end Gloop.Gtl
