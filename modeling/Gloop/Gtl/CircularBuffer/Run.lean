import Gloop.Foundation.Refinement
import Gloop.Gtl.CircularBuffer.Deque

/-!
# Runs of `CircularBuffer`

Buffers with names are changed one at a time, and stand for deques with a capacity.
`circularBuffer_refines_iff` says for which sequences of changes the elements are those of the
deques and iterators move and compare like positions.
-/

namespace Gloop.Gtl.CircularBuffer

open Gloop.Foundation

variable {α ι : Type}

/-- A change of a buffer. Whether an allocator can be taken over is up to the allocator. -/
inductive Change (α ι : Type)
  | construct (capacity : Nat)
  | copyConstruct (src : ι)
  | assign (src : ι)
  | pushFront (item : α)
  | pushBack (item : α)
  | emplaceFront (args : Args α)
  | emplaceBack (args : Args α)
  | popFront
  | popBack
  | clear
  | changeCapacity (steals : Bool) (newCapacity : Nat)

/-- A deque: a capacity and elements. -/
structure Deque (α : Type) where
  capacity : Nat
  elements : List α

namespace Change

variable [DecidableEq ι]

/-- Make a change to the buffer `x`. A constructor comes after the destructor of the old object. -/
def run (store : ι → CircularBuffer α) (x : ι) : Change α ι → Option (CircularBuffer α)
  | construct capacity => do
    (store x).release
    pure (new capacity)
  | copyConstruct src => do
    (store x).release
    (store src).copy
  | assign src => if x = src then some (store x) else (store x).assign (store src)
  | pushFront item => (store x).pushFront item
  | pushBack item => (store x).pushBack item
  | emplaceFront args => (store x).emplaceFront args
  | emplaceBack args => (store x).emplaceBack args
  | popFront => (store x).popFront
  | popBack => (store x).popBack
  | clear => (store x).clear
  | changeCapacity steals newCapacity => (store x).changeCapacity steals newCapacity

/-- What a caller must ensure. An array of `2 ^ 63` elements cannot be allocated, an object is not
constructed from itself, and arguments refer to elements that are there. -/
def Allowed (deques : ι → Deque α) (x : ι) : Change α ι → Prop
  | construct capacity => capacity < 2 ^ 63
  | copyConstruct src => x ≠ src
  | pushFront _ => 1 ≤ (deques x).capacity
  | pushBack _ => 1 ≤ (deques x).capacity
  | emplaceFront args | emplaceBack args =>
    1 ≤ (deques x).capacity ∧ ∀ i ∈ args.refs, i < (deques x).elements.length
  | popFront => (deques x).elements ≠ []
  | popBack => (deques x).elements ≠ []
  | changeCapacity _ newCapacity => newCapacity < 2 ^ 63
  | _ => True

/-- An `emplace` on a full buffer does not get an argument that refers to the element it evicts. -/
def KeepsArguments (d : Deque α) : Change α ι → Prop
  | emplaceFront args => d.elements.length = d.capacity → d.capacity - 1 ∉ args.refs
  | emplaceBack args => d.elements.length = d.capacity → 0 ∉ args.refs
  | _ => True

/-- The change of a deque. -/
def spec (deques : ι → Deque α) (d : Deque α) : Change α ι → Deque α
  | construct capacity => ⟨capacity, []⟩
  | copyConstruct src => deques src
  | assign src => deques src
  | pushFront item => ⟨d.capacity, dequePushFront d.capacity d.elements item⟩
  | pushBack item => ⟨d.capacity, dequePushBack d.capacity d.elements item⟩
  | emplaceFront args =>
    ⟨d.capacity, dequePushFront d.capacity d.elements (args.value d.elements)⟩
  | emplaceBack args =>
    ⟨d.capacity, dequePushBack d.capacity d.elements (args.value d.elements)⟩
  | popFront => ⟨d.capacity, d.elements.drop 1⟩
  | popBack => ⟨d.capacity, d.elements.dropLast⟩
  | clear => ⟨d.capacity, []⟩
  | changeCapacity _ newCapacity => ⟨newCapacity, d.elements.take newCapacity⟩

/-- A change that keeps its arguments is that of the deque. -/
theorem run_represents {store : ι → CircularBuffer α} {deques : ι → Deque α}
    (h : ∀ x, (store x).Represents (deques x).capacity (deques x).elements) (x : ι)
    (change : Change α ι) (hallowed : change.Allowed deques x)
    (hkept : change.KeepsArguments (deques x)) :
    ∃ b, change.run store x = some b ∧ b.Represents (change.spec deques (deques x)).capacity
        (change.spec deques (deques x)).elements := by
  have hcopy : ∀ src, ∃ b, (store src).copy = some b ∧
      b.Represents (deques src).capacity (deques src).elements := fun src =>
    ⟨_, (h src).copy, Represents.ofFirstSlots (h src).capacity_lt (h src).length_le⟩
  cases change with
  | construct capacity =>
    rw [run, (h x).release]
    exact ⟨_, rfl, Represents.new hallowed⟩
  | copyConstruct src =>
    rw [run, (h x).release]
    exact hcopy src
  | assign src =>
    rw [run]
    split
    next heq =>
      subst heq
      exact ⟨_, rfl, h x⟩
    next =>
      rw [CircularBuffer.assign, (h x).release]
      exact hcopy src
  | pushFront item => exact (h x).pushFront item hallowed
  | pushBack item => exact (h x).pushBack item hallowed
  | emplaceFront args =>
    rw [run, (h x).emplaceFront_eq hallowed.2 hkept]
    exact (h x).pushFront _ hallowed.1
  | emplaceBack args =>
    rw [run, (h x).emplaceBack_eq hallowed.2 hkept]
    exact (h x).pushBack _ hallowed.1
  | popFront => exact (h x).popFront (List.length_pos_iff.mpr hallowed)
  | popBack => exact (h x).popBack (List.length_pos_iff.mpr hallowed)
  | clear => exact ⟨_, (h x).clear, Represents.new (h x).capacity_lt⟩
  | changeCapacity steals newCapacity => exact (h x).changeCapacity steals hallowed

/-- A change that loses its arguments fails. -/
theorem run_eq_none {store : ι → CircularBuffer α} {deques : ι → Deque α} {x : ι}
    (h : (store x).Represents (deques x).capacity (deques x).elements) {change : Change α ι}
    (hallowed : change.Allowed deques x) (hlost : ¬change.KeepsArguments (deques x)) :
    change.run store x = none := by
  cases change with
  | emplaceFront args =>
    obtain ⟨hfull, hmem⟩ := Classical.not_imp.mp hlost
    exact h.emplaceFront_eq_none hallowed.2 hfull (not_not.mp hmem)
  | emplaceBack args =>
    obtain ⟨hfull, hmem⟩ := Classical.not_imp.mp hlost
    exact h.emplaceBack_eq_none hallowed.2 hfull (not_not.mp hmem)
  | _ => exact absurd trivial hlost

end Change

/-! ## Iterators between the beginning and the end -/

/-- The iterators that arithmetic makes of `begin()` and `end()` without leaving their range, with
the positions they should have. -/
inductive IteratorOf (b : CircularBuffer α) : Nat → Nat → Prop
  | start : IteratorOf b b.beginIter 0
  | finish : IteratorOf b kEnd b.size
  | incr {pos k next : Nat} {n : Int} (h : IteratorOf b pos k) (hle : 0 ≤ (k : Int) + n)
      (hge : (k : Int) + n ≤ b.size) (hnext : b.incr pos n = some next) :
        IteratorOf b next (k + n).toNat

variable {b : CircularBuffer α}

/-- Every iterator that can be made is at a position. -/
theorem Represents.iteratorOf {c pos k : Nat} {l : List α} (h : b.Represents c l)
    (hit : IteratorOf b pos k) : pos = b.iterAt k ∧ k ≤ l.length := by
  have hsize := h.size_eq
  induction hit with
  | start => exact ⟨h.beginIter_eq, Nat.zero_le _⟩
  | finish => exact ⟨by rw [h.size_eq, h.iterAt_length], Nat.le_of_eq hsize⟩
  | @incr pos k next n _ hle hge hnext ih =>
    obtain ⟨rfl, hk⟩ := ih
    have hto : (k + n).toNat ≤ l.length := by omega
    rw [h.incr hk (by omega) hto] at hnext
    exact ⟨(Option.some_inj.mp hnext).symm, hto⟩

/-- Iterators move, point and compare like positions in the list. -/
structure IteratorsAnswer (b : CircularBuffer α) (l : List α) : Prop where
  deref : ∀ {pos k}, IteratorOf b pos k → ∀ hk : k < l.length, b.atAbsolute pos = some l[k]
  incr : ∀ {pos k}, IteratorOf b pos k → ∀ n : Int, 0 ≤ (k : Int) + n → (k : Int) + n ≤ l.length →
    ∃ next, b.incr pos n = some next ∧ IteratorOf b next (k + n).toNat
  subtract : ∀ {pos k pos' k'}, IteratorOf b pos k → IteratorOf b pos' k' →
    b.subtract pos pos' = some ((k : Int) - k')
  eq_iff : ∀ {pos k pos' k'}, IteratorOf b pos k → IteratorOf b pos' k' → (pos = pos' ↔ k = k')
  lt : ∀ {pos k pos' k'}, IteratorOf b pos k → IteratorOf b pos' k' →
    b.iterLt pos pos' = some (decide (k < k'))
  le : ∀ {pos k pos' k'}, IteratorOf b pos k → IteratorOf b pos' k' →
    b.iterLe pos pos' = some (decide (k ≤ k'))

/-- Iterators answer as positions do. -/
theorem Represents.iteratorsAnswer {c : Nat} {l : List α} (h : b.Represents c l) :
    b.IteratorsAnswer l where
  deref hit hk := by
    obtain ⟨rfl, -⟩ := h.iteratorOf hit
    exact h.deref hk
  incr {_ k} hit n hle hge := by
    obtain ⟨rfl, hk⟩ := h.iteratorOf hit
    have hnext := h.incr hk (show (((k + n).toNat : Nat) : Int) = k + n by omega) (by omega)
    exact ⟨_, hnext, hit.incr hle (by rwa [h.size_eq]) hnext⟩
  subtract hit hit' := by
    obtain ⟨rfl, hk⟩ := h.iteratorOf hit
    obtain ⟨rfl, hk'⟩ := h.iteratorOf hit'
    exact h.subtract hk hk'
  eq_iff hit hit' := by
    obtain ⟨rfl, hk⟩ := h.iteratorOf hit
    obtain ⟨rfl, hk'⟩ := h.iteratorOf hit'
    exact h.iterAt_inj hk hk'
  lt hit hit' := by
    obtain ⟨rfl, hk⟩ := h.iteratorOf hit
    obtain ⟨rfl, hk'⟩ := h.iteratorOf hit'
    exact h.iterLt hk hk'
  le hit hit' := by
    obtain ⟨rfl, hk⟩ := h.iteratorOf hit
    obtain ⟨rfl, hk'⟩ := h.iteratorOf hit'
    exact h.iterLe hk hk'

/-! ## Whole runs -/

/-- The buffer has the elements of the deque, from the front and from the back. -/
structure Answers (b : CircularBuffer α) (d : Deque α) : Prop where
  capacity_eq : b.capacity = d.capacity
  size_eq : b.size = d.elements.length
  front : ∀ h : 0 < d.elements.length, b.front = some d.elements[0]
  back : ∀ h : 0 < d.elements.length, b.back = some d.elements[d.elements.length - 1]
  at_nonneg : ∀ i (hi : i < d.elements.length), b.atPos (i : Int) = some d.elements[i]
  at_neg : ∀ i (hi : i < d.elements.length),
    b.atPos (-(i + 1 : Int)) = some d.elements[d.elements.length - 1 - i]
  iterators : b.IteratorsAnswer d.elements

/-- A buffer answers all queries as its deque does. -/
theorem Represents.answers {d : Deque α} (h : b.Represents d.capacity d.elements) :
    b.Answers d where
  capacity_eq := h.capacity_eq
  size_eq := h.size_eq
  front hpos := h.front hpos
  back hpos := h.back hpos
  at_nonneg _ hi := h.atPos_of_nonneg hi
  at_neg _ hi := h.atPos_of_neg hi
  iterators := h.iteratorsAnswer

section Runs

variable [DecidableEq ι]

/-- Change the buffer with the given name. -/
def step (store : ι → CircularBuffer α) (op : ι × Change α ι) : Option (ι → CircularBuffer α) :=
  (op.2.run store op.1).map (Function.update store op.1)

/-- Change the deque with the given name. -/
def specStep (deques : ι → Deque α) (op : ι × Change α ι) : ι → Deque α :=
  Function.update deques op.1 (op.2.spec deques (deques op.1))

/-- Buffers that start without capacity answer as deques do after a sequence of changes if and only
if every `emplace` keeps the elements that its arguments refer to. -/
theorem circularBuffer_refines_iff (ops : List (ι × Change α ι))
    (hlegal : Legal (fun deques op => op.2.Allowed deques op.1) specStep (fun _ => ⟨0, []⟩) ops) :
    (∃ store, ops.foldlM step (fun _ => new 0) = some store ∧
        ∀ x, (store x).Answers (ops.foldl specStep (fun _ => ⟨0, []⟩) x)) ↔
      Legal (fun deques op => op.2.KeepsArguments (deques op.1)) specStep (fun _ => ⟨0, []⟩)
        ops := by
  have hsafe : ∀ (store : ι → CircularBuffer α) (deques : ι → Deque α) (op : ι × Change α ι),
      (∀ x, (store x).Represents (deques x).capacity (deques x).elements) →
      op.2.Allowed deques op.1 → op.2.KeepsArguments (deques op.1) →
      ∃ next, step store op = some next ∧ ∀ x, (next x).Represents (specStep deques op x).capacity
          (specStep deques op x).elements := by
    intro store deques op h hallowed hkept
    obtain ⟨b, hrun, hrep⟩ := op.2.run_represents h op.1 hallowed hkept
    exact ⟨_, congrArg (Option.map _) hrun, @related_update _ _ _ _
      (fun (b : CircularBuffer α) (d : Deque α) => b.Represents d.capacity d.elements)
      _ _ h op.1 _ _ hrep⟩
  have hfault : ∀ (store : ι → CircularBuffer α) (deques : ι → Deque α) (op : ι × Change α ι),
      (∀ x, (store x).Represents (deques x).capacity (deques x).elements) →
      op.2.Allowed deques op.1 → ¬op.2.KeepsArguments (deques op.1) → step store op = none :=
    fun store deques op h hallowed hlost =>
      congrArg (Option.map _) (Change.run_eq_none (h op.1) hallowed hlost)
  have hinit : ∀ _ : ι, (new 0 : CircularBuffer α).Represents 0 [] :=
    fun _ => Represents.new (Nat.two_pow_pos 63)
  rcases run_refines_or_faults hsafe hfault hinit ops hlegal with
    ⟨hkept, store, hrun, hrep⟩ | ⟨hlost, hnone⟩
  · exact iff_of_true ⟨store, hrun, fun x => (hrep x).answers⟩ hkept
  · exact iff_of_false (fun ⟨_, hrun, _⟩ => nomatch hnone.symm.trans hrun) hlost

/-- A full buffer that wraps around, a copy of it, and smaller capacities down to zero. An argument
refers to an element that stays. -/
def sampleChanges : List (Bool × Change Nat Bool) :=
  [(true, .construct 2), (true, .pushBack 1), (true, .pushBack 2), (true, .pushBack 3),
    (false, .copyConstruct true), (true, .emplaceFront ⟨[0], (·.headD 0)⟩),
    (true, .changeCapacity false 1), (false, .popFront), (false, .changeCapacity true 0)]

/-- Changes of two buffers with names. -/
theorem sampleChanges_answer_as_deque :
    (∃ store, sampleChanges.foldlM step (fun _ => new 0) = some store ∧
        ∀ x, (store x).Answers (sampleChanges.foldl specStep (fun _ => ⟨0, []⟩) x)) ↔
      Legal (fun deques op => op.2.KeepsArguments (deques op.1)) specStep (fun _ => ⟨0, []⟩)
        sampleChanges :=
  circularBuffer_refines_iff sampleChanges
    ⟨show 2 < 2 ^ 63 by decide, show 1 ≤ 2 by decide, show 1 ≤ 2 by decide, show 1 ≤ 2 by decide,
      show false ≠ true by decide, ⟨show 1 ≤ 2 by decide, show ∀ i ∈ [0], i < 2 by decide⟩,
      show 1 < 2 ^ 63 by decide, show [2, 3] ≠ [] by decide, show 0 < 2 ^ 63 by decide, trivial⟩

/-- `emplace_back(front())` and `emplace_front(back())` on a full buffer read an element that they
have destroyed. `push_back(front())` does not. -/
theorem emplace_of_evicted_faults : [(true, .construct 2), (true, .pushBack 1), (true, .pushBack 2),
        (true, .emplaceBack ⟨[0], (·.headD 0)⟩)].foldlM (step (α := Nat))
          (fun _ : Bool => new 0) = none ∧
      [(true, .construct 2), (true, .pushBack 1), (true, .pushBack 2),
        (true, .emplaceFront ⟨[1], (·.headD 0)⟩)].foldlM (step (α := Nat))
          (fun _ : Bool => new 0) = none ∧
      ([(true, .construct 2), (true, .pushBack 1), (true, .pushBack 2),
        (true, .pushBack 1)].foldlM (step (α := Nat)) (fun _ : Bool => new 0)).isSome := by
  decide

end Runs

end Gloop.Gtl.CircularBuffer
