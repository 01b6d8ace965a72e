import Gloop.Foundation.ArrayLoop
import Gloop.Gtl.CircularBuffer.Model

/-!
# `CircularBuffer` as a bounded deque

The slots from `begin_` on hold the elements of a list in their order and the other slots hold none,
which is one equation for each slot. Each change of the buffer changes the list as in a deque that
drops an element of the other end when it is full. `iterAt b k` is the iterator at the logical
position `k`, and iterator arithmetic is arithmetic on the positions. The loops over iterators, of
copies and of `ChangeCapacity`, follow.
-/

namespace Gloop.Gtl.CircularBuffer

open Gloop.Foundation List
variable {α : Type}

/-! ## The deque -/

/-- Put an element at the back, and drop the first one if there are `c` already. -/
def dequePushBack (c : Nat) (l : List α) (x : α) : List α :=
  (if l.length = c then l.drop 1 else l) ++ [x]

/-- Put an element at the front, and drop the last one if there are `c` already. -/
def dequePushFront (c : Nat) (l : List α) (x : α) : List α :=
  x :: if l.length = c then l.dropLast else l

/-- The object that arguments make of the elements. -/
def Args.value (args : Args α) (l : List α) : α :=
  args.make (args.refs.filterMap (l[·]?))

/-- The buffer has the capacity and the elements. An array that can be allocated has fewer than `2 ^
63` slots. -/
structure Represents (b : CircularBuffer α) (c : Nat) (l : List α) : Prop where
  capacity_eq : b.capacity = c
  capacity_lt : c < 2 ^ 63
  begin_lt : b.begin < max 1 c
  size_eq : b.size = l.length
  length_le : l.length ≤ c
  space_length : b.space.length = c
  slot : ∀ i < c, b.space[ringIndex c b.begin i]? = some l[i]?

namespace Represents

variable {b : CircularBuffer α} {c i : Nat} {l : List α} {x : α}

section

variable (h : b.Represents c l)
include h

theorem begin_lt_of_pos (hc : 0 < c) : b.begin < c := by
  have := h.begin_lt
  omega

/-- The position does not depend on the size, only the check does. -/
theorem logicalToAbsolute_size {size : Nat} (hi : i < size) (hic : i < c) :
    CircularBuffer.logicalToAbsolute { b with size } i = some (ringIndex c b.begin i) := by
  have hlt := h.capacity_lt
  have hbegin := h.begin_lt_of_pos (by omega)
  have hmod : (b.begin + i) % 2 ^ 64 = b.begin + i := Nat.mod_eq_of_lt (by omega)
  have hring := ringIndex_lt hbegin (show i ≤ c by omega)
  simp only [CircularBuffer.logicalToAbsolute, Option.bind_eq_bind, guard_bind hi, hmod,
    h.capacity_eq]
  exact guard_bind hring _

theorem logicalToAbsolute (hi : i < l.length) :
    b.logicalToAbsolute i = some (ringIndex c b.begin i) :=
  h.logicalToAbsolute_size (h.size_eq ▸ hi) (Nat.lt_of_lt_of_le hi h.length_le)

/-- The slot after the first one. -/
theorem nextpos_begin (hc : 0 < c) : b.nextpos b.begin = some (ringIndex c b.begin 1) := by
  have hbegin := h.begin_lt_of_pos hc
  simp only [nextpos, guard, h.capacity_eq, hbegin, if_true, Option.bind_eq_bind, Option.bind_some,
    Option.pure_def, Option.some_inj]
  unfold ringIndex
  split_ifs <;> omega

/-- The slot before the first one. -/
theorem prevpos_begin (hc : 0 < c) : b.prevpos b.begin = some (ringIndex c b.begin (c - 1)) := by
  have hbegin := h.begin_lt_of_pos hc
  simp only [prevpos, guard, h.capacity_eq, hbegin, if_true, Option.bind_eq_bind, Option.bind_some,
    Option.pure_def, Option.some_inj]
  unfold ringIndex
  split_ifs <;> omega

/-- The slot of an element has it. -/
theorem atAbsolute (hi : i < l.length) : b.atAbsolute (ringIndex c b.begin i) = some l[i] := by
  have hle := h.length_le
  rw [CircularBuffer.atAbsolute, h.slot i (by omega), getElem?_eq_getElem hi]
  rfl

/-- Another value in one slot, seen from a start that may have moved: `σ` says where an element
was. -/
theorem setSlot (σ : Nat → Nat) {begin j size : Nat} {value : Option α} {l' : List α}
    (hbegin : begin < c) (hσ : ∀ i < c, σ i < c ∧ ringIndex c begin i = ringIndex c b.begin (σ i))
    (hj : j < c) (hsize : size = l'.length) (hle : l'.length ≤ c)
    (hslot : ∀ i < c, l'[i]? = if σ i = j then value else l[σ i]?) :
    Represents { b with begin, size, space := b.space.set (ringIndex c b.begin j) value } c l' where
  capacity_eq := h.capacity_eq
  capacity_lt := h.capacity_lt
  begin_lt := Nat.lt_of_lt_of_le hbegin (Nat.le_max_right 1 c)
  size_eq := hsize
  length_le := hle
  space_length := length_set.trans h.space_length
  slot i hi := by
    have hring := ringIndex_lt (h.begin_lt_of_pos (by omega)) (show j ≤ c by omega)
    rw [(hσ i hi).2, hslot i hi]
    split
    next heq => rw [heq, getElem?_set_self (by rwa [h.space_length])]
    next hne =>
      rw [getElem?_set_ne fun heq => hne ((ringIndex_inj hj (hσ i hi).1).mp heq).symm]
      exact h.slot _ (hσ i hi).1

/-! ## Both ends -/

/-- A free slot takes an element. -/
theorem construct_free (hi : l.length ≤ i) (hic : i < c) :
    construct b.space (ringIndex c b.begin i) x =
      some (b.space.set (ringIndex c b.begin i) (some x)) := by
  rw [construct, h.slot i hic, getElem?_eq_none hi]

/-- The element in a slot can be destroyed. -/
theorem destroy_used (hi : i < l.length) :
    destroy b.space (ringIndex c b.begin i) = some (b.space.set (ringIndex c b.begin i) none) := by
  have hle := h.length_le
  rw [destroy, h.slot i (by omega), getElem?_eq_getElem hi]

/-- The element in a slot can be replaced. -/
theorem assignSlot_used (hi : i < l.length) : assignSlot b.space (ringIndex c b.begin i) x =
      some (b.space.set (ringIndex c b.begin i) (some x)) := by
  have hle := h.length_le
  rw [assignSlot, h.slot i (by omega), getElem?_eq_getElem hi]

/-- Destroying an element and constructing another one in its place is an assignment. -/
theorem construct_destroyed (hi : i < l.length) :
    construct (b.space.set (ringIndex c b.begin i) none) (ringIndex c b.begin i) x =
      some (b.space.set (ringIndex c b.begin i) (some x)) := by
  have hle := h.length_le
  have hring := ringIndex_lt (h.begin_lt_of_pos (by omega)) (show i ≤ c by omega)
  rw [construct, getElem?_set_self (by rwa [h.space_length])]
  rw [set_set]

/-- An element after the last one. -/
theorem append (x : α) (hlt : l.length < c) : Represents { b with
      size := b.size + 1, space := b.space.set (ringIndex c b.begin l.length)
        (some x) } c (l ++ [x]) := by
  have hbegin := h.begin_lt_of_pos (by omega)
  refine h.setSlot id hbegin (fun _ hi => ⟨hi, rfl⟩) hlt (by simp [h.size_eq]) (by simp; omega) ?_
  grind

/-- The element that was first makes way for the last one, if there is one. -/
theorem moveNext {size : Nat} {value : Option α} {l' : List α} (hc : 0 < c)
    (hsize : size = l'.length) (hle : l'.length ≤ c) (hlast : l'[c - 1]? = value)
    (hold : ∀ i, i + 1 < c → l'[i]? = l[i + 1]?) : Represents { b with
      begin := ringIndex c b.begin 1, size, space :=
        b.space.set (ringIndex c b.begin 0) value } c l' := by
  have hbegin := h.begin_lt_of_pos hc
  refine h.setSlot (fun i => if i + 1 = c then 0 else i + 1) (ringIndex_lt hbegin hc)
    (fun i hi => ⟨by grind, ringIndex_next hbegin hi⟩) hc hsize hle fun i hi => ?_
  grind

/-- The place before the first element gets another one. -/
theorem movePrev (x : α) {size : Nat} {l' : List α} (hsize : size = l'.length + 1)
    (hle : l'.length < c) (hold : ∀ i, i + 1 < c → l'[i]? = l[i]?) : Represents { b with
      begin := ringIndex c b.begin (c - 1), size,
      space := b.space.set (ringIndex c b.begin (c - 1)) (some x) } c (x :: l') := by
  have hbegin := h.begin_lt_of_pos (by omega)
  refine h.setSlot (fun i => if i = 0 then c - 1 else i - 1) (ringIndex_lt hbegin (by omega))
    (fun i hi => ⟨by grind, ringIndex_prev hbegin hi⟩) (by omega) hsize hle fun i hi => ?_
  cases i with
  | zero => simp
  | succ i => grind

theorem capacity_ne_zero (hc : 0 < c) : b.capacity ≠ 0 := by
  rw [h.capacity_eq]
  omega

/-- `full()` compares with the capacity. -/
theorem full_eq : b.full = decide (l.length = c) := by
  rw [full, h.size_eq, h.capacity_eq]

/-- `push_back` drops the first element of a full buffer. -/
theorem pushBack (x : α) (hc : 0 < c) :
    ∃ b', b.pushBack x = some b' ∧ b'.Represents c (dequePushBack c l x) := by
  have hcap := h.capacity_ne_zero hc
  have hle := h.length_le
  unfold dequePushBack
  by_cases hfull : l.length = c
  · have hassign := h.assignSlot_used (x := x) (show 0 < l.length by omega)
    rw [if_pos hfull]
    refine ⟨_, ?_, h.moveNext hc (show b.size = _ by simp [h.size_eq]; omega) (by simp; omega)
      (show (l.drop 1 ++ [x])[c - 1]? = some x by grind) (by grind)⟩
    rw [ringIndex_zero (h.begin_lt_of_pos hc)] at hassign ⊢
    simp [CircularBuffer.pushBack, hcap, h.full_eq, hfull, hassign, h.nextpos_begin hc]
  have hlt : l.length < c := by omega
  have hpos := h.logicalToAbsolute_size (show l.length < b.size + 1 by rw [h.size_eq]; omega) hlt
  have hconstruct := h.construct_free (x := x) (Nat.le_refl _) hlt
  have hnot : b.full = false := h.full_eq.trans (decide_eq_false hfull)
  rw [if_neg hfull]
  refine ⟨_, ?_, h.append x hlt⟩
  rw [← h.size_eq] at hpos hconstruct ⊢
  simp [CircularBuffer.pushBack, hcap, hnot, hpos, hconstruct]

/-- `push_front` drops the last element of a full buffer. -/
theorem pushFront (x : α) (hc : 0 < c) :
    ∃ b', b.pushFront x = some b' ∧ b'.Represents c (dequePushFront c l x) := by
  have hcap := h.capacity_ne_zero hc
  have hle := h.length_le
  unfold dequePushFront
  by_cases hfull : l.length = c
  · have hassign := h.assignSlot_used (x := x) (show c - 1 < l.length by omega)
    rw [if_pos hfull]
    refine ⟨_, ?_, h.movePrev x (show b.size = l.dropLast.length + 1 by simp [h.size_eq]; omega)
      (by simp; omega) (by grind)⟩
    simp [CircularBuffer.pushFront, hcap, h.full_eq, hfull, hassign, h.prevpos_begin hc]
  · have hconstruct := h.construct_free (x := x) (show l.length ≤ c - 1 by omega) (by omega)
    rw [if_neg hfull]
    refine ⟨_, ?_, h.movePrev x (show b.size + 1 = l.length + 1 by rw [h.size_eq])
      (by omega) fun _ _ => rfl⟩
    simp [CircularBuffer.pushFront, hcap, h.full_eq, hfull, hconstruct, h.prevpos_begin hc]

/-! ## Arguments that refer to elements -/

variable {args : Args α} (hrefs : ∀ i ∈ args.refs, i < l.length)
include hrefs

/-- The slots that arguments refer to. -/
theorem slots_eq :
    args.refs.mapM b.logicalToAbsolute = some (args.refs.map (ringIndex c b.begin)) :=
  mapM_eq_some fun i hi => h.logicalToAbsolute (hrefs i hi)

omit h in
/-- Arguments can be read wherever the slots that they refer to are as they were. -/
theorem read_of_slots {space : List (Option α)} {slot : Nat → Nat}
    (hslots : ∀ i ∈ args.refs, (space[slot i]?).join = l[i]?) :
    args.read (args.refs.map slot) space = some (args.value l) := by
  have hread : (args.refs.map slot).mapM (fun pos => (space[pos]?).join) =
      some (args.refs.filterMap (l[·]?)) := by
    rw [mapM_map]
    exact mapM_eq_filterMap fun i hi => ⟨hslots i hi, by simp [hrefs i hi]⟩
  rw [Args.read, hread]
  rfl

/-- Arguments can be read before anything is changed. -/
theorem read_eq : args.read (args.refs.map (ringIndex c b.begin)) b.space = some (args.value l) :=
  read_of_slots hrefs fun i hi =>
    (h.atAbsolute (hrefs i hi)).trans (getElem?_eq_getElem (hrefs i hi)).symm

/-- Arguments can be read after an element has been destroyed if they do not refer to it. -/
theorem read_destroyed {j : Nat} (hj : j < l.length) :
    args.read (args.refs.map (ringIndex c b.begin)) (b.space.set (ringIndex c b.begin j) none) =
      if j ∈ args.refs then none else some (args.value l) := by
  have hle := h.length_le
  have hring := ringIndex_lt (h.begin_lt_of_pos (by omega)) (show j ≤ c by omega)
  split
  next hmem =>
    rw [Args.read, mapM_eq_none (mem_map_of_mem hmem) (by simp [h.space_length, hring])]
    rfl
  next hmem =>
    refine read_of_slots hrefs fun i hi => ?_
    have hlt := hrefs i hi
    have hne : j ≠ i := fun heq => hmem (heq ▸ hi)
    rw [getElem?_set_ne (mt (ringIndex_inj (by omega) (by omega)).mp hne)]
    exact (h.atAbsolute hlt).trans (getElem?_eq_getElem hlt).symm

/-- An `emplace` is a push if it does not destroy an element that it needs. -/
theorem emplaceBack_eq (hkept : l.length = c → 0 ∉ args.refs) :
    b.emplaceBack args = b.pushBack (args.value l) := by
  unfold emplaceBack CircularBuffer.pushBack
  rw [h.slots_eq hrefs]
  by_cases hfull : l.length = c
  · by_cases hc : 0 < c
    · have hpos : 0 < l.length := by omega
      have hassign := h.assignSlot_used (x := args.value l) hpos
      have hdestroy := h.destroy_used hpos
      have hread := h.read_destroyed hrefs hpos
      have hconstruct := h.construct_destroyed (x := args.value l) hpos
      rw [if_neg (hkept hfull)] at hread
      rw [ringIndex_zero (h.begin_lt_of_pos hc)] at hassign hdestroy hread hconstruct
      simp [hassign, hdestroy, hread, hconstruct, h.read_eq hrefs]
    · have hcap : b.capacity = 0 := by
        rw [h.capacity_eq]
        omega
      simp [hcap]
  · simp [h.full_eq, hfull, h.read_eq hrefs]

/-- At the front, the element that must be kept is the last one. -/
theorem emplaceFront_eq (hkept : l.length = c → c - 1 ∉ args.refs) :
    b.emplaceFront args = b.pushFront (args.value l) := by
  unfold emplaceFront CircularBuffer.pushFront
  rw [h.slots_eq hrefs]
  by_cases hfull : l.length = c
  · by_cases hc : 0 < c
    · have hpos : c - 1 < l.length := by omega
      have hread := h.read_destroyed hrefs hpos
      rw [if_neg (hkept hfull)] at hread
      simp [h.prevpos_begin hc, h.assignSlot_used (x := args.value l) hpos, h.destroy_used hpos,
        hread, h.construct_destroyed (x := args.value l) hpos, h.read_eq hrefs]
    · have hcap : b.capacity = 0 := by
        rw [h.capacity_eq]
        omega
      simp [hcap]
  · simp [h.full_eq, hfull, h.read_eq hrefs]

/-- An `emplace_back` that refers to the first element of a full buffer reads it too late. -/
theorem emplaceBack_eq_none (hfull : l.length = c) (hmem : 0 ∈ args.refs) :
    b.emplaceBack args = none := by
  have hpos := hrefs 0 hmem
  have hc : 0 < c := by omega
  have hdestroy := h.destroy_used hpos
  have hread := h.read_destroyed hrefs hpos
  rw [if_pos hmem, ringIndex_zero (h.begin_lt_of_pos hc)] at hread
  rw [ringIndex_zero (h.begin_lt_of_pos hc)] at hdestroy
  simp [emplaceBack, h.slots_eq hrefs, h.full_eq, hfull, hdestroy, hread]

/-- An `emplace_front` that refers to the last element of a full buffer reads it too late. -/
theorem emplaceFront_eq_none (hfull : l.length = c) (hmem : c - 1 ∈ args.refs) :
    b.emplaceFront args = none := by
  have hpos := hrefs _ hmem
  have hread := h.read_destroyed hrefs hpos
  rw [if_pos hmem] at hread
  simp [emplaceFront, h.slots_eq hrefs, h.full_eq, hfull, h.prevpos_begin (show 0 < c by omega),
    h.destroy_used hpos, hread]

omit hrefs

/-- `pop_front` drops the first element. -/
theorem popFront (hpos : 0 < l.length) :
    ∃ b', b.popFront = some b' ∧ b'.Represents c (l.drop 1) := by
  have hle := h.length_le
  have hc : 0 < c := by omega
  have hbegin := h.begin_lt_of_pos hc
  have hdestroy := h.destroy_used hpos
  have hrep : Represents { b with
      begin := ringIndex c b.begin 1, size := b.size - 1,
      space := b.space.set (ringIndex c b.begin 0) none } c (l.drop 1) := by
    refine h.moveNext hc (by simp [h.size_eq]) (by simp; omega) ?_ ?_ <;> grind
  refine ⟨_, ?_, hrep⟩
  rw [ringIndex_zero hbegin] at hdestroy ⊢
  simp [CircularBuffer.popFront, h.size_eq, hpos, hdestroy, h.nextpos_begin hc]

/-- `pop_back` drops the last element. -/
theorem popBack (hpos : 0 < l.length) : ∃ b', b.popBack = some b' ∧ b'.Represents c l.dropLast := by
  have hle := h.length_le
  have hbegin := h.begin_lt_of_pos (by omega)
  have hrep : Represents { b with
      size := b.size - 1, space := b.space.set (ringIndex c b.begin (l.length - 1)) none } c
      l.dropLast := by
    refine h.setSlot id hbegin (fun _ hi => ⟨hi, rfl⟩) (by omega) (by simp [h.size_eq])
      (by simp; omega) ?_
    grind
  refine ⟨_, ?_, hrep⟩
  simp [CircularBuffer.popBack, h.size_eq, hpos,
    h.logicalToAbsolute (show l.length - 1 < l.length by omega),
    h.destroy_used (show l.length - 1 < l.length by omega)]

end

end Represents

/-! ## Iterators -/

/-- The iterator at a logical position. -/
def iterAt (b : CircularBuffer α) (k : Nat) : Nat :=
  if k = b.size then kEnd else ringIndex b.capacity b.begin k

namespace Represents

variable {b : CircularBuffer α} {c i j k : Nat} {l : List α} {x : α}

/-! ## Positions -/

section

variable (h : b.Represents c l)
include h

/-- The iterator of an element is at its slot. -/
theorem iterAt_of_lt (hk : k < l.length) : b.iterAt k = ringIndex c b.begin k := by
  rw [iterAt, if_neg (by rw [h.size_eq]; omega), h.capacity_eq]

/-- The iterator behind the last element is the end. -/
theorem iterAt_length : b.iterAt l.length = kEnd :=
  if_pos h.size_eq.symm

/-- The slot of an element is not the end. -/
theorem ringIndex_ne_kEnd (hk : k < l.length) : ringIndex c b.begin k ≠ kEnd := by
  have hle := h.length_le
  have hlt := h.capacity_lt
  have hring := ringIndex_lt (h.begin_lt_of_pos (by omega)) (show k ≤ c by omega)
  unfold kEnd
  omega

/-- `begin()` is at the first element. -/
theorem beginIter_eq : b.beginIter = b.iterAt 0 := by
  rw [beginIter, empty, h.size_eq]
  cases l with
  | nil => exact h.iterAt_length.symm
  | cons x l =>
    have hle := h.length_le
    rw [h.iterAt_of_lt (by simp), ringIndex_zero (h.begin_lt_of_pos (by simp at hle; omega))]
    rfl

section

variable (hk : k ≤ l.length)
include hk

/-- The logical position of an iterator. -/
theorem logicalPos : b.logicalPos (b.iterAt k) = some k := by
  unfold CircularBuffer.logicalPos
  rcases Nat.lt_or_eq_of_le hk with hlt | rfl
  · have hle := h.length_le
    have hcap := h.capacity_lt
    have hbegin := h.begin_lt_of_pos (by omega)
    have hring := ringIndex_lt hbegin (show k ≤ c by omega)
    rw [h.iterAt_of_lt hlt, if_neg (h.ringIndex_ne_kEnd hlt)]
    have hmod : (c + (2 ^ 64 - b.begin) + ringIndex c b.begin k) % 2 ^ 64 =
        c - b.begin + ringIndex c b.begin k := by omega
    have hback : (if c ≤ c - b.begin + ringIndex c b.begin k then
        c - b.begin + ringIndex c b.begin k - c else c - b.begin + ringIndex c b.begin k) = k := by
      unfold ringIndex at hring ⊢
      split_ifs at hring ⊢ <;> omega
    simp only [absoluteToLogical, h.capacity_eq, Option.bind_eq_bind, guard_bind hring, hmod, hback]
    exact guard_bind (show k ≤ c by omega) _
  · rw [h.iterAt_length, if_pos rfl, h.size_eq]

/-- `Incr` moves an iterator by positions. -/
theorem incr {n : Int} (hj : (j : Int) = k + n) (hle : j ≤ l.length) :
    b.incr (b.iterAt k) n = some (b.iterAt j) := by
  have hlength := h.length_le
  have hcap := h.capacity_lt
  have hmod : (((k : Int) + n) % 2 ^ 64).toNat = j := by omega
  simp only [CircularBuffer.incr, h.logicalPos hk, hmod, guard, h.size_eq, hle, if_true,
    Option.bind_eq_bind, Option.bind_some, Option.pure_def]
  split
  next heq => rw [heq, h.iterAt_length]
  next hne => rw [h.logicalToAbsolute (by omega), h.iterAt_of_lt (by omega)]

variable (hj : j ≤ l.length)
include hj

/-- `Subtract` counts positions. -/
theorem subtract : b.subtract (b.iterAt k) (b.iterAt j) = some ((k : Int) - j) := by
  have hle := h.length_le
  have hcap := h.capacity_lt
  have htoInt : ∀ n ≤ l.length, (BitVec.ofNat 64 n).toInt = n := fun n hn => by
    rw [BitVec.toInt_eq_toNat_of_lt]
    · rw [BitVec.toNat_ofNat, Nat.mod_eq_of_lt (by omega)]
    · rw [BitVec.toNat_ofNat]
      omega
  simp [CircularBuffer.subtract, h.logicalPos hj, h.logicalPos hk, htoInt j hj, htoInt k hk]

/-- Iterators are equal at equal positions. -/
theorem iterAt_inj : b.iterAt k = b.iterAt j ↔ k = j := by
  refine ⟨fun heq => ?_, fun heq => heq ▸ rfl⟩
  have hpos := h.logicalPos hk
  rw [heq, h.logicalPos hj] at hpos
  exact (Option.some_inj.mp hpos).symm

/-- Iterators compare by positions. -/
theorem iterLt : b.iterLt (b.iterAt k) (b.iterAt j) = some (decide (k < j)) := by
  simp only [CircularBuffer.iterLt, h.subtract hj hk, Option.bind_eq_bind, Option.bind_some,
    Option.pure_def, Option.some_inj, decide_eq_decide]
  omega

theorem iterLe : b.iterLe (b.iterAt k) (b.iterAt j) = some (decide (k ≤ j)) := by
  simp [CircularBuffer.iterLe, h.iterLt hj hk, ← decide_not]

end

/-- `*it` is the element. -/
theorem deref (hk : k < l.length) : b.atAbsolute (b.iterAt k) = some l[k] := by
  rw [h.iterAt_of_lt hk, h.atAbsolute hk]

/-! ## Elements -/

/-- `at` with a position from the front or from the back. -/
theorem atPos_of_logical (hk : k < l.length) {pos : Int}
    (hpos : (pos + if pos < 0 then (l.length : Int) else 0) = k) : b.atPos pos = some l[k] := by
  have hle := h.length_le
  have hcap := h.capacity_lt
  have hmod : ((k : Int) % 2 ^ 64).toNat = k := by omega
  simp only [atPos, h.size_eq, hpos, hmod, guard, hk, if_true, h.logicalToAbsolute hk,
    h.atAbsolute hk, Option.bind_eq_bind, Option.bind_some, Option.pure_def]

/-- `at(0)` is the first element. -/
theorem atPos_of_nonneg (hi : i < l.length) : b.atPos (i : Int) = some l[i] :=
  h.atPos_of_logical hi (by rw [if_neg (by omega), Int.add_zero])

/-- `at(-1)` is the last element. -/
theorem atPos_of_neg (hi : i < l.length) : b.atPos (-(i + 1 : Int)) = some l[l.length - 1 - i] := by
  refine h.atPos_of_logical (by omega) ?_
  omega

/-- `front()` is the first element. -/
theorem front (hpos : 0 < l.length) : b.front = some l[0] := by
  have hle := h.length_le
  have hzero := h.atAbsolute hpos
  rwa [ringIndex_zero (h.begin_lt_of_pos (by omega))] at hzero

/-- `back()` is the last element. -/
theorem back (hpos : 0 < l.length) : b.back = some l[l.length - 1] := by
  have hle := h.length_le
  have hcap := h.capacity_lt
  have hlast : (l.length + 2 ^ 64 - 1) % 2 ^ 64 = l.length - 1 := by omega
  have hlt : l.length - 1 < l.length := by omega
  simp only [CircularBuffer.back, h.size_eq, hlast, h.logicalToAbsolute hlt, h.atAbsolute hlt,
    Option.bind_eq_bind, Option.bind_some]

end

/-! ## Copies -/

/-- Elements in the first slots. -/
def firstSlots (c : Nat) (l : List α) : List (Option α) :=
  l.map some ++ List.replicate (c - l.length) none

theorem getElem?_firstSlots (hi : i < c) : (firstSlots c l)[i]? = some l[i]? := by
  rw [firstSlots, getElem?_append, length_map]
  split
  next hlt => rw [getElem?_map, getElem?_eq_getElem hlt, Option.map_some]
  next hge =>
    rw [getElem?_replicate, if_pos (by omega), getElem?_eq_none (by omega)]

theorem length_firstSlots (hle : l.length ≤ c) : (firstSlots c l).length = c := by
  simp only [firstSlots, length_append, length_map, length_replicate]
  omega

/-- A buffer that starts at the first slot. -/
theorem ofFirstSlots (hc : c < 2 ^ 63) (hle : l.length ≤ c) :
    Represents ⟨c, 0, l.length, firstSlots c l⟩ c l where
  capacity_eq := rfl
  capacity_lt := hc
  begin_lt := by
    show 0 < max 1 c
    omega
  size_eq := rfl
  length_le := hle
  space_length := length_firstSlots hle
  slot i hi := by
    have hring : ringIndex c 0 i = i := by
      unfold ringIndex
      split_ifs <;> omega
    rw [hring, getElem?_firstSlots hi]

theorem new (hc : c < 2 ^ 63) : (CircularBuffer.new c : CircularBuffer α).Represents c [] :=
  @ofFirstSlots α c [] hc (Nat.zero_le c)

/-- One more element in the first slots. -/
theorem construct_firstSlots (hk : k < l.length) (hle : l.length ≤ c) :
    construct (firstSlots c (l.take k)) k l[k] = some (firstSlots c (l.take (k + 1))) := by
  have hlength : (l.take k).length = k := by
    rw [length_take]
    omega
  have hfree : (firstSlots c (l.take k))[k]? = some none := by
    rw [getElem?_firstSlots (by omega), getElem?_eq_none (by omega)]
  have hsplit : replicate (c - k) (none : Option α) = none :: replicate (c - (k + 1)) none := by
    rw [← replicate_succ, show c - (k + 1) + 1 = c - k by omega]
  rw [construct, hfree, firstSlots, firstSlots, hlength, hsplit, set_append_right _ _
      (Nat.le_of_eq (by rw [length_map, hlength])),
    take_succ_eq_append_getElem hk, map_append, length_append, length_map, hlength, Nat.sub_self,
      append_assoc]
  rfl

section

variable (h : b.Represents c l)
include h

/-- The loop of a copy fills the slots one by one. -/
theorem copy_loop :
    ∃ space, iterate b.copyStep (b.iterAt 0, 0, firstSlots c (l.take 0)) = some space ∧
      space = firstSlots c l := by
  have hle := h.length_le
  refine iterate_total
    (fun s : Nat × Nat × List (Option α) => ∃ k ≤ l.length,
      s = (b.iterAt k, k, firstSlots c (l.take k)))
    (fun space => space = firstSlots c l) (fun s => l.length - s.2.1) ?_ ⟨0, Nat.zero_le _, rfl⟩
  rintro _ ⟨k, hk, rfl⟩
  rcases Nat.lt_or_eq_of_le hk with hlt | rfl
  · left
    have hne : b.iterAt k ≠ kEnd := by
      rw [h.iterAt_of_lt hlt]
      exact h.ringIndex_ne_kEnd hlt
    refine ⟨_, ?_, ⟨k + 1, hlt, rfl⟩, show l.length - (k + 1) < l.length - k by omega⟩
    simp [copyStep, hne, h.deref hlt, construct_firstSlots hlt hle,
      h.incr hk (show ((k + 1 : Nat) : Int) = k + 1 by omega) hlt]
  · right
    refine ⟨_, ?_, rfl⟩
    rw [copyStep, if_pos h.iterAt_length, take_length]

/-- A copy has its elements in the first slots. -/
theorem copy : b.copy = some ⟨c, 0, l.length, firstSlots c l⟩ := by
  obtain ⟨space, hrun, rfl⟩ := h.copy_loop
  have hstart : allocate b.capacity = firstSlots c (l.take 0) := by
    rw [h.capacity_eq]
    rfl
  rw [CircularBuffer.copy, h.beginIter_eq, hstart, hrun, h.capacity_eq, h.size_eq]
  rfl

/-- The loop of `clear` destroys the elements one by one. -/
theorem clear_loop :
    ∃ space, (range l.length).foldlM b.clearSlot b.space = some space ∧ space.length = c ∧
      ∀ i < c, space[ringIndex c b.begin i]? = some (if i < l.length then none else l[i]?) := by
  have hle := h.length_le
  refine foldlM_range_invariant (fun k space => space.length = c ∧
      ∀ i < c, space[ringIndex c b.begin i]? = some (if i < k then none else l[i]?))
    ⟨h.space_length, fun i hi => h.slot i hi⟩ fun k hk space hinv => ?_
  obtain ⟨hlen, hslots⟩ := hinv
  have hring := ringIndex_lt (h.begin_lt_of_pos (by omega)) (show k ≤ c by omega)
  have hdestroy : destroy space (ringIndex c b.begin k) =
      some (space.set (ringIndex c b.begin k) none) := by
    rw [destroy, hslots k (by omega), if_neg (Nat.lt_irrefl k), getElem?_eq_getElem hk]
  refine ⟨space.set (ringIndex c b.begin k) none, ?_, length_set.trans hlen, fun i hi => ?_⟩
  · rw [clearSlot, h.logicalToAbsolute hk, Option.bind_eq_bind, Option.bind_some, hdestroy]
  · by_cases hik : i = k
    · subst hik
      rw [getElem?_set_self (by omega), if_pos (by omega)]
    · rw [getElem?_set_ne (by rw [Ne, ringIndex_inj (by omega) hi]; omega), hslots i hi]
      by_cases hlt : i < k
      · rw [if_pos hlt, if_pos (by omega)]
      · rw [if_neg hlt, if_neg (by omega)]

/-- All elements are destroyed. -/
theorem clear : b.clear = some (CircularBuffer.new c) := by
  obtain ⟨space, hrun, hlength, hslots⟩ := h.clear_loop
  have hspace : space = replicate c none := by
    refine ext_getElem (by rw [hlength, length_replicate]) fun j hj hj' => ?_
    rw [hlength] at hj
    obtain ⟨i, hi, rfl⟩ := exists_ringIndex (h.begin_lt_of_pos (by omega)) hj
    have hnone : (if i < l.length then none else l[i]?) = none := by
      split
      next => rfl
      next hge => exact getElem?_eq_none (by omega)
    have hslot := hslots i hi
    rw [hnone, getElem?_eq_getElem (by omega), Option.some_inj] at hslot
    rw [hslot, getElem_replicate]
  rw [CircularBuffer.clear, h.size_eq, hrun, hspace, h.capacity_eq]
  rfl

/-- The destructor destroys all elements before the array. -/
theorem release : b.release = some () := by
  rw [CircularBuffer.release, h.clear]
  show deallocate (replicate c none) c = some ()
  cases c with
  | zero => rfl
  | succ c => simp [deallocate, guard, replicate_succ]

/-! ## Other capacities -/

/-- The loop of `ChangeCapacity` takes the first elements over. -/
theorem insert_loop {newCapacity : Nat} (hnew : newCapacity < 2 ^ 63) :
    ∃ tmp, iterate (b.insertStep (b.iterAt (min l.length newCapacity)))
        (b.iterAt 0, CircularBuffer.new newCapacity) = some tmp ∧
      tmp.Represents newCapacity (l.take newCapacity) := by
  refine iterate_total
    (fun s : Nat × CircularBuffer α => ∃ k ≤ min l.length newCapacity,
      s.1 = b.iterAt k ∧ s.2.Represents newCapacity (l.take k))
    (fun tmp : CircularBuffer α => tmp.Represents newCapacity (l.take newCapacity))
    (fun s => min l.length newCapacity - s.2.size) ?_
    ⟨0, Nat.zero_le _, rfl, by rw [take_zero]; exact Represents.new hnew⟩
  rintro ⟨_, tmp⟩ ⟨k, hk, rfl, htmp⟩
  have hlength : (l.take k).length = k := by
    rw [length_take]
    omega
  rcases Nat.lt_or_eq_of_le hk with hlt | rfl
  · left
    have hkl : k < l.length := by omega
    have hne : b.iterAt k ≠ b.iterAt (min l.length newCapacity) := by
      rw [Ne, h.iterAt_inj (by omega) (by omega)]
      omega
    obtain ⟨tmp', hpush, htmp'⟩ := htmp.pushBack l[k] (by omega)
    rw [dequePushBack, if_neg (by omega), ← take_succ_eq_append_getElem hkl] at htmp'
    refine ⟨(b.iterAt (k + 1), tmp'), ?_, ⟨k + 1, hlt, rfl, htmp'⟩, ?_⟩
    · simp [insertStep, hne, h.deref hkl, hpush, h.incr (Nat.le_of_lt hkl)
        (show ((k + 1 : Nat) : Int) = k + 1 by omega) hkl]
    · rw [htmp.size_eq, htmp'.size_eq, length_take]
      omega
  · right
    refine ⟨tmp, ?_, ?_⟩
    · rw [insertStep, if_pos rfl]
    · have htake : l.take (min l.length newCapacity) = l.take newCapacity := by
        rw [take_eq_take_iff]
        omega
      rwa [htake] at htmp

/-- `ChangeCapacity` keeps the first elements, with either kind of allocator. -/
theorem changeCapacity (steals : Bool) {newCapacity : Nat} (hnew : newCapacity < 2 ^ 63) :
    ∃ b', b.changeCapacity steals newCapacity = some b' ∧
      b'.Represents newCapacity (l.take newCapacity) := by
  have hle := h.length_le
  unfold CircularBuffer.changeCapacity
  rw [h.capacity_eq]
  split
  next heq =>
    subst heq
    exact ⟨b, rfl, by rwa [take_of_length_le hle]⟩
  next hne =>
    obtain ⟨tmp, hrun, htmp⟩ := h.insert_loop hnew
    have hlast : b.incr (b.iterAt 0) (min (l.length : Int) newCapacity) =
        some (b.iterAt (min l.length newCapacity)) :=
      h.incr (Nat.zero_le _) (by omega) (Nat.min_le_left _ _)
    rw [h.beginIter_eq, h.size_eq]
    cases steals with
    | true =>
      refine ⟨tmp, ?_, htmp⟩
      simp [hlast, hrun, moveAssign, h.release]
    | false =>
      refine ⟨_, ?_, ofFirstSlots hnew htmp.length_le⟩
      simp [hlast, hrun, moveAssign, h.release, htmp.copy, htmp.release]

end

end Represents

end Gloop.Gtl.CircularBuffer
