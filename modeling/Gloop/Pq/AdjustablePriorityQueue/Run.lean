import Gloop.Foundation.Refinement
import Gloop.Pq.AdjustablePriorityQueue.Sift

/-!
# Runs of `AdjustablePriorityQueue`

A queue stands for a set of elements and their priorities (`adjustablePriorityQueue_behaves`). An
element has room for one heap index, so it must not be added twice: the second `Add` leaves an entry
behind whose element does not know about it (`add_twice_loses_index`).
-/

namespace Gloop.Pq.AdjustablePriorityQueue

open Gloop.Foundation List Option
open Int (ofNat)
open Function (update)

/-- The operations. `noteChangedPriority` changes the priority of a member before it calls
`NoteChangedPriority`, and `setPriority` changes that of another element. `pop` asks for `Top`
before it calls `Pop`. -/
inductive Op (π κ : Type)
  | construct (range : List π)
  | add (e : π)
  | remove (e : π)
  | pop
  | noteChangedPriority (e : π) (priority : κ)
  | setPriority (e : π) (priority : κ)
  | clear

/-- The abstract priority queue, with the priorities of all elements. -/
structure Queue (π κ : Type) where
  members : Finset π
  priority : π → κ

variable {π κ : Type} [DecidableEq π] (make : MakeHeap π) (lower : κ → κ → Bool)

/-- Do an operation; `pop` returns the element that was on top. -/
def step (s : AdjustablePriorityQueue π κ) :
    Op π κ → Option (AdjustablePriorityQueue π κ × Option π)
  | .construct range => (s.construct lower make range).map (·, none)
  | .add e => (s.add lower e).map (·, none)
  | .remove e => (s.remove lower e).map (·, none)
  | .pop => do
    let t ← s.top
    let s ← s.pop lower
    some (s, some t)
  | .noteChangedPriority e priority =>
    ({ s with priority := update s.priority e priority }.noteChangedPriority lower e).map (·, none)
  | .setPriority e priority => some ({ s with priority := update s.priority e priority }, none)
  | .clear => some (s.clear, none)

variable (queue : Queue π κ)

/-- What a caller must ensure. -/
def Allowed : Op π κ → Prop
  | .construct range => range.Nodup
  | .add e => e ∉ queue.members
  | .remove e => e ∈ queue.members
  | .pop => queue.members.Nonempty
  | .noteChangedPriority e _ => e ∈ queue.members
  | .setPriority e _ => e ∉ queue.members
  | .clear => True

/-- The element is a member that is not lower than any member. -/
def IsTop (t : π) : Prop :=
  t ∈ queue.members ∧ ∀ e ∈ queue.members, lower (queue.priority t) (queue.priority e) = false

/-- What an operation may return. -/
def Correct : Op π κ → Option π → Prop
  | .pop, result => ∃ t, result = some t ∧ IsTop lower queue t
  | _, result => result = none

/-- The queue after an operation that has returned the result. -/
def specStep : Op π κ → Option π → Queue π κ
  | .construct range, _ => { queue with members := range.toFinset }
  | .add e, _ => { queue with members := insert e queue.members }
  | .remove e, _ => { queue with members := queue.members.erase e }
  | .pop, some t => { queue with members := queue.members.erase t }
  | .pop, none => queue
  | .noteChangedPriority e priority, _ =>
    { queue with priority := update queue.priority e priority }
  | .setPriority e priority, _ => { queue with priority := update queue.priority e priority }
  | .clear, _ => { queue with members := ∅ }

/-- The vector is the queue: its elements are the members, in heap order, each with the index of its
slot. -/
structure Valid (s : AdjustablePriorityQueue π κ) (queue : Queue π κ) : Prop where
  priority_eq : s.priority = queue.priority
  content : (s.elems : Multiset π) = queue.members.val
  order : ∀ i x y, 0 < i → s.elems[i]? = some x → s.elems[(i - 1) / 2]? = some y →
    lower (queue.priority y) (queue.priority x) = false
  index : ∀ i x, s.elems[i]? = some x → s.heapIndex x = ofNat i
  top : queue.members.Nonempty → ∃ t, s.top = some t ∧ IsTop lower queue t
  contains : ∀ e, s.contains e = decide (e ∈ queue.members)
  allTop : ∃ topvec, s.allTop lower = some topvec ∧ topvec.Nodup ∧ ∀ e, e ∈ topvec ↔
    e ∈ queue.members ∧ ∃ t, s.top = some t ∧ equiv lower (queue.priority e)
      (queue.priority t) = true
  checkValid : s.checkValid lower = some ()

variable {make lower} {s s' : AdjustablePriorityQueue π κ} {queue : Queue π κ} {e : π}

/-! ## The invariant -/

/-- `Contains` finds the elements. -/
theorem contains_eq (hindex : Indexed ofNat s.elems s.heapIndex) (x : π) :
    s.contains x = decide (x ∈ s.elems) := by
  by_cases hx : x ∈ s.elems
  · obtain ⟨i, hi, rfl⟩ := mem_iff_getElem.mp hx
    have hget := getElem?_eq_getElem hi
    rw [decide_eq_true hx, contains, hindex i _ hget]
    exact decide_eq_true ⟨hi, hget⟩
  · rw [decide_eq_false hx, contains]
    -- an element that is not there may have any index
    cases s.heapIndex x with
    | ofNat i => exact decide_eq_false fun hat => hx (mem_of_getElem? hat.2)
    | negSucc i => rfl

omit [DecidableEq π] in
theorem checkChild_eq (hheap : IsHeap (higher lower) (slotKeys s.priority s.elems)) {i child : Nat}
    (hchild : child = 2 * i + 1 ∨ child = 2 * i + 2) : s.checkChild lower i child = some () := by
  rw [checkChild]
  by_cases hlt : child < s.elems.length
  · have hpos : 0 < child := by omega
    have hparent := (heapParent_eq_iff hpos).mpr hchild
    obtain ⟨c, hc⟩ : ∃ c, s.elems[child]? = some c := ⟨_, getElem?_eq_getElem hlt⟩
    obtain ⟨t, ht⟩ : ∃ t, s.elems[i]? = some t := ⟨_, getElem?_eq_getElem (by omega)⟩
    have hnot : s.lowerPriority lower t c = false :=
      hheap child _ _ hpos (slotKeys_eq_some hc) (hparent ▸ slotKeys_eq_some ht)
    rw [ht, hc]
    simp [hnot]
  · rw [if_neg hlt]

omit [DecidableEq π] in
/-- `CheckValid` passes. -/
theorem checkValid_eq (hheap : IsHeap (higher lower) (slotKeys s.priority s.elems)) :
    s.checkValid lower = some () := by
  rw [checkValid]
  generalize range s.elems.length = slots
  induction slots with
  | nil => rfl
  | cons i slots ih =>
    have hleft : s.checkChild lower i (1 + 2 * i) = some () :=
      checkChild_eq hheap (.inl (Nat.add_comm _ _))
    have hright : s.checkChild lower i (1 + 2 * i + 1) = some () :=
      checkChild_eq hheap (.inr (by omega))
    rw [List.forM]
    simp only [hleft, hright]
    exact ih

/-- Heap order and indices are all that there is to show. -/
theorem valid_of_heapOf (hlower : StrictWeak lower) (hpriority : s.priority = queue.priority)
    (h : HeapOf ofNat (higher lower) s.priority s.elems s.heapIndex queue.members) :
      Valid lower s queue := by
  have hfirst := h.exists_first hlower.opposite
  rw [hpriority] at hfirst
  refine ⟨hpriority, h.content, hpriority ▸ isHeap_slotKeys_iff.mp h.isHeap, h.indexed, hfirst,
    fun x => ?_, ?_,
    checkValid_eq h.isHeap⟩
  · rw [contains_eq h.indexed, decide_eq_decide]
    exact h.mem_iff
  · cases hl : s.elems with
    | nil =>
      refine ⟨[], by rw [allTop, hl]; rfl, nodup_nil, fun x => ?_⟩
      rw [← h.mem_iff, hl]
      exact iff_of_false not_mem_nil fun hx => not_mem_nil hx.1
    | cons t rest =>
      obtain ⟨topvec, hrun, htop, hties⟩ := allTop_eq hlower h.nodup h.isHeap hl
      have hhead : s.top = some t := by
        rw [top, hl]
        rfl
      refine ⟨topvec, hrun, htop, fun x => ?_⟩
      rw [hties, h.mem_iff, hpriority]
      refine and_congr_right fun _ => ⟨fun htie => ⟨t, hhead, htie⟩, ?_⟩
      rintro ⟨t', ht', htie⟩
      cases hhead.symm.trans ht'
      exact htie

/-- A valid queue is a heap of its members. -/
theorem Valid.heapOf (h : Valid lower s queue) :
    HeapOf ofNat (higher lower) s.priority s.elems s.heapIndex queue.members :=
  ⟨h.content, isHeap_slotKeys_iff.mpr (h.priority_eq ▸ h.order), h.index⟩

/-- A queue that was adjusted is valid for its content. -/
theorem valid_of_adjusted (hlower : StrictWeak lower) {elements : List π}
    (h : Adjusted lower s elements s') (hpriority : s.priority = queue.priority)
    (hcontent : (elements : Multiset π) = queue.members.val) : Valid lower s' queue := by
  refine valid_of_heapOf hlower (h.priority_eq.trans hpriority) ⟨?_, h.priority_eq ▸ h.isHeap,
    h.indexed⟩
  rw [← hcontent]
  exact Multiset.coe_eq_coe.mpr h.perm

/-- A queue without elements is valid. -/
theorem valid_nil (hlower : StrictWeak lower) (heapIndex : π → Int) {priority : π → κ}
    (hpriority : s.priority = priority) : Valid lower ⟨[], heapIndex, s.priority⟩ ⟨∅, priority⟩ :=
  valid_of_heapOf hlower hpriority ⟨rfl, (fun _ _ _ _ hx => nomatch hx), fun _ _ hx => nomatch hx⟩

/-! ## The operations -/

/-- After the loop of the constructor, every element has the index of its slot. -/
theorem setHeapIndexes (hnodup : s.elems.Nodup) (k : Nat) (hk : k ≤ s.elems.length) :
    ∃ s', (range k).foldlM setHeapIndex s = some s' ∧ s'.elems = s.elems ∧
      s'.priority = s.priority ∧ ∀ i x, i < k → s.elems[i]? = some x →
        s'.heapIndex x = ofNat i := by
  induction k with
  | zero => exact ⟨s, rfl, rfl, rfl, fun i x hi => absurd hi (Nat.not_lt_zero i)⟩
  | succ k ih =>
    obtain ⟨s', hrun, helems, hpriority, hindex⟩ := ih (Nat.le_of_succ_le hk)
    obtain ⟨t, ht⟩ : ∃ t, s.elems[k]? = some t := ⟨_, getElem?_eq_getElem hk⟩
    refine ⟨{ s' with heapIndex := update s'.heapIndex t (ofNat k) }, ?_, helems, hpriority,
      fun i x hi hx => ?_⟩
    · rw [range_succ, foldlM_append, hrun, bind_eq_bind, bind_some, foldlM_cons,
        setHeapIndex_eq (helems ▸ ht)]
      rfl
    · show update s'.heapIndex t _ x = _
      by_cases hik : i = k
      · subst hik
        cases ht.symm.trans hx
        exact Function.update_self _ _ _
      · rw [Function.update_of_ne (ne_of_slot hnodup ht hx hik)]
        exact hindex i x (by omega) hx

omit [DecidableEq π] in
theorem popBack_concat (front : List π) (last : π) (heapIndex : π → Int) (priority : π → κ) :
    popBack ⟨front ++ [last], heapIndex, priority⟩ = some ⟨front, heapIndex, priority⟩ := by
  rw [popBack, if_neg (by simp), dropLast_concat]

section

variable (hlower : StrictWeak lower)
include hlower

variable (h : Valid lower s queue)
include h

variable (make) in
/-- A queue of a range has its elements. -/
theorem Valid.construct {range : List π} (hrange : range.Nodup) :
    ∃ s', s.construct lower make range = some s' ∧
      Valid lower s' { queue with members := range.toFinset } := by
  have hcontent : (range : Multiset π) = range.toFinset.val := by rw [toFinset_val, hrange.dedup]
  rw [AdjustablePriorityQueue.construct]
  by_cases hnil : range = []
  · subst hnil
    exact ⟨_, if_pos rfl, valid_nil hlower _ h.priority_eq⟩
  have hperm := make.perm (s.lowerPriority lower) range
  have hordered := make.heapOrdered (s.lowerPriority lower) range (hlower.comap s.priority)
  rw [if_neg hnil]
  generalize make.makeHeap (s.lowerPriority lower) range = elems at hperm hordered
  obtain ⟨s', hrun, helems, hpriority, hindex⟩ := setHeapIndexes (s := { s with elems := elems })
    (hperm.nodup_iff.mpr hrange) elems.length (le_refl _)
  refine ⟨s', hrun,
    valid_of_heapOf hlower (hpriority.trans h.priority_eq) ⟨?_, ?_, fun i x hx => ?_⟩⟩
  · rw [helems, ← hcontent]
    exact Multiset.coe_eq_coe.mpr hperm
  · rw [helems, hpriority]
    exact isHeap_slotKeys_iff.mpr fun i x y hi hx hy =>
      hordered i x y hi (slotKeys_eq_some hx) (slotKeys_eq_some hy)
  · rw [helems] at hx
    exact hindex i x (List.getElem?_eq_some_iff.mp hx).1 hx

/-- `Add` adds an element. -/
theorem Valid.add (he : e ∉ queue.members) : ∃ s', s.add lower e = some s' ∧
      Valid lower s' { queue with members := insert e queue.members } := by
  have hset : (s.elems ++ [e]).set s.elems.length e = s.elems ++ [e] :=
    set_eq_of_getElem? getElem?_concat_length
  have hhole : Hole ofNat (s.elems ++ [e]) s.heapIndex s.elems.length e :=
    Indexed.hole_append h.index h.heapOf.nodup (mt h.heapOf.mem_iff.mp he) fun _ _ => rfl
  obtain ⟨s', hrun, hs'⟩ := adjustUpwards_adjusted (s :=
    { s with elems := s.elems ++ [e] }) hlower hhole
    (hset.symm ▸ h.heapOf.isHeap.append e)
  have hlast : (s.elems ++ [e]).length - 1 = s.elems.length := by simp
  exact ⟨s', by rw [AdjustablePriorityQueue.add, hlast, hrun],
    valid_of_adjusted hlower hs' h.priority_eq (hset.symm ▸ h.heapOf.insert_content he)⟩

omit h in
/-- A heap in which one element may be out of place on either side is put in order. -/
theorem noteChangedPriority_adjusted (hnodup : s.elems.Nodup)
    (hindexed : Indexed ofNat s.elems s.heapIndex) {i : Nat} (hi : s.elems[i]? = some e)
    (hexcept : HeapExcept (higher lower) (slotKeys s.priority s.elems) i) :
    ∃ s', s.noteChangedPriority lower e = some s' ∧ Adjusted lower s s.elems s' := by
  have hset := set_eq_of_getElem? hi
  have hhole := hindexed.hole hnodup hi
  have hindex : (s.heapIndex e).toNat? = some i := by
    rw [hindexed i e hi]
    rfl
  have hdown : OrderedAt (higher lower) (slotKeys s.priority s.elems) i →
      ∃ s', s.adjustDownwards lower i s.elems.length e = some s' ∧ Adjusted lower s s.elems s' := by
    intro horder
    have hadjusted := adjustDownwards_adjusted hlower hhole
      (hset.symm ▸ hexcept.downHeap horder) rfl
    rwa [hset] at hadjusted
  rw [noteChangedPriority, hindex, bind_eq_bind, bind_some, lowerParent]
  by_cases hpos : i > 0
  · have hlt := heapParent_lt hpos
    obtain ⟨q, hq⟩ : ∃ q, s.elems[(i - 1) / 2]? = some q :=
      ⟨_, getElem?_eq_getElem (hlt.trans hhole.lt)⟩
    simp only [if_pos hpos, hq, bind_eq_bind, bind_some]
    cases hless : s.lowerPriority lower q e with
    | true =>
      have hup := hexcept.upHeap hlower.opposite hpos (slotKeys_eq_some hi)
        (slotKeys_eq_some hq) hless
      rw [← hset] at hup
      -- the parent moves down before `AdjustUpwards` starts, one slot above
      have hmoved := hup.exchange hlower.opposite hhole.lt hpos hq (hlower.asymm hless)
      obtain ⟨s', hrun, hs'⟩ :=
        adjustUpwards_adjusted (s := s.moved i q) hlower (hhole.move hlt.ne hq) hmoved
      have hplace : ((s.setElem i q).bind fun s => s.setHeapIndex i) = some (s.moved i q) :=
        place_eq hhole.lt q
      refine ⟨s', ?_, hset ▸ hs'.of_move hhole hlt.ne hq⟩
      simp only [if_true]
      rw [← bind_assoc, hplace]
      exact hrun
    | false => exact hdown (orderedAt_of_slots hi hq hless)
  · simp only [if_neg hpos]
    exact hdown fun _ _ hpos' => absurd hpos' hpos

/-- `NoteChangedPriority` makes up for a priority that has changed. -/
theorem Valid.noteChangedPriority (he : e ∈ queue.members) (priority : κ) :
    ∃ s', { s with priority := update s.priority e priority }.noteChangedPriority lower e =
      some s' ∧ Valid lower s' { queue with priority := update queue.priority e priority } := by
  have hof := h.heapOf
  obtain ⟨i, hi⟩ := hof.exists_slot he
  have hexcept := hof.isHeap.replace hlower.opposite (slotKeys_eq_some hi) (some priority)
  rw [← slotKeys_update hof.nodup hi] at hexcept
  obtain ⟨s', hrun, hs'⟩ := noteChangedPriority_adjusted
    (s := { s with priority := update s.priority e priority }) hlower hof.nodup h.index hi hexcept
  exact ⟨s', hrun, valid_of_adjusted hlower hs'
    (congrArg (update · e priority) h.priority_eq) h.content⟩

/-- `Remove` takes away an element. -/
theorem Valid.remove (he : e ∈ queue.members) : ∃ s', s.remove lower e = some s' ∧
      Valid lower s' { queue with members := queue.members.erase e } := by
  have hof := h.heapOf
  obtain ⟨i, hi⟩ := hof.exists_slot he
  obtain ⟨init, last, helems, hlast⟩ := exists_last_slot hi
  obtain ⟨elems, heapIndex, priority⟩ := s
  obtain rfl : elems = init ++ [last] := helems
  have hindex : (heapIndex e).toNat? = some i := by
    rw [show heapIndex e = ofNat i from h.index i e hi]
    rfl
  rw [AdjustablePriorityQueue.remove]
  simp only [hindex, hi, bind_eq_bind, bind_some, length_append, length_singleton,
    Nat.add_sub_cancel]
  rw [guard_bind trivial]
  obtain ⟨rfl, rfl⟩ | ⟨hlt, hie⟩ := hlast
  · rw [if_pos rfl, popBack_concat]
    exact ⟨_, rfl, valid_of_heapOf hlower h.priority_eq (hof.dropLast rfl fun _ _ => rfl)⟩
  -- the last element takes the slot of the one that goes
  have hhole : Hole Int.ofNat init heapIndex i last :=
    Indexed.hole_last h.index hof.nodup hie fun _ _ => rfl
  have hexcept := hof.isHeap.dropLast.replace hlower.opposite (slotKeys_eq_some hie)
    (some (priority last))
  rw [← slotKeys_set priority hlt] at hexcept
  have hslot : (init.set i last)[i]? = some last := getElem?_set_self hlt
  obtain ⟨s', hrun, hs'⟩ := noteChangedPriority_adjusted
    (s := ⟨init.set i last, update heapIndex last (ofNat i), priority⟩) hlower hhole.nodup
    hhole.fill hslot hexcept
  refine ⟨s', ?_, valid_of_adjusted hlower hs' h.priority_eq
    (hof.erase_content (perm_cons_set hie last))⟩
  have hplace : ((setElem ⟨init ++ [last], heapIndex, priority⟩ i last).bind fun s =>
      s.setHeapIndex i) =
      some ⟨init.set i last ++ [last], update heapIndex last (ofNat i), priority⟩ := by
    have hmoved := place_eq (s := ⟨init ++ [last], heapIndex, priority⟩)
      (by simp; omega : i < (init ++ [last]).length)
      last
    rwa [moved, set_append_left _ _ hlt] at hmoved
  rw [if_neg hlt.ne, getElem?_concat_length, bind_some, ← bind_assoc, hplace,
    bind_some, popBack_concat, bind_some, hslot]
  exact hrun

/-- `Pop` takes away a top element. -/
theorem Valid.pop (hsome : queue.members.Nonempty) :
    ∃ s' t, s.top = some t ∧ s.pop lower = some s' ∧ IsTop lower queue t ∧
      Valid lower s' { queue with members := queue.members.erase t } := by
  have hof := h.heapOf
  obtain ⟨t, htop, hfirst⟩ := h.top hsome
  have hpos : 0 < s.elems.length := (List.getElem?_eq_some_iff.mp htop).1
  obtain ⟨v, hv⟩ : ∃ v, s.elems[s.elems.length - 1]? = some v := ⟨_, getElem?_eq_getElem (by omega)⟩
  obtain ⟨s₁, j, hrun, hmoved⟩ := adjustHoleDownwards_moved hlower
    (hof.indexed.hole hof.nodup htop) hof.isHeap.heapExcept_zero rfl
  have hperm := hmoved.perm
  rw [set_eq_of_getElem? htop] at hperm
  have hlength : s₁.elems.length = s.elems.length := by simpa using hperm.length_eq
  obtain ⟨init, last, helems, hlast⟩ := exists_last_slot (getElem?_eq_getElem hmoved.hole.lt)
  obtain ⟨elems, heapIndex, priority⟩ := s₁
  obtain rfl : elems = init ++ [last] := helems
  have hpriority : priority = s.priority := hmoved.priority_eq
  have hsize : s.elems.length = init.length + 1 := by rw [← hlength, length_append,
    length_singleton]
  have hothers : ∀ i x, i ≠ j → init[i]? = some x → heapIndex x = ofNat i := by
    intro i x hi hx
    have hlt := (List.getElem?_eq_some_iff.mp hx).1
    exact hmoved.hole.indexed i x hi (by rw [getElem?_append_left hlt, hx])
  suffices hend : ∃ s', (if j + 1 = s.elems.length then some ⟨init, heapIndex, priority⟩
      else adjustUpwards lower ⟨init, heapIndex, priority⟩ j v) = some s' ∧
      Valid lower s' { queue with members := queue.members.erase t } by
    obtain ⟨s', hs', hvalid⟩ := hend
    refine ⟨s', t, htop, ?_, hfirst, hvalid⟩
    rw [AdjustablePriorityQueue.pop, bind_eq_bind, guard_bind hpos, hv, hrun]
    simp only [bind_eq_bind, bind_some, popBack_concat]
    exact hs'
  obtain ⟨rfl, -⟩ | ⟨hlt, -⟩ := hlast
  · -- the slot has reached the end, and the last element has moved up from there
    have hset : (init ++ [last]).set init.length t = init ++ [t] := by simp
    rw [hset] at hperm
    refine ⟨_, if_pos hsize.symm,
      valid_of_heapOf hlower (hpriority.trans h.priority_eq) ⟨?_, ?_, fun i x hx => ?_⟩⟩
    · exact hof.erase_content (hperm.symm.trans (perm_append_singleton t init))
    · rw [hpriority]
      exact hmoved.except.dropLast
    · exact hothers i x (List.getElem?_eq_some_iff.mp hx).1.ne hx
  · have hlast : j + 1 ≠ s.elems.length := by omega
    obtain rfl : v = last := by
      have hkept := hmoved.last hlast
      rw [hv, hsize, Nat.add_sub_cancel, getElem?_concat_length] at hkept
      exact (some.inj hkept).symm
    rw [set_append_left _ _ hlt] at hperm
    have hrest : (init.set j t ++ [v]).Perm (t :: init.set j v) := by
      have hfree := perm_cons_set (getElem?_set_self hlt : (init.set j t)[j]? = some t) v
      rwa [set_set] at hfree
    have hnodup := (nodup_cons.mp ((hperm.symm.trans hrest).nodup_iff.mp hof.nodup)).2
    have hleaf : init.length ≤ 2 * j + 1 := by
      have := hmoved.leaf
      omega
    obtain ⟨s', hs', hadjusted⟩ := adjustUpwards_adjusted (s := ⟨init, heapIndex, priority⟩) hlower
      ⟨hlt, hnodup, hothers⟩ (hpriority ▸ hmoved.except.upHeap_leaf hleaf v)
    refine ⟨s', by rw [if_neg hlast, hs'],
      valid_of_adjusted hlower hadjusted (hpriority.trans h.priority_eq) ?_⟩
    exact hof.erase_content (hperm.symm.trans hrest)

/-- The priority of an element outside of the queue may change. -/
theorem Valid.setPriority (he : e ∉ queue.members)
    (priority : κ) : Valid lower { s with priority := update s.priority e priority }
      { queue with priority := update queue.priority e priority } := by
  refine valid_of_heapOf hlower (congrArg (update · e priority) h.priority_eq) ⟨h.content, ?_,
    h.index⟩
  rw [slotKeys_update_of_notMem (mt h.heapOf.mem_iff.mp he)]
  exact h.heapOf.isHeap

/-- Every operation keeps the queue valid and returns what it should. -/
theorem Valid.step (op : Op π κ) (hop : Allowed queue op) :
    ∃ next result, step make lower s op = some (next, result) ∧ Correct lower queue op result ∧
      Valid lower next (specStep queue op result) := by
  cases op with
  | construct range =>
    obtain ⟨s', hrun, hs'⟩ := h.construct make hlower hop
    exact ⟨s', none, by rw [AdjustablePriorityQueue.step, hrun]; rfl, rfl, hs'⟩
  | add e =>
    obtain ⟨s', hrun, hs'⟩ := h.add hlower hop
    exact ⟨s', none, by rw [AdjustablePriorityQueue.step, hrun]; rfl, rfl, hs'⟩
  | remove e =>
    obtain ⟨s', hrun, hs'⟩ := h.remove hlower hop
    exact ⟨s', none, by rw [AdjustablePriorityQueue.step, hrun]; rfl, rfl, hs'⟩
  | pop =>
    obtain ⟨s', t, htop, hrun, hfirst, hs'⟩ := h.pop hlower hop
    exact ⟨s', some t, by rw [AdjustablePriorityQueue.step, htop, hrun]; rfl, ⟨t, rfl, hfirst⟩, hs'⟩
  | noteChangedPriority e priority =>
    obtain ⟨s', hrun, hs'⟩ := h.noteChangedPriority hlower hop priority
    exact ⟨s', none, by rw [AdjustablePriorityQueue.step, hrun]; rfl, rfl, hs'⟩
  | setPriority e priority => exact ⟨_, none, rfl, rfl, h.setPriority hlower hop priority⟩
  | clear => exact ⟨_, none, rfl, rfl, valid_nil hlower _ h.priority_eq⟩

end

/-- From an empty queue on, whatever the indices of the elements are, every sequence of operations
is one of the priority queue, and the vector is valid after each of them. -/
theorem adjustablePriorityQueue_behaves (make : MakeHeap π) (hlower : StrictWeak lower)
    (heapIndex : π → Int) (priority : π → κ) (ops : List (Op π κ)) :
    Behaves (step make lower) Allowed (Correct lower) specStep (Valid lower)
      ⟨[], heapIndex, priority⟩ ⟨∅, priority⟩ ops :=
  behaves_of_step (fun _ _ op h hop => h.step hlower op hop)
    (valid_nil (s := ⟨[], heapIndex, priority⟩) hlower heapIndex rfl) ops

/-- Three elements and a range; the priority of one of them changes while it is in the queue. -/
theorem adjustablePriorityQueue_behaves_three_elements :
    Behaves (step .bySorting fun a b : Nat => decide (a < b)) Allowed
      (Correct fun a b : Nat => decide (a < b)) specStep (Valid fun a b : Nat => decide (a < b))
      ⟨[], fun _ : Fin 3 => -1, fun _ => 7⟩ ⟨∅, fun _ => 7⟩
      [.construct [2, 0], .add 1, .noteChangedPriority 0 3, .pop, .remove 0, .clear] :=
  adjustablePriorityQueue_behaves .bySorting (strictWeak_of_key id) _ _ _

/-- An element that is added twice has the index of the second entry only. When that entry is
removed, the element is still in the queue, and `Contains` denies it. -/
theorem add_twice_loses_index : ∃ s s' : AdjustablePriorityQueue Unit Nat,
      ((add (fun a b => decide (a < b)) ⟨[], fun _ => -1, fun _ => 7⟩ ()).bind
        fun s => s.add (fun a b => decide (a < b)) ()) = some s ∧
      s.elems[0]? = some () ∧ s.heapIndex () = 1 ∧
      s.remove (fun a b => decide (a < b)) () = some s' ∧ s'.elems = [()] ∧
        s'.contains () = false := by
  have hfirst : add (fun a b => decide (a < b)) ⟨[], fun _ : Unit => -1, fun _ => 7⟩ () =
      some ⟨[()], fun _ => 0, fun _ => 7⟩ := by
    rw [add, adjustUpwards, iterate_done rfl]
    rfl
  have hsecond : add (fun a b => decide (a < b)) ⟨[()], fun _ : Unit => 0, fun _ => 7⟩ () =
      some ⟨[(), ()], fun _ => 1, fun _ => 7⟩ := by
    rw [add, adjustUpwards, iterate_done rfl]
    rfl
  refine ⟨⟨[(), ()], fun _ => 1, fun _ => 7⟩, ⟨[()], fun _ => 1, fun _ => 7⟩, ?_, rfl, rfl, rfl,
    rfl, rfl⟩
  rw [hfirst, bind_some, hsecond]

end Gloop.Pq.AdjustablePriorityQueue
