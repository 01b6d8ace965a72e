import Gloop.Foundation.BinaryHeap
import Gloop.Gtl.IntrusiveHeap.Model
import Gloop.Foundation.Refinement

/-!
# Runs of `IntrusiveHeap`

`FixHeapUp` and `FixHeapDown` move elements into a free slot, together with their links, until the
element fits there. Each turn is a move of the heap library for the order and one for the slots that
the elements store. A heap stands for a set of elements and their keys. Where elements tie, the
queue does not say which of them `Pop` returns, so the set goes on from the one that it has returned
(`intrusiveHeap_behaves`).
-/

namespace Gloop.Gtl.IntrusiveHeap

section

open Gloop.Foundation List
variable {π κ : Type} [DecidableEq π] {less : κ → κ → Bool} {s : IntrusiveHeap π κ} {h : Nat}
  {t : π}

/-- A heap of the given elements, whose links are right and whose keys are those of before. -/
structure Fixed (less : κ → κ → Bool) (s : IntrusiveHeap π κ) (elements : List π)
    (s' : IntrusiveHeap π κ) : Prop where
  key_eq : s'.key = s.key
  perm : s'.heap.Perm elements
  indexed : Indexed some s'.heap s'.link
  isHeap : IsHeap less (slotKeys s.key s'.heap)

/-- The heap with the element `q` in the slot `h`, and the link to it. -/
def moved (s : IntrusiveHeap π κ) (h : Nat) (q : π) : IntrusiveHeap π κ :=
  ⟨s.heap.set h q, Function.update s.link q (some h), s.key⟩

/-- An element goes to a slot, and its link with it. -/
theorem place_eq (hh : h < s.heap.length) (q : π) : s.place h q = some (s.moved h q) := by
  rw [place, setSlot, if_pos hh]
  rfl

theorem shiftRight_eq_heapParent (h : Nat) : (h - 1) >>> 1 = heapParent h := rfl

section

variable (hhole : Hole some s.heap s.link h t)
include hhole

/-- The element has arrived. -/
theorem place_fixed (hheap : IsHeap less (slotKeys s.key (s.heap.set h t))) :
    ∃ s', s.place h t = some s' ∧ Fixed less s (s.heap.set h t) s' :=
  ⟨_, place_eq hhole.lt t, rfl, .refl _, hhole.fill, hheap⟩

/-- What follows a move of the element `q` of the slot `p` ends with the same elements. -/
theorem Fixed.of_move {p : Nat} {q : π} (hne : p ≠ h) (hq : s.heap[p]? = some q)
    {s' : IntrusiveHeap π κ} (hfixed : Fixed less (s.moved h q) ((s.moved h q).heap.set p t) s') :
      Fixed less s (s.heap.set h t) s' where
  key_eq := hfixed.key_eq
  perm := hfixed.perm.trans (hhole.perm hne hq)
  indexed := hfixed.indexed
  isHeap := hfixed.isHeap

/-- The element in the hole moves up to its place. -/
theorem fixHeapUp_fixed (hb : StrictWeak less)
    (hup : UpHeap less (slotKeys s.key (s.heap.set h t)) h) : ∃ s',
      ((iterate (fixHeapUpStep less t) (s, h)).bind fun (s, h) => s.place h t) = some s' ∧
      Fixed less s (s.heap.set h t) s' := by
  -- the slot gets smaller with each turn
  induction h using Nat.strongRecOn generalizing s with
  | ind h ih =>
    by_cases hzero : h = 0
    · subst hzero
      have hdone : fixHeapUpStep less t (s, 0) = some (.inr (s, 0)) := rfl
      rw [iterate_done hdone]
      exact place_fixed hhole hup.isHeap_zero
    have hpos := Nat.pos_of_ne_zero hzero
    have hlt := heapParent_lt hpos
    obtain ⟨q, hq⟩ : ∃ q, s.heap[heapParent h]? = some q :=
      ⟨_, getElem?_eq_getElem (hlt.trans hhole.lt)⟩
    have hstep : fixHeapUpStep less t (s, h) =
        if less (s.key q) (s.key t) then some (.inr (s, h))
        else some (.inl (s.moved h q, heapParent h)) := by
      rw [fixHeapUpStep, if_neg hzero]
      simp only [shiftRight_eq_heapParent, hq, place_eq hhole.lt]
      rfl
    by_cases hless : less (s.key q) (s.key t) = true
    · rw [if_pos hless] at hstep
      rw [iterate_done hstep]
      exact place_fixed hhole (hup.arrived hhole.lt hpos hq (hb.asymm hless))
    · rw [if_neg hless] at hstep
      rw [iterate_next hstep]
      have hmoved := hup.exchange hb hhole.lt hpos hq (Bool.eq_false_iff.mpr hless)
      obtain ⟨s', hrun, hfixed⟩ := ih _ hlt (s := s.moved h q) (hhole.move hlt.ne hq) hmoved
      exact ⟨s', hrun, hfixed.of_move hhole hlt.ne hq⟩

omit hhole [DecidableEq π] in
/-- The child that is compared with is one that no child is before. -/
theorem firstKid_eq (hb : StrictWeak less) (hkid : 2 * h + 1 < s.heap.length) :
    ∃ c k, s.firstKid less (2 * h + 1) = some c ∧ FirstChild s.key less s.heap h c k := by
  obtain ⟨left, hleft⟩ : ∃ left, s.heap[2 * h + 1]? = some left := ⟨_, getElem?_eq_getElem hkid⟩
  rw [firstKid]
  by_cases hright : 2 * h + 1 + 1 < s.heap.length
  · obtain ⟨right, hright'⟩ : ∃ right, s.heap[2 * h + 1 + 1]? = some right :=
      ⟨_, getElem?_eq_getElem hright⟩
    simp only [if_pos hright, hleft, hright', Option.bind_eq_bind, Option.bind_some]
    by_cases hless : s.compare less right left = true
    · exact ⟨_, right, by rw [if_pos hless], firstChild_right hb hleft hright' hless⟩
    · refine ⟨_, left, by rw [if_neg hless], firstChild_left hb hleft fun x hx => ?_⟩
      cases hright'.symm.trans hx
      exact Bool.eq_false_iff.mpr hless
  · refine ⟨_, left, if_neg hright, firstChild_left hb hleft fun x hx => ?_⟩
    exact absurd (List.getElem?_eq_some_iff.mp hx).1 hright

/-- The element in the hole moves down to its place. -/
theorem fixHeapDown_fixed (hb : StrictWeak less)
    (hdown : DownHeap less (slotKeys s.key (s.heap.set h t)) h) :
    ∃ s', ((iterate (fixHeapDownStep less t) (s, h)).bind fun (s, h) => s.place h t) = some s' ∧
      Fixed less s (s.heap.set h t) s' := by
  -- the slot gets closer to the end of the vector with each turn
  induction hleft : s.heap.length - h using Nat.strongRecOn generalizing s h with
  | ind left ih =>
    have hshift : (h <<< 1) + 1 = 2 * h + 1 := by rw [Nat.shiftLeft_eq, Nat.pow_one, Nat.mul_comm]
    by_cases hend : 2 * h + 1 ≥ s.heap.length
    · have hdone : fixHeapDownStep less t (s, h) = some (.inr (s, h)) := by
        exact if_pos hend
      rw [iterate_done hdone]
      exact place_fixed hhole (hdown.arrived_leaf hend)
    obtain ⟨c, k, hfirst, hc⟩ := firstKid_eq hb (Nat.lt_of_not_le hend)
    have hstep : fixHeapDownStep less t (s, h) =
        if less (s.key t) (s.key k) then some (.inr (s, h)) else some (.inl (s.moved h k, c)) := by
      rw [fixHeapDownStep, hshift]
      simp only [if_neg hend, hfirst, hc.elem, place_eq hhole.lt, Option.bind_eq_bind,
        Option.bind_some]
      rfl
    by_cases hless : less (s.key t) (s.key k) = true
    · rw [if_pos hless] at hstep
      rw [iterate_done hstep]
      exact place_fixed hhole (hdown.arrived hb hhole.lt hc (hb.asymm hless))
    rw [if_neg hless] at hstep
    rw [iterate_next hstep]
    have hmoved := hdown.exchange hhole.lt hc (Bool.eq_false_iff.mpr hless)
    have hne : c ≠ h := hc.parent_lt.ne'
    have hlt := hc.parent_lt
    have hlength : (s.moved h k).heap.length = s.heap.length := length_set
    obtain ⟨s', hrun, hfixed⟩ := ih _ (by omega) (s := s.moved h k)
      (hhole.move hne hc.elem) hmoved rfl
    exact ⟨s', hrun, hfixed.of_move hhole hne hc.elem⟩

end

/-! ## `Adjust` -/

/-- An element with a slot is contained. -/
theorem contains_of_getElem? (hindexed : Indexed some s.heap s.link) (ht : s.heap[h]? = some t) :
    s.contains t = true := by
  have hlt := (List.getElem?_eq_some_iff.mp ht).1
  rw [contains, hindexed h t ht]
  exact decide_eq_true ⟨hlt, ht⟩

/-- `FixHeapUp` starts at the slot of the element. -/
theorem fixHeapUp_eq (hlink : s.link t = some h) :
    s.fixHeapUp less t =
      (iterate (fixHeapUpStep less t) (s, h)).bind fun (s, h) => s.place h t := by
  rw [fixHeapUp, hlink]
  rfl

/-- A heap in which one element may be out of place on either side is put in order. -/
theorem adjust_fixed (hb : StrictWeak less) (hnodup : s.heap.Nodup)
    (hindexed : Indexed some s.heap s.link)
    (ht : s.heap[h]? = some t) (hexcept : HeapExcept less (slotKeys s.key s.heap) h) :
    ∃ s', s.adjust less t = some s' ∧ Fixed less s s.heap s' := by
  have hset := set_eq_of_getElem? ht
  have hhole := hindexed.hole hnodup ht
  have hlink : s.link t = some h := hindexed h t ht
  have hup : UpHeap less (slotKeys s.key s.heap) h → ∃ s', s.fixHeapUp less t = some s' ∧
      Fixed less s s.heap s' := by
    intro hup
    have hfixed := fixHeapUp_fixed hhole hb (hset.symm ▸ hup)
    rwa [hset, ← fixHeapUp_eq hlink] at hfixed
  have hdown : OrderedAt less (slotKeys s.key s.heap) h →
      ∃ s', s.fixHeapDown less t = some s' ∧ Fixed less s s.heap s' := by
    intro horder
    have hfixed := fixHeapDown_fixed hhole hb (hset.symm ▸ hexcept.downHeap horder)
    rw [hset] at hfixed
    rw [fixHeapDown, hlink]
    exact hfixed
  rw [adjust, Option.bind_eq_bind, guard_bind (contains_of_getElem? hindexed ht), hlink,
    Option.bind_eq_bind, Option.bind_some, beforeParent]
  by_cases hzero : h = 0
  · subst hzero
    exact hdown fun _ _ hpos => absurd hpos (Nat.lt_irrefl 0)
  · have hpos := Nat.pos_of_ne_zero hzero
    obtain ⟨q, hq⟩ : ∃ q, s.heap[heapParent h]? = some q :=
      ⟨_, getElem?_eq_getElem ((heapParent_lt hpos).trans hhole.lt)⟩
    simp only [if_neg hzero, shiftRight_eq_heapParent, hq, Option.bind_eq_bind, Option.bind_some]
    cases hless : s.compare less t q with
    | true => exact hup (hexcept.upHeap hb hpos (slotKeys_eq_some ht) (slotKeys_eq_some hq) hless)
    | false => exact hdown (orderedAt_of_slots ht hq hless)

end

/-! ## Runs -/

open Gloop.Foundation List Option Function

/-- The operations. `adjust` changes the key of an element of the heap before it calls `Adjust`, and
`setKey` changes the key of another one. -/
inductive Op (π κ : Type)
  | push (e : π)
  | pop
  | remove (e : π)
  | adjust (e : π) (key : κ)
  | setKey (e : π) (key : κ)
  | clear

/-- The abstract priority queue, with the keys of all elements. -/
structure Queue (π κ : Type) where
  members : Finset π
  key : π → κ

variable {π κ : Type} [DecidableEq π] (less : κ → κ → Bool)

/-- Do an operation; `Pop` returns an element. -/
def step (s : IntrusiveHeap π κ) : Op π κ → Option (IntrusiveHeap π κ × Option π)
  | .push e => (s.push less e).map (·, none)
  | .pop => (s.pop less).map fun (s, t) => (s, some t)
  | .remove e => (s.remove less e).map (·, none)
  | .adjust e key => ({ s with key := Function.update s.key e key }.adjust less e).map (·, none)
  | .setKey e key => some ({ s with key := Function.update s.key e key }, none)
  | .clear => some (s.clear, none)

variable (queue : Queue π κ)

/-- What a caller must ensure. -/
def Allowed : Op π κ → Prop
  | .push e => e ∉ queue.members
  | .pop => queue.members.Nonempty
  | .remove e => e ∈ queue.members
  | .adjust e _ => e ∈ queue.members
  | .setKey e _ => e ∉ queue.members
  | .clear => True

/-- The element is a member that no member is before. -/
def IsFirst (t : π) : Prop :=
  t ∈ queue.members ∧ ∀ e ∈ queue.members, less (queue.key e) (queue.key t) = false

/-- What an operation may return. -/
def Correct : Op π κ → Option π → Prop
  | .pop, result => ∃ t, result = some t ∧ IsFirst less queue t
  | _, result => result = none

/-- The queue after an operation that has returned the result. -/
def specStep : Op π κ → Option π → Queue π κ
  | .push e, _ => { queue with members := insert e queue.members }
  | .pop, some t => { queue with members := queue.members.erase t }
  | .pop, none => queue
  | .remove e, _ => { queue with members := queue.members.erase e }
  | .adjust e key, _ => { queue with key := Function.update queue.key e key }
  | .setKey e key, _ => { queue with key := Function.update queue.key e key }
  | .clear, _ => { queue with members := ∅ }

/-- The heap is the queue: its elements are the members, in heap order, each with the link to its
slot. -/
structure Valid (s : IntrusiveHeap π κ) (queue : Queue π κ) : Prop where
  key_eq : s.key = queue.key
  content : (s.heap : Multiset π) = queue.members.val
  order : ∀ i x y, 0 < i → s.heap[i]? = some x → s.heap[(i - 1) / 2]? = some y →
    less (queue.key x) (queue.key y) = false
  link : ∀ i x, s.heap[i]? = some x → s.link x = some i
  top : queue.members.Nonempty → ∃ t, s.top = some t ∧ IsFirst less queue t
  contains : ∀ e, s.contains e = decide (e ∈ queue.members)

variable {less} {s s' : IntrusiveHeap π κ} {queue : Queue π κ} {e : π}

/-! ## The invariant -/

section

variable (hb : StrictWeak less)
include hb

/-- Heap order and links are all that there is to show. -/
theorem valid_of_heapOf (hkey : s.key = queue.key)
    (h : HeapOf some less s.key s.heap s.link queue.members) : Valid less s queue := by
  have hfirst := h.exists_first hb
  rw [hkey] at hfirst
  refine ⟨hkey, h.content, hkey ▸ isHeap_slotKeys_iff.mp h.isHeap, h.indexed, hfirst, fun x => ?_⟩
  by_cases hx : x ∈ queue.members
  · obtain ⟨i, hi⟩ := h.exists_slot hx
    rw [decide_eq_true hx]
    exact contains_of_getElem? h.indexed hi
  · rw [decide_eq_false hx, contains]
    cases s.link x with
    | none => rfl
    | some i => exact decide_eq_false fun hat => hx (h.mem_iff.mp (mem_of_getElem? hat.2))

variable (h : Valid less s queue)
include h

omit hb in
theorem Valid.heapOf : HeapOf some less s.key s.heap s.link queue.members :=
  ⟨h.content, isHeap_slotKeys_iff.mpr (h.key_eq ▸ h.order), h.link⟩

omit h in
/-- A heap that was fixed is valid for its content. -/
theorem valid_of_fixed {elements : List π} (hfixed : Fixed less s elements s')
    (hkey : s.key = queue.key) (hcontent : (elements : Multiset π) = queue.members.val) :
    Valid less s' queue := by
  refine valid_of_heapOf hb (hfixed.key_eq.trans hkey) ⟨?_, hfixed.key_eq ▸ hfixed.isHeap,
    hfixed.indexed⟩
  rw [← hcontent]
  exact Multiset.coe_eq_coe.mpr hfixed.perm

/-! ## The operations -/

/-- `Push` adds an element. -/
theorem Valid.push (he : e ∉ queue.members) : ∃ s', s.push less e = some s' ∧
      Valid less s' { queue with members := insert e queue.members } := by
  let pushed : IntrusiveHeap π κ :=
    ⟨s.heap ++ [e], Function.update s.link e (some s.heap.length), s.key⟩
  have hset : (s.heap ++ [e]).set s.heap.length e = s.heap ++ [e] :=
    set_eq_of_getElem? getElem?_concat_length
  have hhole : Hole some pushed.heap pushed.link s.heap.length e :=
    Indexed.hole_append h.link h.heapOf.nodup (mt h.heapOf.mem_iff.mp he) fun x hx =>
      update_of_ne hx _ _
  obtain ⟨s', hrun, hfixed⟩ := fixHeapUp_fixed hhole hb (hset.symm ▸ h.heapOf.isHeap.append e)
  rw [← fixHeapUp_eq (update_self e (some s.heap.length) s.link)] at hrun
  exact ⟨s', hrun, valid_of_fixed hb hfixed h.key_eq (hset.symm ▸ h.heapOf.insert_content he)⟩

/-- `Adjust` makes up for a key that has changed. -/
theorem Valid.adjust (he : e ∈ queue.members) (key : κ) :
    ∃ s', { s with key := Function.update s.key e key }.adjust less e = some s' ∧
      Valid less s' { queue with key := Function.update queue.key e key } := by
  have hof := h.heapOf
  obtain ⟨i, hi⟩ := hof.exists_slot he
  have hexcept := hof.isHeap.replace hb (slotKeys_eq_some hi) (some key)
  rw [← slotKeys_update hof.nodup hi] at hexcept
  obtain ⟨s', hrun, hfixed⟩ := adjust_fixed (s :=
    { s with key := Function.update s.key e key }) hb hof.nodup
    h.link hi hexcept
  exact ⟨s', hrun, valid_of_fixed hb hfixed (congrArg (Function.update · e key) h.key_eq) h.content⟩

/-- `Remove` takes away an element. -/
theorem Valid.remove (he : e ∈ queue.members) : ∃ s', s.remove less e = some s' ∧
      Valid less s' { queue with members := queue.members.erase e } := by
  have hof := h.heapOf
  obtain ⟨i, hi⟩ := hof.exists_slot he
  obtain ⟨init, last, hheap, hlast⟩ := exists_last_slot hi
  obtain ⟨heap, link, key⟩ := s
  obtain rfl : heap = init ++ [last] := hheap
  have hlink : link e = some i := h.link i e hi
  have hlinks : ∀ x, x ≠ e → Function.update link e none x = link x :=
    fun x hx => update_of_ne hx _ _
  have hpop : ∀ front link', popBack ⟨front ++ [last], link', key⟩ = some ⟨front, link', key⟩ := by
    intro front link'
    rw [popBack, if_neg (by simp), dropLast_concat]
  rw [IntrusiveHeap.remove, bind_eq_bind, guard_bind (contains_of_getElem? h.link hi)]
  simp only [hlink, setPositionOf, bind_eq_bind, bind_some, length_append,
    length_singleton, Nat.add_sub_cancel]
  obtain ⟨rfl, rfl⟩ | ⟨hlt, hie⟩ := hlast
  · rw [if_pos rfl, hpop]
    exact ⟨_, rfl, valid_of_heapOf hb h.key_eq (hof.dropLast rfl hlinks)⟩
  rw [if_neg hlt.ne]
  -- the last element takes the slot of the one that goes
  have hhole : Hole some init (Function.update link e none) i last :=
    Indexed.hole_last h.link hof.nodup hie hlinks
  have hexcept := hof.isHeap.dropLast.replace hb (slotKeys_eq_some hie) (some (key last))
  rw [← slotKeys_set key hlt] at hexcept
  obtain ⟨s', hrun, hfixed⟩ := adjust_fixed
    (s := ⟨init.set i last, Function.update (Function.update link e none) last (some i),
      key⟩) hb hhole.nodup
    hhole.fill (getElem?_set_self hlt) hexcept
  refine ⟨s', ?_, valid_of_fixed hb hfixed h.key_eq (hof.erase_content (perm_cons_set hie last))⟩
  have hplace : place ⟨init ++ [last], Function.update link e none, key⟩ i last =
      some ⟨init.set i last ++ [last], Function.update (Function.update link e none) last (some i),
        key⟩ := by
    rw [place_eq (by simp; omega), moved, set_append_left _ _ hlt]
  rw [getLast?_append, getLast?_singleton]
  simp only [some_or, bind_some, hplace, hpop]
  exact hrun

/-- `Pop` takes away a first element. -/
theorem Valid.pop (hsome : queue.members.Nonempty) :
    ∃ s' t, s.pop less = some (s', t) ∧ IsFirst less queue t ∧
      Valid less s' { queue with members := queue.members.erase t } := by
  obtain ⟨t, htop, hfirst⟩ := h.top hsome
  obtain ⟨s', hremove, hs'⟩ := h.remove hb hfirst.1
  refine ⟨s', t, ?_, hfirst, hs'⟩
  rw [IntrusiveHeap.pop, htop, bind_eq_bind, bind_some, hremove]
  rfl

/-- The key of an element outside of the heap may change. -/
theorem Valid.setKey (he : e ∉ queue.members) (key : κ) :
    Valid less { s with key := Function.update s.key e key }
      { queue with key := Function.update queue.key e key } := by
  refine valid_of_heapOf hb (congrArg (Function.update · e key) h.key_eq) ⟨h.content, ?_, h.link⟩
  rw [slotKeys_update_of_notMem (mt h.heapOf.mem_iff.mp he)]
  exact h.heapOf.isHeap

omit h in
/-- A heap without elements is valid. -/
theorem valid_nil (link : π → Option Nat) {key : π → κ} (hkey : s.key = key) :
    Valid less ⟨[], link, s.key⟩ ⟨∅, key⟩ :=
  valid_of_heapOf hb hkey ⟨rfl, (fun _ _ _ _ hx => nomatch hx), fun _ _ hx => nomatch hx⟩

/-- Every operation keeps the heap valid and returns what it should. -/
theorem Valid.step (op : Op π κ) (hop : Allowed queue op) :
    ∃ next result, step less s op = some (next, result) ∧ Correct less queue op result ∧
      Valid less next (specStep queue op result) := by
  cases op with
  | push e =>
    obtain ⟨s', hrun, hs'⟩ := h.push hb hop
    exact ⟨s', none, by rw [IntrusiveHeap.step, hrun]; rfl, rfl, hs'⟩
  | pop =>
    obtain ⟨s', t, hrun, hfirst, hs'⟩ := h.pop hb hop
    exact ⟨s', some t, by rw [IntrusiveHeap.step, hrun]; rfl, ⟨t, rfl, hfirst⟩, hs'⟩
  | remove e =>
    obtain ⟨s', hrun, hs'⟩ := h.remove hb hop
    exact ⟨s', none, by rw [IntrusiveHeap.step, hrun]; rfl, rfl, hs'⟩
  | adjust e key =>
    obtain ⟨s', hrun, hs'⟩ := h.adjust hb hop key
    exact ⟨s', none, by rw [IntrusiveHeap.step, hrun]; rfl, rfl, hs'⟩
  | setKey e key => exact ⟨_, none, rfl, rfl, h.setKey hb hop key⟩
  | clear => exact ⟨_, none, rfl, rfl, valid_nil hb _ h.key_eq⟩

end

/-- From an empty heap on, whatever the links of the elements are, every sequence of operations is
one of the priority queue, and the heap is valid after each of them. -/
theorem intrusiveHeap_behaves (hb : StrictWeak less) (link : π → Option Nat) (key : π → κ)
    (ops : List (Op π κ)) :
    Behaves (step less) Allowed (Correct less) specStep (Valid less) ⟨[], link, key⟩ ⟨∅, key⟩
      ops := by
  refine behaves_of_step (fun s queue op h hop => h.step hb op hop) ?_ ops
  exact valid_nil (s := ⟨[], link, key⟩) hb link rfl

/-- Seven elements with numbers as keys. `Remove(3)` moves the last element into an inner slot, from
where it goes up, and a key changes while its element is in the heap. -/
theorem intrusiveHeap_behaves_seven_elements :
    Behaves (step fun a b : Nat => decide (a < b)) Allowed (Correct fun a b : Nat => decide (a < b))
      specStep (Valid fun a b : Nat => decide (a < b))
      ⟨[], fun _ => none, fun e => [0, 10, 1, 11, 12, 2, 3].getD e 0⟩
      ⟨∅, fun e => [0, 10, 1, 11, 12, 2, 3].getD e 0⟩
      ((range 7).map .push ++ [.remove 3, .adjust 4 1, .pop, .remove 6, .clear]) :=
  intrusiveHeap_behaves (strictWeak_of_key id) _ _ _

/-- Two keys change before the first `Adjust`, which then goes by an order that is not that of a
heap. Each change is followed by its `Adjust` (here the key is set to what it is), but in the end 35
stands below 50. -/
theorem adjust_after_two_changes : ∃ s : IntrusiveHeap Nat Nat,
    ([.push 0, .push 1, .push 2, .push 3] ++ [.setKey 0 100, .setKey 1 200, .adjust 0 100,
        .adjust 1 200] : List (Op Nat Nat)).foldlM
      (fun s op => (step (fun a b => decide (a < b)) s op).map Prod.fst)
      ⟨[], fun _ => none, fun e => [10, 30, 50, 35].getD e 0⟩ = some s ∧
    s.heap = [2, 3, 0, 1] ∧ s.top = some 2 ∧ s.key 3 < s.key 2 := by
  have hpush (key : Nat → Nat) (hkey : key = fun e => [10, 30, 50, 35].getD e 0) :
      [.push 0, .push 1, .push 2, .push 3].foldlM
        (fun s op => (step (fun a b => decide (a < b)) s op).map Prod.fst)
        ⟨[], fun _ => none, key⟩ =
      some ⟨[0, 1, 2, 3], fun e => if e < 4 then some e else none, key⟩ := by
    simp [step, push, fixHeapUp, iterate_eq_bind, setPositionOf, fixHeapUpStep, place, setSlot,
      compare, hkey]
    funext e
    simp only [update_apply]
    grind
  rw [foldlM_append, hpush _ rfl]
  simp [step, adjust, fixHeapDown, iterate_eq_bind, setPositionOf, fixHeapDownStep, place, setSlot,
    contains, beforeParent, firstKid, compare, top]

end Gloop.Gtl.IntrusiveHeap
