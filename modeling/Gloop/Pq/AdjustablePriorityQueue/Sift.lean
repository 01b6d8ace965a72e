import Gloop.Pq.AdjustablePriorityQueue.Model

/-!
# The loops of `AdjustablePriorityQueue`

`AdjustUpwards` and `AdjustDownwards` move elements into a free slot until the given element fits
there. `AdjustHoleDownwards` has no element for the slot: it moves the slot to the bottom, and the
element that was taken out of it stands for the missing one. Elements are moved together with their
indices, also those that the loops are about to overwrite. `AllTop` compares each child with its
parent and never with the first element. In a heap that comes to the same: a child of an element
that ties with the first one ties with it exactly if it is not of lower priority than its parent,
and what does not tie has nothing below it that does.
-/

namespace Gloop.Pq.AdjustablePriorityQueue

section

open Gloop.Foundation List
open Int (ofNat)
variable {π κ : Type} [DecidableEq π] {lower : κ → κ → Bool} {s : AdjustablePriorityQueue π κ}
  {i : Nat} {t : π}

/-- The order of the heap: an element is above those of lower priority. -/
abbrev higher (lower : κ → κ → Bool) (a b : κ) : Bool :=
  lower b a

/-- A heap of the given elements, whose indices are right and whose priorities are those of
before. -/
structure Adjusted (lower : κ → κ → Bool) (s : AdjustablePriorityQueue π κ) (elements : List π)
    (s' : AdjustablePriorityQueue π κ) : Prop where
  priority_eq : s'.priority = s.priority
  perm : s'.elems.Perm elements
  indexed : Indexed ofNat s'.elems s'.heapIndex
  isHeap : IsHeap (higher lower) (slotKeys s.priority s'.elems)

/-- The queue with the element `q` in the slot `i`, and its index. -/
def moved (s : AdjustablePriorityQueue π κ) (i : Nat) (q : π) : AdjustablePriorityQueue π κ :=
  ⟨s.elems.set i q, Function.update s.heapIndex q (ofNat i), s.priority⟩

theorem setHeapIndex_eq (ht : s.elems[i]? = some t) :
    s.setHeapIndex i = some { s with heapIndex := Function.update s.heapIndex t (ofNat i) } := by
  rw [setHeapIndex, ht]
  rfl

/-- An element goes to a slot, and its index with it. -/
theorem place_eq (hi : i < s.elems.length) (q : π) : s.place i q = some (s.moved i q) := by
  rw [place, setElem, if_pos hi]
  exact setHeapIndex_eq (getElem?_set_self hi)

/-- The element has arrived. -/
theorem place_adjusted (hhole : Hole ofNat s.elems s.heapIndex i t)
    (hheap : IsHeap (higher lower) (slotKeys s.priority (s.elems.set i t))) :
    ∃ s', s.place i t = some s' ∧ Adjusted lower s (s.elems.set i t) s' :=
  ⟨_, place_eq hhole.lt t, rfl, .refl _, hhole.fill, hheap⟩

variable {s' : AdjustablePriorityQueue π κ}

/-- What follows a move of the element `q` of the slot `p` ends with the same elements. -/
theorem Adjusted.of_move (hhole : Hole ofNat s.elems s.heapIndex i t) {p : Nat} {q : π}
    (hne : p ≠ i) (hq : s.elems[p]? = some q)
    (h : Adjusted lower (s.moved i q) ((s.moved i q).elems.set p t) s') :
    Adjusted lower s (s.elems.set i t) s' where
  priority_eq := h.priority_eq
  perm := h.perm.trans (hhole.perm hne hq)
  indexed := h.indexed
  isHeap := h.isHeap

section

variable (hlower : StrictWeak lower)
include hlower

/-- The element in the hole moves up to its place. -/
theorem adjustUpwards_adjusted (hhole : Hole ofNat s.elems s.heapIndex i t)
    (hup : UpHeap (higher lower) (slotKeys s.priority (s.elems.set i t)) i) :
    ∃ s', s.adjustUpwards lower i t = some s' ∧ Adjusted lower s (s.elems.set i t) s' := by
  -- the slot gets smaller with each turn
  induction i using Nat.strongRecOn generalizing s with
  | ind i ih =>
    rw [adjustUpwards]
    by_cases hzero : i = 0
    · subst hzero
      have hdone : adjustUpwardsStep lower t (s, 0) = some (.inr (s, 0)) := rfl
      rw [iterate_done hdone]
      exact place_adjusted hhole hup.isHeap_zero
    have hpos := Nat.pos_of_ne_zero hzero
    have hlt := heapParent_lt hpos
    obtain ⟨q, hq⟩ : ∃ q, s.elems[heapParent i]? = some q :=
      ⟨_, getElem?_eq_getElem (hlt.trans hhole.lt)⟩
    have hstep : adjustUpwardsStep lower t (s, i) =
        if lower (s.priority q) (s.priority t) then some (.inl (s.moved i q, heapParent i))
        else some (.inr (s, i)) := by
      have hparent : s.elems[(i - 1) / 2]? = some q := hq
      rw [adjustUpwardsStep, if_pos hpos]
      simp only [hparent, place_eq hhole.lt, Option.bind_eq_bind, Option.bind_some, lowerPriority]
      cases lower (s.priority q) (s.priority t) <;> rfl
    by_cases hless : lower (s.priority q) (s.priority t) = true
    · rw [if_pos hless] at hstep
      rw [iterate_next hstep]
      have hmoved := hup.exchange hlower.opposite hhole.lt hpos hq (hlower.asymm hless)
      obtain ⟨s', hrun, hs'⟩ := ih _ hlt (s := s.moved i q) (hhole.move hlt.ne hq) hmoved
      exact ⟨s', hrun, hs'.of_move hhole hlt.ne hq⟩
    · rw [if_neg hless] at hstep
      rw [iterate_done hstep]
      exact place_adjusted hhole (hup.arrived hhole.lt hpos hq (Bool.eq_false_iff.mpr hless))

/-! ## Downwards -/

omit [DecidableEq π] in
/-- The outcome of the comparison of two children. -/
theorem firstChild_of_lower {left right : π} (hleft : s.elems[2 * i + 1]? = some left)
    (hright : s.elems[2 * i + 2]? = some right) :
    ∃ c k, (if s.lowerPriority lower left right then 2 * i + 2 else 2 * i + 1) = c ∧
      FirstChild s.priority (higher lower) s.elems i c k := by
  by_cases hless : s.lowerPriority lower left right = true
  · exact ⟨_, right, if_pos hless, firstChild_right hlower.opposite hleft hright hless⟩
  · refine ⟨_, left, if_neg hless, firstChild_left hlower.opposite hleft fun x hx => ?_⟩
    cases hright.symm.trans hx
    exact Bool.eq_false_iff.mpr hless

omit [DecidableEq π] in
theorem firstChild_of_end {left : π} (hleft : s.elems[2 * i + 1]? = some left)
    (hend : s.elems.length ≤ 2 * i + 2) :
    FirstChild s.priority (higher lower) s.elems i (2 * i + 1) left := by
  refine firstChild_left hlower.opposite hleft fun x hx => ?_
  rw [getElem?_eq_none hend] at hx
  cases hx

omit [DecidableEq π] in
/-- The child of higher priority. -/
theorem nextChild_eq (hleft : 1 + 2 * i < s.elems.length) :
    ∃ c k, s.nextChild lower (1 + 2 * i) s.elems.length = some c ∧
      FirstChild s.priority (higher lower) s.elems i c k := by
  rw [Nat.add_comm] at hleft ⊢
  obtain ⟨left, hl⟩ : ∃ left, s.elems[2 * i + 1]? = some left := ⟨_, getElem?_eq_getElem hleft⟩
  rw [nextChild]
  by_cases hright : 2 * i + 2 < s.elems.length
  · obtain ⟨right, hr⟩ : ∃ right, s.elems[2 * i + 2]? = some right :=
      ⟨_, getElem?_eq_getElem hright⟩
    obtain ⟨c, k, hc, hfirst⟩ := firstChild_of_lower hlower hl hr
    refine ⟨c, k, ?_, hfirst⟩
    simp only [if_pos hright, hl, hr, Option.bind_eq_bind, Option.bind_some, hc]
  · exact ⟨_, left, if_neg hright, firstChild_of_end hlower hl (Nat.le_of_not_lt hright)⟩

/-- The element in the hole moves down to its place. -/
theorem adjustDownwards_adjusted (hhole : Hole ofNat s.elems s.heapIndex i t)
    (hdown : DownHeap (higher lower) (slotKeys s.priority (s.elems.set i t)) i) {length : Nat}
    (hlength : s.elems.length = length) :
    ∃ s', s.adjustDownwards lower i length t = some s' ∧ Adjusted lower s (s.elems.set i t) s' := by
  subst hlength
  -- the slot gets closer to the end of the vector with each turn
  induction hleft : s.elems.length - i using Nat.strongRecOn generalizing s i with
  | ind left ih =>
    rw [adjustDownwards]
    by_cases hend : 1 + 2 * i ≥ s.elems.length
    · have hdone : adjustDownwardsStep lower s.elems.length t (s, i) = some (.inr (s, i)) := by
        exact if_pos hend
      rw [iterate_done hdone]
      exact place_adjusted hhole (hdown.arrived_leaf (by omega))
    obtain ⟨c, k, hnext, hc⟩ := nextChild_eq hlower (Nat.lt_of_not_le hend)
    have hstep : adjustDownwardsStep lower s.elems.length t (s, i) =
        if lower (s.priority t) (s.priority k) then some (.inl (s.moved i k, c))
          else some (.inr (s, i)) := by
      rw [adjustDownwardsStep]
      simp only [if_neg hend, hnext, hc.elem, place_eq hhole.lt, Option.bind_eq_bind,
        Option.bind_some, lowerPriority]
      cases lower (s.priority t) (s.priority k) <;> rfl
    by_cases hless : lower (s.priority t) (s.priority k) = true
    · rw [if_pos hless] at hstep
      rw [iterate_next hstep]
      have hmoved := hdown.exchange hhole.lt hc (hlower.asymm hless)
      have hlt := hc.parent_lt
      have hlength : (s.moved i k).elems.length = s.elems.length := length_set
      obtain ⟨s', hrun, hs'⟩ := ih _ (by omega) (s := s.moved i k)
        (hhole.move hlt.ne' hc.elem) hmoved rfl
      rw [hlength] at hrun
      exact ⟨s', hrun, hs'.of_move hhole hlt.ne' hc.elem⟩
    · rw [if_neg hless] at hstep
      rw [iterate_done hstep]
      exact place_adjusted hhole (hdown.arrived hlower.opposite hhole.lt hc
        (Bool.eq_false_iff.mpr hless))

end

/-! ## The hole -/

/-- The slot that was free for `t` has moved from `i` to the bottom. The last element is still where
it was, unless the slot is there now. -/
structure HoleMoved (lower : κ → κ → Bool) (s : AdjustablePriorityQueue π κ) (i : Nat) (t : π)
    (s' : AdjustablePriorityQueue π κ) (j : Nat) : Prop where
  priority_eq : s'.priority = s.priority
  hole : Hole ofNat s'.elems s'.heapIndex j t
  perm : (s'.elems.set j t).Perm (s.elems.set i t)
  except : HeapExcept (higher lower) (slotKeys s.priority s'.elems) j
  leaf : s.elems.length ≤ 2 * j + 1
  last : j + 1 ≠ s.elems.length → s'.elems[s.elems.length - 1]? = s.elems[s.elems.length - 1]?

/-- The slot goes on from the child whose element has moved up. -/
theorem HoleMoved.of_move (hhole : Hole ofNat s.elems s.heapIndex i t) {c : Nat} {k : π}
    (hc : FirstChild s.priority (higher lower) s.elems i c k) {j : Nat}
    (h : HoleMoved lower (s.moved i k) c t s' j) : HoleMoved lower s i t s' j := by
  have hlength : (s.moved i k).elems.length = s.elems.length := length_set
  refine ⟨h.priority_eq, h.hole, h.perm.trans (hhole.perm hc.parent_lt.ne' hc.elem), h.except,
    hlength ▸ h.leaf, fun hj => ?_⟩
  have hlast := h.last (hlength.symm ▸ hj)
  have hlt := hc.parent_lt
  have hclt := hc.lt
  rw [hlength] at hlast
  rw [hlast]
  exact getElem?_set_ne (by omega)

/-- The hole moves down to a leaf. -/
theorem adjustHoleDownwards_moved (hlower : StrictWeak lower)
    (hhole : Hole ofNat s.elems s.heapIndex i t)
    (hexcept : HeapExcept (higher lower) (slotKeys s.priority s.elems) i) {length : Nat}
    (hlength : s.elems.length = length) :
    ∃ s' j, s.adjustHoleDownwards lower i length = some (s', j) ∧ HoleMoved lower s i t s' j := by
  subst hlength
  induction hleft : s.elems.length - i using Nat.strongRecOn generalizing s i with
  | ind left ih =>
    rw [adjustHoleDownwards]
    have hcomm : 1 + 2 * i = 2 * i + 1 := Nat.add_comm _ _
    by_cases hend : 1 + 2 * i ≥ s.elems.length
    · have hdone : adjustHoleDownwardsStep lower s.elems.length (s, i) = some (.inr (s, i)) := by
        exact if_pos hend
      rw [iterate_done hdone]
      exact ⟨s, i, rfl, rfl, hhole, .refl _, hexcept, hcomm ▸ hend, fun _ => rfl⟩
    obtain ⟨l, hl⟩ : ∃ l, s.elems[2 * i + 1]? = some l := ⟨_, getElem?_eq_getElem (by omega)⟩
    -- what a move to the child `c` leads to
    have hmove : ∀ {c k}, FirstChild s.priority (higher lower) s.elems i c k →
        Hole ofNat (s.moved i k).elems (s.moved i k).heapIndex c t ∧
          HeapExcept (higher lower) (slotKeys s.priority (s.moved i k).elems) c ∧
          (s.moved i k).elems.length = s.elems.length :=
      fun hc => ⟨hhole.move hc.parent_lt.ne' hc.elem, hexcept.exchange hhole.lt hc, length_set⟩
    by_cases hright : 1 + 2 * i + 1 ≥ s.elems.length
    · have hdone : adjustHoleDownwardsStep lower s.elems.length (s, i) =
          some (.inr (s.moved i l, 2 * i + 1)) := by
        rw [adjustHoleDownwardsStep]
        simp only [if_neg hend, if_pos hright]
        simp only [hcomm, hl, place_eq hhole.lt, Option.bind_eq_bind, Option.bind_some]
      rw [iterate_done hdone]
      have hc := firstChild_of_end hlower hl (by omega)
      obtain ⟨hhole', hexcept', hsize⟩ := hmove hc
      refine ⟨_, _, rfl, HoleMoved.of_move hhole hc ⟨rfl, hhole', .refl _, hexcept', ?_,
        fun _ => rfl⟩⟩
      omega
    · obtain ⟨r, hr⟩ : ∃ r, s.elems[2 * i + 2]? = some r := ⟨_, getElem?_eq_getElem (by omega)⟩
      obtain ⟨c, k, hnext, hc⟩ := firstChild_of_lower hlower hl hr
      have hstep : adjustHoleDownwardsStep lower s.elems.length (s, i) =
          some (.inl (s.moved i k, c)) := by
        rw [adjustHoleDownwardsStep]
        simp only [if_neg hend, if_neg hright]
        simp only [hcomm, hl, hr, hnext, hc.elem, place_eq hhole.lt, Option.bind_eq_bind,
          Option.bind_some]
      rw [iterate_next hstep]
      obtain ⟨hhole', hexcept', hsize⟩ := hmove hc
      have hlt := hc.parent_lt
      obtain ⟨s', j, hrun, hs'⟩ := ih _ (by omega) hhole' hexcept' rfl
      rw [hsize] at hrun
      exact ⟨s', j, hrun, .of_move hhole hc hs'⟩

end

/-! ## `AllTop` -/

open Gloop.Foundation List Option
variable {π κ : Type} {lower : κ → κ → Bool} {s : AdjustablePriorityQueue π κ} {first t : π}
  {i : Nat}

/-- The element of the slot is not of lower priority than the first one. -/
def ties (lower : κ → κ → Bool) (s : AdjustablePriorityQueue π κ) (first : π) (i : Nat) : Bool :=
  s.elems[i]?.any fun t => !s.lowerPriority lower t first

theorem ties_iff : s.ties lower first i = true ↔
    ∃ t, s.elems[i]? = some t ∧ lower (s.priority t) (s.priority first) = false := by
  rw [ties, any_eq_true_iff_get]
  constructor
  · rintro ⟨hsome, hget⟩
    exact ⟨_, (some_get hsome).symm, by simpa [lowerPriority] using hget⟩
  · rintro ⟨t, ht, hnot⟩
    exact ⟨by rw [ht]; rfl, by simp [ht, lowerPriority, hnot]⟩

theorem lt_of_ties (h : s.ties lower first i = true) : i < s.elems.length := by
  obtain ⟨t, ht, -⟩ := ties_iff.mp h
  exact (List.getElem?_eq_some_iff.mp ht).1

variable (hlower : StrictWeak lower)
include hlower

/-- The parent of an element that ties is in between. -/
theorem ties_parent (hheap : IsHeap (higher lower) (slotKeys s.priority s.elems))
    (h : s.ties lower first i = true) : s.ties lower first (heapParent i) = true := by
  by_cases hzero : i = 0
  · subst hzero
    exact h
  · have hpos := Nat.pos_of_ne_zero hzero
    obtain ⟨t, ht, hnot⟩ := ties_iff.mp h
    have hlt := (List.getElem?_eq_some_iff.mp ht).1
    obtain ⟨q, hq⟩ : ∃ q, s.elems[heapParent i]? = some q :=
      ⟨_, getElem?_eq_getElem ((heapParent_lt hpos).trans hlt)⟩
    have hparent := hheap i _ _ hpos (slotKeys_eq_some ht) (slotKeys_eq_some hq)
    exact ties_iff.mpr ⟨q, hq, hlower.not_less_trans hnot hparent⟩

/-- A comparison with an element that ties is one with the first element. -/
theorem pushChild_eq (htie : equiv lower (s.priority t) (s.priority first) = true) (child : Nat)
    (needToCheck : List Nat) : s.pushChild lower t child needToCheck =
      some (needToCheck ++ [child].filter (s.ties lower first)) := by
  obtain ⟨hbelow, habove⟩ := StrictWeak.equiv_iff.mp htie
  rw [pushChild]
  by_cases hlt : child < s.elems.length
  · obtain ⟨c, hc⟩ : ∃ c, s.elems[child]? = some c := ⟨_, getElem?_eq_getElem hlt⟩
    have hsame : lower (s.priority c) (s.priority t) = lower (s.priority c) (s.priority first) := by
      rw [Bool.eq_iff_iff]
      exact ⟨fun h => hlower.less_of_less_of_not_less h habove,
        fun h => hlower.less_of_less_of_not_less h hbelow⟩
    have hties : s.ties lower first child = !lower (s.priority c) (s.priority first) := by
      rw [ties, hc]
      rfl
    rw [if_pos hlt, hc, bind_eq_bind, bind_some, lowerPriority, hsame, filter_singleton, hties]
    cases lower (s.priority c) (s.priority first) with
    | true => simp
    | false => simp
  · have hnone : s.ties lower first child = false := by
      rw [ties, getElem?_eq_none (Nat.le_of_not_lt hlt)]
      rfl
    rw [if_neg hlt, filter_singleton, hnone]
    simp

/-- A turn of the loop visits the next slot. -/
theorem allTopStep_eq (ht : s.elems[i]? = some t)
    (htie : equiv lower (s.priority t) (s.priority first) = true) (needToCheck : List Nat)
    (topvec : List π) : s.allTopStep lower (i :: needToCheck, topvec) =
      some (.inl (needToCheck ++ [2 * i + 1, 2 * i + 2].filter (s.ties lower first),
        topvec ++ [t])) := by
  have hfilter : [2 * i + 1, 2 * i + 2].filter (s.ties lower first) =
      [2 * i + 1].filter (s.ties lower first) ++ [2 * i + 2].filter (s.ties lower first) := by
    rw [← filter_append, singleton_append]
  have hcomm : 1 + 2 * i = 2 * i + 1 := Nat.add_comm _ _
  rw [allTopStep, ht, hcomm]
  by_cases hleft : 2 * i + 1 < s.elems.length
  · simp only [if_pos hleft, pushChild_eq hlower htie, bind_eq_bind, bind_some]
    rw [hfilter, append_assoc]
  have hnone : ∀ c, 2 * i + 1 ≤ c → s.ties lower first c = false := by
    intro c hc
    refine Bool.eq_false_iff.mpr fun hties => ?_
    have := lt_of_ties hties
    omega
  simp only [if_neg hleft]
  rw [hfilter, filter_singleton, filter_singleton, hnone _ (Nat.le_refl _), hnone _ (by omega)]
  simp

/-- The slots visited by the search hold what has been returned so far. -/
def Listed (lower : κ → κ → Bool) (s : AdjustablePriorityQueue π κ) (first : π)
    (st : List Nat × List π) : Prop :=
  ∃ visited, Search (s.ties lower first) visited st.1 ∧ visited.map (s.elems[·]?) = st.2.map some

omit hlower in
/-- Elements that tie have the priority of the top. -/
theorem equiv_of_ties (hroot : ∀ e ∈ s.elems, lower (s.priority first) (s.priority e) = false)
    (ht : s.elems[i]? = some t) (hties : s.ties lower first i = true) :
    equiv lower (s.priority t) (s.priority first) = true := by
  obtain ⟨t', ht', hnot⟩ := ties_iff.mp hties
  cases ht.symm.trans ht'
  exact StrictWeak.equiv_iff.mpr ⟨hnot, hroot t (mem_of_getElem? ht)⟩

/-- A round of `AllTop` lists one more element. -/
theorem allTopStep_listed (hroot : ∀ e ∈ s.elems, lower (s.priority first) (s.priority e) = false)
    (st : List Nat × List π) (h : Listed lower s first st) :
    (∃ next, s.allTopStep lower st = some (.inl next) ∧ Listed lower s first next ∧
      s.elems.length - next.2.length < s.elems.length - st.2.length) ∨
    (∃ topvec, s.allTopStep lower st = some (.inr topvec) ∧ Listed lower s first ([], topvec)) := by
  obtain ⟨queue, topvec⟩ := st
  obtain ⟨visited, hsearch, hvisited⟩ := h
  cases queue with
  | nil => exact .inr ⟨topvec, rfl, visited, hsearch, hvisited⟩
  | cons i queue =>
    have hties := ((hsearch.mem_iff i).mp (by simp)).1
    obtain ⟨t, ht, -⟩ := ties_iff.mp hties
    refine .inl ⟨_, allTopStep_eq hlower ht (equiv_of_ties hroot ht hties) queue topvec,
      ⟨visited ++ [i], hsearch.visit, ?_⟩, ?_⟩
    · rw [map_append, map_append, hvisited, map_singleton, map_singleton, ht]
    · have hlength : visited.length = topvec.length := by simpa using congrArg List.length hvisited
      have hlt := hsearch.length_lt fun j => lt_of_ties
      simp only [length_append, length_singleton]
      omega

/-- `AllTop` returns the elements that tie with the first one, each once. -/
theorem allTop_eq (hnodup : s.elems.Nodup)
    (hheap : IsHeap (higher lower) (slotKeys s.priority s.elems)) {rest : List π}
    (hs : s.elems = first :: rest) : ∃ topvec, s.allTop lower = some topvec ∧ topvec.Nodup ∧
      ∀ e, e ∈ topvec ↔ e ∈ s.elems ∧ equiv lower (s.priority e) (s.priority first) = true := by
  have hroot : ∀ e ∈ s.elems, lower (s.priority first) (s.priority e) = false := by
    intro e he
    rw [hs] at he hheap
    exact hheap.not_before_head hlower.opposite he
  have hzero : s.ties lower first 0 = true := ties_iff.mpr ⟨first, by rw [hs]; rfl, hlower.irrefl _⟩
  have hstart : Listed lower s first ([0], []) := ⟨[], search_root hzero, rfl⟩
  obtain ⟨topvec, hrun, visited, hsearch, hvisited⟩ := iterate_total (Listed lower s first) _ _
    (allTopStep_listed hlower hroot) hstart
  have hmem : ∀ {i}, i ∈ visited ↔ s.ties lower first i = true :=
    hsearch.mem_visited_iff fun j => ties_parent hlower hheap
  refine ⟨topvec, ?_, ?_, fun e => ?_⟩
  · rw [allTop, if_neg (by rw [hs]; exact Nat.succ_ne_zero _), hrun]
  · have hmap : (visited.map (s.elems[·]?)).Nodup := by
      refine List.Nodup.map_on (fun i hi j _ hij => ?_) (by simpa using hsearch.nodup)
      exact (List.getElem?_inj (lt_of_ties (hmem.mp hi)) hnodup).mp hij
    rw [hvisited] at hmap
    exact hmap.of_map
  · have hlisted : e ∈ topvec ↔ ∃ i ∈ visited, s.elems[i]? = some e := by
      rw [← List.mem_map, hvisited, List.mem_map_of_injective (Option.some_injective π)]
    rw [hlisted]
    constructor
    · rintro ⟨i, hi, he⟩
      exact ⟨List.mem_of_getElem? he, equiv_of_ties hroot he (hmem.mp hi)⟩
    · rintro ⟨he, hequiv⟩
      obtain ⟨i, hi, rfl⟩ := List.mem_iff_getElem.mp he
      have hget := List.getElem?_eq_getElem hi
      exact ⟨i, hmem.mpr (ties_iff.mpr ⟨_, hget, (StrictWeak.equiv_iff.mp hequiv).1⟩), hget⟩

end Gloop.Pq.AdjustablePriorityQueue
