import Gloop.Foundation.WeakOrder
import Mathlib.Data.Finset.Basic

/-!
# Binary heaps in arrays

An array is a heap if no slot is before its parent. While an element is on its way, the array has
all slots in order except around one slot: above it (`UpHeap`), below it (`DownHeap`) or on both
sides (`HeapExcept`). A move of the element is an exchange with the parent or with a child, and the
lemmas say when an exchange keeps the shape and when the element has arrived. The second part keeps
track of where each element of an array is, for elements that store their own index.

The standard library says what its heap algorithms achieve and not how. A structure holds a function
together with that description, and a development that takes it as a parameter is about every
implementation. `MakeHeap.bySorting` and `HeapAlgorithms.bySorting` show that there are some.
-/

namespace Gloop.Foundation

section

open List Option
open Function (update_self update_of_ne update_idem)
open List (getElem?_eq_some_iff getElem?_set_ne getElem?_append_left length_append getElem?_set_self
  length_set)

/-- The slot above. -/
def heapParent (i : Nat) : Nat :=
  (i - 1) / 2

variable {i : Nat}

theorem heapParent_lt (hi : 0 < i) : heapParent i < i := by
  rw [heapParent]
  omega

/-- The children of a slot are at twice its index, plus one and plus two. -/
theorem heapParent_eq_iff {i h : Nat} (hi : 0 < i) :
    heapParent i = h ↔ i = 2 * h + 1 ∨ i = 2 * h + 2 := by
  rw [heapParent]
  omega

section Order

variable {α : Type*} (before : α → α → Bool)

/-- The slot is not before its parent. -/
def OrderedAt (f : Nat → Option α) (i : Nat) : Prop :=
  ∀ x y, 0 < i → f i = some x → f (heapParent i) = some y → before x y = false

/-- No slot is before its parent. -/
def IsHeap (f : Nat → Option α) : Prop :=
  ∀ i, OrderedAt before f i

/-- No child of the slot is before the parent of the slot. -/
def Bridged (f : Nat → Option α) (h : Nat) : Prop :=
  ∀ c x y, 0 < c → heapParent c = h → 0 < h → f c = some x → f (heapParent h) = some y →
    before x y = false

/-- A heap but for the slot `h`, which may be before its parent. -/
structure UpHeap (f : Nat → Option α) (h : Nat) : Prop where
  others : ∀ i, i ≠ h → OrderedAt before f i
  bridged : Bridged before f h

/-- A heap but for the slot `h`, which its children may be before. -/
structure DownHeap (f : Nat → Option α) (h : Nat) : Prop where
  others : ∀ i, heapParent i ≠ h → OrderedAt before f i
  bridged : Bridged before f h

/-- A heap but for the slot `h`. -/
structure HeapExcept (f : Nat → Option α) (h : Nat) : Prop where
  others : ∀ i, i ≠ h → heapParent i ≠ h → OrderedAt before f i
  bridged : Bridged before f h

variable {before} {f : Nat → Option α} {h : Nat}

/-- Fewer entries are a heap as well. -/
theorem IsHeap.mono (hf : IsHeap before f) {g : Nat → Option α}
    (hg : ∀ i x, g i = some x → f i = some x) : IsHeap before g :=
  fun i x y hi hx hy => hf i x y hi (hg _ _ hx) (hg _ _ hy)

/-- The root is before every other entry, or ties with it. -/
theorem IsHeap.not_before_root (hb : StrictWeak before) (hf : IsHeap before f)
    (hparent : ∀ i, (f i).isSome → (f (heapParent i)).isSome) {t : α} (ht : f 0 = some t) (i : Nat)
    {x : α} (hx : f i = some x) : before x t = false := by
  induction i using Nat.strongRecOn generalizing x with
  | ind i ih =>
    by_cases hi : i = 0
    · subst hi
      cases ht.symm.trans hx
      exact hb.irrefl t
    · have hpos := Nat.pos_of_ne_zero hi
      obtain ⟨y, hy⟩ := isSome_iff_exists.mp (hparent i (by rw [hx]; rfl))
      exact hb.not_less_trans (ih _ (heapParent_lt hpos) hy) (hf i x y hpos hx hy)

/-- The entry of the slot itself does not matter. -/
theorem HeapExcept.update (hf : HeapExcept before f h) (new : Option α) :
    HeapExcept before (Function.update f h new) h where
  others i hi hparent x y hpos hx hy := by
    rw [update_of_ne hi] at hx
    rw [update_of_ne hparent] at hy
    exact hf.others i hi hparent x y hpos hx hy
  bridged c x y hc hparent hpos hx hy := by
    have hlt := heapParent_lt hc
    have hlt' := heapParent_lt hpos
    rw [update_of_ne (by omega)] at hx
    rw [update_of_ne (by omega)] at hy
    exact hf.bridged c x y hc hparent hpos hx hy

/-- A heap in which the entry of one slot is replaced. The old entry was between its neighbours. -/
theorem IsHeap.replace (hb : StrictWeak before) (hf : IsHeap before f) {old : α}
    (hold : f h = some old) (new : Option α) : HeapExcept before (Function.update f h new) h := by
  refine HeapExcept.update ⟨fun i _ _ => hf i, fun c x y hc hparent hpos hx hy => ?_⟩ new
  exact hb.not_less_trans (hf h old y hpos hold hy) (hf c x old hc hx (hparent ▸ hold))

/-- An entry that is before its parent is before its children too. -/
theorem HeapExcept.upHeap (hb : StrictWeak before) (hf : HeapExcept before f h) {t q : α}
    (hpos : 0 < h) (ht : f h = some t) (hq : f (heapParent h) = some q)
    (hbefore : before t q = true) : UpHeap before f h where
  others i hi x y hipos hx hy := by
    by_cases hparent : heapParent i = h
    · rw [hparent, ht] at hy
      cases hy
      have hxq := hf.bridged i x q hipos hparent hpos hx hq
      exact hb.asymm (hb.less_of_less_of_not_less hbefore hxq)
    · exact hf.others i hi hparent x y hipos hx hy
  bridged := hf.bridged

/-- A hole that is in order with its parent has only its children to worry about. -/
theorem HeapExcept.downHeap (hf : HeapExcept before f h) (horder : OrderedAt before f h) :
    DownHeap before f h where
  others i hparent := by
    by_cases hi : i = h
    · exact hi ▸ horder
    · exact hf.others i hi hparent
  bridged := hf.bridged

/-- The root of a heap may be taken for a hole. -/
theorem IsHeap.heapExcept_zero (hf : IsHeap before f) : HeapExcept before f 0 where
  others i _ _ := hf i
  bridged _ _ _ _ _ hpos := absurd hpos (lt_irrefl 0)

/-! ## Upwards -/

/-- The hole was the only slot that could be out of order with its parent. -/
theorem UpHeap.isHeap (hf : UpHeap before f h) (horder : OrderedAt before f h) :
    IsHeap before f := by
  intro i
  by_cases hi : i = h
  · exact hi ▸ horder
  · exact hf.others i hi

/-- At the root there is nothing above the hole. -/
theorem UpHeap.isHeap_zero (hf : UpHeap before f 0) : IsHeap before f :=
  hf.isHeap fun _ _ hpos => absurd hpos (lt_irrefl 0)

/-- The entry goes up and its parent, which is not before it, comes down. -/
theorem UpHeap.move (hb : StrictWeak before) (hf : UpHeap before f h) {t q : α} (hpos : 0 < h)
    (hq : f (heapParent h) = some q) (hnot : before q t = false) :
    UpHeap before (Function.update (Function.update f h (some q)) (heapParent h) (some t))
      (heapParent h) := by
  have hlt := heapParent_lt hpos
  -- siblings and the parent itself are in order with what is above the parent
  have hsibling : ∀ c x, 0 < c → c ≠ h → heapParent c = heapParent h → f c = some x →
      before x q = false := by
    intro c x hc hne hparent hx
    exact hf.others c hne x q hc hx (hparent ▸ hq)
  constructor
  · intro i hi x y hipos hx hy
    rw [update_of_ne hi] at hx
    by_cases hih : i = h
    · subst hih
      rw [update_self] at hx hy
      cases hx
      cases hy
      exact hnot
    rw [update_of_ne hih] at hx
    by_cases hparent : heapParent i = heapParent h
    · rw [hparent, update_self] at hy
      cases hy
      exact hb.not_less_trans hnot (hsibling i x hipos hih hparent hx)
    rw [update_of_ne hparent] at hy
    by_cases hchild : heapParent i = h
    · rw [hchild, update_self] at hy
      cases hy
      exact hf.bridged i x q hipos hchild hpos hx hq
    · rw [update_of_ne hchild] at hy
      exact hf.others i hih x y hipos hx hy
  · intro c x y hc hparent hppos hx hy
    have hlt' := heapParent_lt hppos
    rw [update_of_ne (by omega), update_of_ne (by omega)] at hy
    have hqy := hf.others (heapParent h) (by omega) q y hppos hq hy
    have hclt := heapParent_lt hc
    rw [update_of_ne (by omega)] at hx
    by_cases hch : c = h
    · subst hch
      rw [update_self] at hx
      cases hx
      exact hqy
    · rw [update_of_ne hch] at hx
      exact hb.not_less_trans hqy (hsibling c x hc hch hparent hx)

/-! ## Downwards -/

/-- The children of the hole were the only slots that could be out of order. -/
theorem DownHeap.isHeap (hf : DownHeap before f h)
    (horder : ∀ c, 0 < c → heapParent c = h → OrderedAt before f c) : IsHeap before f := by
  intro i x y hpos hx hy
  by_cases hparent : heapParent i = h
  · exact horder i hpos hparent x y hpos hx hy
  · exact hf.others i hparent x y hpos hx hy

theorem DownHeap.heapExcept (hf : DownHeap before f h) : HeapExcept before f h :=
  ⟨fun i _ => hf.others i, hf.bridged⟩

/-- The first child comes up into the slot, and its own slot is the one that no order is known
of. -/
theorem HeapExcept.move (hf : HeapExcept before f h) {k : α} {c : Nat} (hc : 0 < c)
    (hparent : heapParent c = h) (hk : f c = some k)
    (hfirst : ∀ d x, 0 < d → heapParent d = h → f d = some x → before x k = false) :
    HeapExcept before (Function.update f h (some k)) c := by
  have hlt := heapParent_lt hc
  constructor
  · intro i hi hne x y hpos hx hy
    by_cases hih : i = h
    · subst hih
      rw [update_self] at hx
      rw [update_of_ne (heapParent_lt hpos).ne] at hy
      cases hx
      exact hf.bridged c k y hc hparent hpos hk hy
    rw [update_of_ne hih] at hx
    by_cases hchild : heapParent i = h
    · rw [hchild, update_self] at hy
      cases hy
      exact hfirst i x hpos hchild hx
    · rw [update_of_ne hchild] at hy
      exact hf.others i hih hchild x y hpos hx hy
  · intro d x y hd hdparent _ hx hy
    have hdlt := heapParent_lt hd
    rw [update_of_ne (by omega)] at hx
    rw [hparent, update_self] at hy
    cases hy
    -- the children of the moved one were below it before
    exact hf.others d (by omega) (by omega) x k hd hx (hdparent ▸ hk)

end Order

/-! ## Search from the root -/

section Search

variable {p : Nat → Bool} {visited queue : List Nat} {i : Nat}

variable (p visited queue) in
/-- A search from the root for the slots with the property `p`. Those are known whose parent has
been visited, and each of them has been visited or waits in the queue. -/
structure Search : Prop where
  nodup : (visited ++ queue).Nodup
  mem_iff : ∀ i, i ∈ visited ++ queue ↔ p i = true ∧ (i = 0 ∨ heapParent i ∈ visited)

/-- The search starts at the root. -/
theorem search_root (hp : p 0 = true) : Search p [] [0] where
  nodup := nodup_singleton 0
  mem_iff i := by
    rw [nil_append, mem_singleton]
    constructor
    · rintro rfl
      exact ⟨hp, .inl rfl⟩
    · rintro ⟨-, rfl | hnil⟩
      · rfl
      · cases hnil

/-- The children of a slot are the slots that have it as their parent. -/
theorem mem_children_iff {c : Nat} :
    c ∈ [2 * i + 1, 2 * i + 2].filter p ↔ p c = true ∧ 0 < c ∧ heapParent c = i := by
  rw [mem_filter, mem_cons, mem_singleton, and_comm]
  refine and_congr_right fun _ => ⟨fun hc => ?_, fun hc => (heapParent_eq_iff hc.1).mp hc.2⟩
  have hpos : 0 < c := by omega
  exact ⟨hpos, (heapParent_eq_iff hpos).mpr hc⟩

/-- The next slot is visited, and its children join the queue. -/
theorem Search.visit (h : Search p visited (i :: queue)) :
    Search p (visited ++ [i]) (queue ++ [2 * i + 1, 2 * i + 2].filter p) := by
  have hassoc : visited ++ [i] ++ (queue ++ [2 * i + 1, 2 * i + 2].filter p) =
      (visited ++ i :: queue) ++ [2 * i + 1, 2 * i + 2].filter p := by simp
  constructor
  · have hchildren : ([2 * i + 1, 2 * i + 2] : List Nat).Nodup := by simp
    rw [hassoc, nodup_append]
    refine ⟨h.nodup, hchildren.filter _, fun a ha c hc hac => ?_⟩
    subst hac
    obtain ⟨-, hpos, hparent⟩ := mem_children_iff.mp hc
    -- a child that is known already would have a parent that is visited twice
    obtain hzero | hvisited := ((h.mem_iff a).mp ha).2
    · omega
    · rw [hparent] at hvisited
      exact (nodup_append.mp h.nodup).2.2 i hvisited i mem_cons_self rfl
  · intro c
    rw [hassoc, mem_append, h.mem_iff, mem_children_iff, mem_append, mem_singleton]
    constructor
    · rintro (⟨hp, hzero | hvisited⟩ | ⟨hp, -, hparent⟩)
      · exact ⟨hp, .inl hzero⟩
      · exact ⟨hp, .inr (.inl hvisited)⟩
      · exact ⟨hp, .inr (.inr hparent)⟩
    · rintro ⟨hp, hzero | hvisited | hparent⟩
      · exact .inl ⟨hp, .inl hzero⟩
      · exact .inl ⟨hp, .inr hvisited⟩
      · by_cases hzero : c = 0
        · exact .inl ⟨hp, .inl hzero⟩
        · exact .inr ⟨hp, Nat.pos_of_ne_zero hzero, hparent⟩

/-- There is an end to the search. -/
theorem Search.length_lt (h : Search p visited (i :: queue)) {n : Nat}
    (hn : ∀ j, p j = true → j < n) : visited.length < n := by
  have hsub : visited ++ i :: queue ⊆ range n := by
    intro j hj
    exact mem_range.mpr (hn j ((h.mem_iff j).mp hj).1)
  have hle := (subperm_of_subset h.nodup hsub).length_le
  rw [length_append, length_cons, length_range] at hle
  omega

/-- At the end, every slot with the property has been visited, if their parents have it as well. -/
theorem Search.mem_visited_iff (h : Search p visited [])
    (hup : ∀ j, p j = true → p (heapParent j) = true) : i ∈ visited ↔ p i = true := by
  have hmem : ∀ j, j ∈ visited ↔ p j = true ∧ (j = 0 ∨ heapParent j ∈ visited) := by
    intro j
    rw [← h.mem_iff, append_nil]
  refine ⟨fun hi => ((hmem i).mp hi).1, fun hi => ?_⟩
  induction i using Nat.strongRecOn with
  | ind i ih =>
    by_cases hzero : i = 0
    · exact (hmem i).mpr ⟨hi, .inl hzero⟩
    · exact (hmem i).mpr ⟨hi, .inr (ih _ (heapParent_lt (Nat.pos_of_ne_zero hzero)) (hup i hi))⟩

end Search

/-! ## Arrays of elements -/

section Arrays

variable {π κ ρ : Type*} (key : π → κ)

/-- The keys of the elements, slot by slot. -/
def slotKeys (l : List π) (i : Nat) : Option κ :=
  l[i]?.map key

variable {l : List π}

/-- Another element in a slot changes the key of that slot. -/
theorem slotKeys_set {h : Nat} (hh : h < l.length) (t : π) :
    slotKeys key (l.set h t) = Function.update (slotKeys key l) h (some (key t)) := by
  funext i
  by_cases hi : i = h
  · subst hi
    rw [update_self, slotKeys, getElem?_set_self hh, map_some]
  · rw [update_of_ne hi, slotKeys, slotKeys, getElem?_set_ne (Ne.symm hi)]

/-- The keys after the element `t` of the slot `h` has changed places with the one of the slot
`p`. -/
theorem slotKeys_move {h p : Nat} (hh : h < l.length) (hp : p < l.length) (t q : π) :
    slotKeys key ((l.set h q).set p t) =
      Function.update (Function.update (slotKeys key (l.set h t)) h (some (key q))) p
        (some (key t)) := by
  rw [slotKeys_set key (by rwa [length_set]), slotKeys_set key hh, slotKeys_set key hh, update_idem]

variable {key} {x : π}

theorem slotKeys_eq_some (hx : l[i]? = some x) : slotKeys key l i = some (key x) := by
  rw [slotKeys, hx, map_some]

variable {before : κ → κ → Bool}

/-- The heap condition in terms of the elements of the array. -/
theorem isHeap_slotKeys_iff : IsHeap before (slotKeys key l) ↔
    ∀ i x y, 0 < i → l[i]? = some x → l[heapParent i]? = some y → before (key x)
      (key y) = false := by
  refine ⟨fun h i x y hi hx hy => h i _ _ hi (slotKeys_eq_some hx) (slotKeys_eq_some hy),
    fun h i x y hi hx hy => ?_⟩
  obtain ⟨a, ha, rfl⟩ := map_eq_some_iff.mp hx
  obtain ⟨b, hb, rfl⟩ := map_eq_some_iff.mp hy
  exact h i a b hi ha hb

/-- A comparison of two elements says that their slots are in order. -/
theorem orderedAt_of_slots {y : π} (hx : l[i]? = some x) (hy : l[heapParent i]? = some y)
    (hnot : before (key x) (key y) = false) : OrderedAt before (slotKeys key l) i := by
  intro a b _ ha hb
  rw [slotKeys_eq_some hx] at ha
  rw [slotKeys_eq_some hy] at hb
  cases ha
  cases hb
  exact hnot

/-- No element is before the first one. -/
theorem IsHeap.not_before_head (hb : StrictWeak before) {t : π}
    (hf : IsHeap before (slotKeys key (t :: l))) (hx : x ∈ t :: l) : before (key x)
      (key t) = false := by
  obtain ⟨i, hi, rfl⟩ := mem_iff_getElem.mp hx
  refine hf.not_before_root hb (fun j hj => ?_) rfl i (slotKeys_eq_some (getElem?_eq_getElem hi))
  have hle : heapParent j ≤ j := by
    rw [heapParent]
    omega
  rw [slotKeys, isSome_map, isSome_iff_ne_none, Ne, getElem?_eq_none_iff, not_le] at hj ⊢
  exact lt_of_le_of_lt hle hj

/-- The last element in the place of another one. -/
theorem perm_cons_set (hx : l[i]? = some x) (last : π) :
    (l ++ [last]).Perm (x :: l.set i last) := by
  obtain ⟨hlt, rfl⟩ := List.getElem?_eq_some_iff.mp hx
  calc (l ++ [last]).Perm (last :: l) := perm_append_singleton last l
    (last :: l).Perm (last :: l[i] :: l.eraseIdx i) :=
      (getElem_cons_eraseIdx_perm hlt).symm.cons last
    (last :: l[i] :: l.eraseIdx i).Perm (l[i] :: last :: l.eraseIdx i) := .swap _ _ _
    (l[i] :: last :: l.eraseIdx i).Perm (l[i] :: l.set i last) :=
      (set_perm_cons_eraseIdx hlt last).symm.cons _

/-- Different slots of an array without repetitions have different elements. -/
theorem ne_of_slot (hnodup : l.Nodup) {i j : Nat} {y : π} (hx : l[i]? = some x)
    (hy : l[j]? = some y) (hne : j ≠ i) : y ≠ x := by
  intro heq
  subst heq
  exact hne ((getElem?_inj (List.getElem?_eq_some_iff.mp hy).1 hnodup).mp (hy.trans hx.symm))

/-- A new last element may be before its parent. -/
theorem IsHeap.append (hf : IsHeap before (slotKeys key l)) (t : π) :
    UpHeap before (slotKeys key (l ++ [t])) l.length := by
  have hkeep : ∀ i x, i ≠ l.length → slotKeys key (l ++ [t]) i = some x →
      slotKeys key l i = some x := by
    intro i x hi hx
    obtain ⟨y, hy, rfl⟩ := map_eq_some_iff.mp hx
    obtain ⟨hlt, -⟩ := List.getElem?_eq_some_iff.mp hy
    rw [length_append, length_singleton] at hlt
    rw [getElem?_append_left (by omega)] at hy
    exact slotKeys_eq_some hy
  have hlast : ∀ i, l.length < i → slotKeys key (l ++ [t]) i = none := by
    intro i hi
    rw [slotKeys, getElem?_eq_none (by rw [length_append, length_singleton]; omega)]
    rfl
  constructor
  · intro i hi x y hpos hx hy
    have hlt := heapParent_lt hpos
    by_cases hbehind : l.length < i
    · rw [hlast i hbehind] at hx
      cases hx
    · exact hf i x y hpos (hkeep i x hi hx) (hkeep _ y (by omega) hy)
  · intro c x y hc hparent _ hx
    have hlt := heapParent_lt hc
    rw [hlast c (by omega)] at hx
    cases hx

theorem slotKeys_append {y : κ} (hy : slotKeys key l i = some y) (t : π) :
    slotKeys key (l ++ [t]) i = some y := by
  obtain ⟨e, he, rfl⟩ := map_eq_some_iff.mp hy
  exact slotKeys_eq_some (by rw [getElem?_append_left (List.getElem?_eq_some_iff.mp he).1, he])

/-- A heap without its last element is a heap. -/
theorem IsHeap.dropLast {t : π} (hf : IsHeap before (slotKeys key (l ++ [t]))) :
    IsHeap before (slotKeys key l) :=
  hf.mono fun _ _ hx => slotKeys_append hx t

/-! ## Moves in an array

The element `t` is on its way and belongs into the slot `h`. -/

section Moves

variable {before : κ → κ → Bool} {l : List π} {h : Nat} {t q : π}

/-- The element fits below its parent. -/
theorem UpHeap.arrived (hf : UpHeap before (slotKeys key (l.set h t)) h) (hh : h < l.length)
    (hpos : 0 < h) (hq : l[heapParent h]? = some q) (hnot : before (key t) (key q) = false) :
    IsHeap before (slotKeys key (l.set h t)) := by
  refine hf.isHeap (orderedAt_of_slots (getElem?_set_self hh) ?_ hnot)
  rw [getElem?_set_ne (heapParent_lt hpos).ne', hq]

/-- The parent comes down into the slot. -/
theorem UpHeap.exchange (hb : StrictWeak before) (hf : UpHeap before (slotKeys key (l.set h t)) h)
    (hh : h < l.length) (hpos : 0 < h) (hq : l[heapParent h]? = some q)
    (hnot : before (key q) (key t) = false) :
    UpHeap before (slotKeys key ((l.set h q).set (heapParent h) t)) (heapParent h) := by
  have hlt := heapParent_lt hpos
  have hqset : (l.set h t)[heapParent h]? = some q := by rw [getElem?_set_ne hlt.ne', hq]
  rw [slotKeys_move key hh (hlt.trans hh)]
  exact hf.move hb hpos (slotKeys_eq_some hqset) hnot

variable (key before l h) in
/-- `k` is in the child `c` of the slot `h`, and no child is before it. -/
structure FirstChild (c : Nat) (k : π) : Prop where
  child : c = 2 * h + 1 ∨ c = 2 * h + 2
  elem : l[c]? = some k
  first : ∀ d x, d = 2 * h + 1 ∨ d = 2 * h + 2 → l[d]? = some x → before (key x) (key k) = false

/-- The second child is the first in order if it is before the other one. -/
theorem firstChild_right (hb : StrictWeak before) {left right : π}
    (hleft : l[2 * h + 1]? = some left)
    (hright : l[2 * h + 2]? = some right) (hbefore : before (key right) (key left) = true) :
    FirstChild key before l h (2 * h + 2) right := by
  refine ⟨.inr rfl, hright, fun d x hd hx => ?_⟩
  obtain rfl | rfl := hd
  · cases hleft.symm.trans hx
    exact hb.asymm hbefore
  · cases hright.symm.trans hx
    exact hb.irrefl _

/-- The first child is so if no second one is before it. -/
theorem firstChild_left (hb : StrictWeak before) {left : π} (hleft : l[2 * h + 1]? = some left)
    (hnot : ∀ right, l[2 * h + 2]? = some right → before (key right) (key left) = false) :
    FirstChild key before l h (2 * h + 1) left := by
  refine ⟨.inl rfl, hleft, fun d x hd hx => ?_⟩
  obtain rfl | rfl := hd
  · cases hleft.symm.trans hx
    exact hb.irrefl _
  · exact hnot x hx

/-- The key of a child, which is in another slot than the one that is written. -/
theorem slotKeys_set_child {d : Nat} {x : κ} (hd : 0 < d) (hparent : heapParent d = h)
    (hx : slotKeys key (l.set h t) d = some x) :
    ∃ e, l[d]? = some e ∧ key e = x ∧ (d = 2 * h + 1 ∨ d = 2 * h + 2) := by
  have hlt := heapParent_lt hd
  obtain ⟨e, he, hex⟩ := map_eq_some_iff.mp hx
  rw [getElem?_set_ne (by omega)] at he
  exact ⟨e, he, hex, (heapParent_eq_iff hd).mp hparent⟩

namespace FirstChild

variable {c : Nat} {k : π} (hc : FirstChild key before l h c k)
include hc

theorem pos : 0 < c := by
  have := hc.child
  omega

/-- A child comes after its parent. -/
theorem parent_lt : h < c := by
  have := hc.child
  omega

/-- The child that was chosen is a child of the hole. -/
theorem parent : heapParent c = h :=
  (heapParent_eq_iff hc.pos).mpr hc.child

theorem lt : c < l.length :=
  (List.getElem?_eq_some_iff.mp hc.elem).1

/-- No child of the hole comes before the one that was chosen. -/
theorem not_before {d : Nat} {x : κ} (hd : 0 < d) (hparent : heapParent d = h)
    (hx : slotKeys key (l.set h t) d = some x) : before x (key k) = false := by
  obtain ⟨e, he, rfl, hchild⟩ := slotKeys_set_child hd hparent hx
  exact hc.first d e hchild he

end FirstChild

section

variable (hf : DownHeap before (slotKeys key (l.set h t)) h)
include hf

/-- The element fits into a slot without children. -/
theorem DownHeap.arrived_leaf (hend : l.length ≤ 2 * h + 1) :
    IsHeap before (slotKeys key (l.set h t)) := by
  refine hf.isHeap fun d hd hparent x y _ hx _ => ?_
  obtain ⟨e, he, -, hchild⟩ := slotKeys_set_child hd hparent hx
  have hlt := (List.getElem?_eq_some_iff.mp he).1
  omega

/-- The element fits above its first child. -/
theorem DownHeap.arrived (hb : StrictWeak before)
    (hh : h < l.length) {c : Nat} {k : π} (hc : FirstChild key before l h c k)
    (hnot : before (key k) (key t) = false) : IsHeap before (slotKeys key (l.set h t)) := by
  refine hf.isHeap fun d hd hparent x y _ hx hy => ?_
  rw [hparent, slotKeys_eq_some (getElem?_set_self hh)] at hy
  cases hy
  exact hb.not_less_trans hnot (hc.not_before hd hparent hx)

/-- The first child comes up into the slot. -/
theorem DownHeap.exchange (hh : h < l.length) {c : Nat}
    {k : π} (hc : FirstChild key before l h c k) (hnot : before (key t) (key k) = false) :
    DownHeap before (slotKeys key ((l.set h k).set c t)) c := by
  have hkset : (l.set h t)[c]? = some k := by rw [getElem?_set_ne hc.parent_lt.ne, hc.elem]
  rw [slotKeys_move key hh hc.lt]
  have hmoved := hf.heapExcept.move hc.pos hc.parent (slotKeys_eq_some hkset)
    fun _ _ => hc.not_before
  refine (hmoved.update _).downHeap fun x y _ hx hy => ?_
  rw [update_self] at hx
  rw [hc.parent, update_of_ne hc.parent_lt.ne, update_self] at hy
  cases hx
  cases hy
  exact hnot

end

/-- The hole goes down when its first child moves up. -/
theorem HeapExcept.exchange (hf : HeapExcept before (slotKeys key l) h) (hh : h < l.length)
    {c : Nat} {k : π}
    (hc : FirstChild key before l h c k) : HeapExcept before (slotKeys key (l.set h k)) c := by
  rw [slotKeys_set key hh]
  refine hf.move hc.pos hc.parent (slotKeys_eq_some hc.elem) fun d x hd hparent hx => ?_
  obtain ⟨e, he, rfl⟩ := map_eq_some_iff.mp hx
  exact hc.first d e ((heapParent_eq_iff hd).mp hparent) he

/-- Without the last slot, around which no order is known, the rest is a heap. -/
theorem HeapExcept.dropLast (hf : HeapExcept before (slotKeys key (l ++ [x])) l.length) :
    IsHeap before (slotKeys key l) := by
  intro i a b hpos ha hb
  obtain ⟨e, he, -⟩ := map_eq_some_iff.mp ha
  have hi := (List.getElem?_eq_some_iff.mp he).1
  have hlt := heapParent_lt hpos
  exact hf.others i hi.ne (hlt.trans hi).ne a b hpos (slotKeys_append ha x) (slotKeys_append hb x)

/-- The last slot goes, and any element may be put into a slot without children. -/
theorem HeapExcept.upHeap_leaf (hf : HeapExcept before (slotKeys key (l ++ [x])) h)
    (hleaf : l.length ≤ 2 * h + 1) (t : π) : UpHeap before (slotKeys key (l.set h t)) h := by
  have hchild : ∀ c y, 0 < c → heapParent c = h → slotKeys key (l.set h t) c ≠ some y := by
    intro c y hc hparent hy
    obtain ⟨e, he, -, hchild⟩ := slotKeys_set_child hc hparent hy
    have hlt := (List.getElem?_eq_some_iff.mp he).1
    omega
  have hkeep : ∀ i y, i ≠ h → slotKeys key (l.set h t) i = some y →
      slotKeys key (l ++ [x]) i = some y := by
    intro i y hi hy
    rw [slotKeys, getElem?_set_ne (Ne.symm hi)] at hy
    exact slotKeys_append hy x
  constructor
  · intro i hi a b hpos ha hb
    by_cases hparent : heapParent i = h
    · exact absurd ha (hchild i a hpos hparent)
    · exact hf.others i hi hparent a b hpos (hkeep i a hi ha) (hkeep _ b hparent hb)
  · intro c a b hc hparent _ ha
    exact absurd ha (hchild c a hc hparent)

end Moves

variable (index : Nat → ρ)

/-- Every element stores its slot. -/
def Indexed (l : List π) (position : π → ρ) : Prop :=
  ∀ i x, l[i]? = some x → position x = index i

/-- The slot `h` is free for the element `t`, and all other elements store their slots. -/
structure Hole (l : List π) (position : π → ρ) (h : Nat) (t : π) : Prop where
  lt : h < l.length
  nodup : (l.set h t).Nodup
  indexed : ∀ i x, i ≠ h → l[i]? = some x → position x = index i

variable {index} {l : List π} {position : π → ρ} {h p : Nat} {t q : π}

/-- Moving an element into the hole and back keeps the content. -/
theorem Hole.perm (hl : Hole index l position h t) (hne : p ≠ h) (hq : l[p]? = some q) :
    ((l.set h q).set p t).Perm (l.set h t) := by
  obtain ⟨hp, hget⟩ := List.getElem?_eq_some_iff.mp hq
  have hh : h < (l.set h t).length := by
    rw [length_set]
    exact hl.lt
  have hp' : p < (l.set h t).length := by rwa [length_set]
  have hswap := set_set_perm hh hp'
  rwa [getElem_set_self, getElem_set_ne hne.symm, hget, set_set] at hswap

section

variable [DecidableEq π]

/-- The element of another slot moves into the free one. -/
theorem Hole.move (hl : Hole index l position h t) (hne : p ≠ h) (hq : l[p]? = some q) :
    Hole index (l.set h q) (Function.update position q (index h)) p t where
  lt := by
    rw [length_set]
    exact (List.getElem?_eq_some_iff.mp hq).1
  nodup := (hl.perm hne hq).nodup_iff.mpr hl.nodup
  indexed i x hi hx := by
    by_cases hih : i = h
    · subst hih
      rw [getElem?_set_self hl.lt] at hx
      cases hx
      exact update_self _ _ _
    rw [getElem?_set_ne (Ne.symm hih)] at hx
    -- the element is another one than the one that has moved
    have hxq : x ≠ q := by
      have hqset : (l.set h t)[p]? = some q := by rw [getElem?_set_ne hne.symm, hq]
      have hxset : (l.set h t)[i]? = some x := by rw [getElem?_set_ne (Ne.symm hih), hx]
      exact ne_of_slot hl.nodup hqset hxset hi
    rw [update_of_ne hxq]
    exact hl.indexed i x hih hx

/-- The element goes into the free slot. -/
theorem Hole.fill (hl : Hole index l position h t) :
    Indexed index (l.set h t) (Function.update position t (index h)) := by
  intro i x hx
  by_cases hih : i = h
  · subst hih
    rw [getElem?_set_self hl.lt] at hx
    cases hx
    exact update_self _ _ _
  · have hxt : x ≠ t := ne_of_slot hl.nodup (getElem?_set_self hl.lt) hx hih
    rw [getElem?_set_ne (Ne.symm hih)] at hx
    rw [update_of_ne hxt]
    exact hl.indexed i x hih hx

/-! ## Keys that change -/

/-- Another key for an element changes the key of its only slot. -/
theorem slotKeys_update {key : π → κ} (hnodup : l.Nodup) (ht : l[h]? = some t) (k : κ) :
    slotKeys (Function.update key t k) l = Function.update (slotKeys key l) h (some k) := by
  funext j
  by_cases hj : j = h
  · subst hj
    rw [update_self, slotKeys_eq_some ht, update_self]
  · rw [update_of_ne hj, slotKeys, slotKeys]
    cases hx : l[j]? with
    | none => rfl
    | some x =>
      rw [map_some, map_some, update_of_ne (ne_of_slot hnodup ht hx hj)]

/-- Another key for an element that is not in the heap changes nothing. -/
theorem slotKeys_update_of_notMem {key : π → κ} (ht : t ∉ l) (k : κ) :
    slotKeys (Function.update key t k) l = slotKeys key l := by
  funext j
  rw [slotKeys, slotKeys]
  cases hx : l[j]? with
  | none => rfl
  | some x =>
    have hxt : x ≠ t := ne_of_mem_of_not_mem (mem_of_getElem? hx) ht
    rw [map_some, map_some, update_of_ne hxt]

end

/-! ## Slots that become free -/

theorem set_eq_of_getElem? (ht : l[h]? = some t) : l.set h t = l := by
  obtain ⟨hlt, hget⟩ := List.getElem?_eq_some_iff.mp ht
  rw [← hget, set_getElem_self]

variable {stored : π → ρ}

/-- The slot of an element is free for it. -/
theorem Indexed.hole (hl : Indexed index l position) (hnodup : l.Nodup) (ht : l[h]? = some t) :
    Hole index l position h t where
  lt := (List.getElem?_eq_some_iff.mp ht).1
  nodup := (set_eq_of_getElem? ht).symm ▸ hnodup
  indexed i x _ hx := hl i x hx

/-- The slot behind the end is free for a new element, whatever that one stores. -/
theorem Indexed.hole_append (hl : Indexed index l position) (hnodup : l.Nodup) (ht : t ∉ l)
    (hstored : ∀ x, x ≠ t → stored x = position x) : Hole index (l ++ [t]) stored l.length t where
  lt := by
    rw [length_append]
    exact Nat.lt_succ_self _
  nodup := by
    rw [set_eq_of_getElem? getElem?_concat_length, nodup_append]
    refine ⟨hnodup, nodup_singleton t, fun a ha b hb hab => ht ?_⟩
    rwa [hab, mem_singleton.mp hb] at ha
  indexed i x hi hx := by
    have hlt := (List.getElem?_eq_some_iff.mp hx).1
    rw [length_append, length_singleton] at hlt
    rw [getElem?_append_left (by omega)] at hx
    rw [hstored x (ne_of_mem_of_not_mem (mem_of_getElem? hx) ht)]
    exact hl i x hx

/-- The slot of an element that goes is free for the last one. -/
theorem Indexed.hole_last {last : π} (hl : Indexed index (l ++ [last]) position)
    (hnodup : (l ++ [last]).Nodup) (ht : l[h]? = some t)
    (hstored : ∀ x, x ≠ t → stored x = position x) : Hole index l stored h last where
  lt := (List.getElem?_eq_some_iff.mp ht).1
  nodup := (nodup_cons.mp ((perm_cons_set ht last).nodup_iff.mp hnodup)).2
  indexed i x hi hx := by
    have hlt := (List.getElem?_eq_some_iff.mp hx).1
    rw [hstored x (ne_of_slot (nodup_append.mp hnodup).1 ht hx hi)]
    exact hl i x (by rw [getElem?_append_left hlt, hx])

/-- The last slot is the one of an element, or the element is in front of it. -/
theorem exists_last_slot (ht : l[h]? = some t) : ∃ init last, l = init ++ [last] ∧
    (h = init.length ∧ last = t ∨ h < init.length ∧ init[h]? = some t) := by
  obtain ⟨init, last, rfl⟩ : ∃ init last, l = init ++ [last] :=
    ⟨_, _, (dropLast_append_getLast (ne_nil_of_mem (mem_of_getElem? ht))).symm⟩
  refine ⟨init, last, rfl, ?_⟩
  have hlt := (List.getElem?_eq_some_iff.mp ht).1
  rw [length_append, length_singleton, Nat.lt_succ_iff_lt_or_eq] at hlt
  obtain hlt | rfl := hlt
  · exact .inr ⟨hlt, by rwa [getElem?_append_left hlt] at ht⟩
  · exact .inl ⟨rfl, by simpa using ht⟩

/-! ## Sets of elements -/

variable (index) in
/-- The elements of a set in heap order, each of which stores its slot. -/
structure HeapOf (before : κ → κ → Bool) (key : π → κ) (l : List π) (position : π → ρ)
    (members : Finset π) : Prop where
  content : (l : Multiset π) = members.val
  isHeap : IsHeap before (slotKeys key l)
  indexed : Indexed index l position

namespace HeapOf

variable {before : κ → κ → Bool} {key : π → κ} {members : Finset π}
  (hl : HeapOf index before key l position members)
include hl

theorem nodup : l.Nodup := by
  rw [← Multiset.coe_nodup, hl.content]
  exact members.nodup

/-- The elements of the array are the members. -/
theorem mem_iff {x : π} : x ∈ l ↔ x ∈ members := by
  rw [← Multiset.mem_coe, hl.content, Finset.mem_val]

/-- Every member has a slot. -/
theorem exists_slot (ht : t ∈ members) : ∃ i : Nat, l[i]? = some t :=
  mem_iff_getElem?.mp (hl.mem_iff.mpr ht)

/-- The first slot has a member that no other one comes before. -/
theorem exists_first (hb : StrictWeak before) (hsome : members.Nonempty) :
    ∃ t, l[0]? = some t ∧ t ∈ members ∧ ∀ x ∈ members, before (key x) (key t) = false := by
  obtain ⟨x, hx⟩ := hsome
  cases l with
  | nil => cases hl.mem_iff.mpr hx
  | cons t rest =>
    exact ⟨t, rfl, hl.mem_iff.mp mem_cons_self,
      fun y hy => hl.isHeap.not_before_head hb (hl.mem_iff.mpr hy)⟩

variable [DecidableEq π]

/-- One more element at the end is one more member. -/
theorem insert_content (ht : t ∉ members) :
    ((l ++ [t] : List π) : Multiset π) = (insert t members).val := by
  rw [← Multiset.coe_add, Multiset.coe_singleton, hl.content, Finset.insert_val_of_notMem ht,
    Multiset.add_comm, Multiset.singleton_add]

/-- An element that is taken away is a member less. -/
theorem erase_content {rest : List π} (hperm : l.Perm (t :: rest)) :
    (rest : Multiset π) = (members.erase t).val := by
  rw [Finset.erase_val, ← hl.content, Multiset.coe_eq_coe.mpr hperm, ← Multiset.cons_coe,
    Multiset.erase_cons_head]

/-- The element of the last slot goes. -/
theorem dropLast {init : List π} (hinit : l = init ++ [t])
    (hstored : ∀ x, x ≠ t → stored x = position x) :
      HeapOf index before key init stored (members.erase t) := by
  subst hinit
  refine ⟨hl.erase_content (perm_append_singleton t init), hl.isHeap.dropLast, fun i x hx => ?_⟩
  have hlt := (List.getElem?_eq_some_iff.mp hx).1
  have hx' : (init ++ [t])[i]? = some x := by rw [getElem?_append_left hlt, hx]
  rw [hstored x (ne_of_slot hl.nodup getElem?_concat_length hx' hlt.ne)]
  exact hl.indexed i x hx'

end HeapOf

end Arrays

end

/-! ## The heap algorithms of the standard library -/

variable {α : Type*}

/-- No element is greater than its parent, so that the first element is a greatest one. -/
def HeapOrdered (less : α → α → Bool) (l : List α) : Prop :=
  IsHeap (fun a b => less b a) (slotKeys id l)

variable (α) in
/-- `std::make_heap`. -/
structure MakeHeap where
  makeHeap : (α → α → Bool) → List α → List α
  perm : ∀ less l, (makeHeap less l).Perm l
  heapOrdered : ∀ less l, StrictWeak less → HeapOrdered less (makeHeap less l)

/-- A list in descending order is a heap. -/
theorem HeapOrdered.of_sorted {less : α → α → Bool} {l : List α}
    (hl : Sorted (fun a b => less b a) l) : HeapOrdered less l := by
  refine isHeap_slotKeys_iff.mpr fun i x y hi hx hy => ?_
  obtain ⟨hlt, rfl⟩ := List.getElem?_eq_some_iff.mp hx
  obtain ⟨hplt, rfl⟩ := List.getElem?_eq_some_iff.mp hy
  exact List.pairwise_iff_getElem.mp hl _ _ hplt hlt (heapParent_lt hi)

/-- A list in decreasing order is a heap. -/
def MakeHeap.bySorting : MakeHeap α where
  makeHeap less l := l.mergeSort fun a b => !less a b
  perm _ l := List.mergeSort_perm l _
  heapOrdered _ l h := .of_sorted (isStableSort_mergeSort h.opposite l).sorted

variable (α) in
/-- `std::make_heap`, `std::pop_heap` and `std::push_heap`. -/
structure HeapAlgorithms extends MakeHeap α where
  popHeap : (α → α → Bool) → List α → List α
  pushHeap : (α → α → Bool) → List α → List α
  popHeap_eq : ∀ less first rest, StrictWeak less → HeapOrdered less (first :: rest) →
    ∃ heap, popHeap less (first :: rest) = heap ++ [first] ∧ heap.Perm rest ∧ HeapOrdered less heap
  pushHeap_perm : ∀ less heap last, StrictWeak less → HeapOrdered less heap →
    (pushHeap less (heap ++ [last])).Perm (heap ++ [last])
  pushHeap_ordered : ∀ less heap last, StrictWeak less → HeapOrdered less heap →
    HeapOrdered less (pushHeap less (heap ++ [last]))

/-- The rest is sorted again by every operation. -/
def HeapAlgorithms.bySorting : HeapAlgorithms α where
  toMakeHeap := .bySorting
  popHeap less l := MakeHeap.bySorting.makeHeap less l.tail ++ l.head?.toList
  pushHeap := MakeHeap.bySorting.makeHeap
  popHeap_eq less _ rest h _ :=
    ⟨_, rfl, MakeHeap.bySorting.perm less rest, MakeHeap.bySorting.heapOrdered less rest h⟩
  pushHeap_perm less _ _ _ _ := MakeHeap.bySorting.perm less _
  pushHeap_ordered less _ _ h _ := MakeHeap.bySorting.heapOrdered less _ h

end Gloop.Foundation
