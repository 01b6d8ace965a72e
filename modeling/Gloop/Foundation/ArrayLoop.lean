import Mathlib.Data.List.Basic

/-!
# Arrays and loops over them

An array is a list of fixed length that is read with `getElem?` and written with `assign`. Where all
its elements are known it is `tabulate n f`, and assigning to it updates `f`. `foldlM_invariant` is
the rule for a loop over a list that may fail. `ringIndex n start i` is the position `i` places
after `start` in an array that is used as a ring.
-/

namespace Gloop.Foundation

section

open List Option Function
variable {α σ : Type}

/-- Assign to an element of an array. -/
def assign (array : List α) (i : Nat) (x : α) : Option (List α) :=
  if i < array.length then some (array.set i x) else none

/-- The array with the given elements. -/
def tabulate (n : Nat) (f : Nat → α) : List α :=
  (List.range n).map f

@[simp] theorem length_tabulate (n : Nat) (f : Nat → α) : (tabulate n f).length = n := by
  rw [tabulate, length_map, length_range]

/-- An element of a tabulated array. -/
theorem getElem?_tabulate {n i : Nat} (h : i < n) (f : Nat → α) :
    (tabulate n f)[i]? = some (f i) := by
  rw [tabulate, getElem?_map, getElem?_range h, map_some]

variable {n : Nat} {β : Type} {assignments : List (Nat × α)} {f : Nat → α} {i : Nat}
  {array : List α} {first last : Nat}

/-- A tabulated array depends on the values at its indexes. -/
theorem tabulate_congr {g : Nat → α} (h : ∀ i < n, f i = g i) : tabulate n f = tabulate n g :=
  map_congr_left fun i hi => h i (mem_range.mp hi)

theorem replicate_eq_tabulate (n : Nat) (x : α) : replicate n x = tabulate n fun _ => x := by
  rw [tabulate, map_const', length_range]

theorem getElem_tabulate (f : Nat → α) (n : Nat) (hi : i < (tabulate n f).length) :
    (tabulate n f)[i] = f i := by
  simp [tabulate]

/-- Changing each element by itself changes the function. -/
theorem mapIdx_tabulate (f : Nat → α) (n : Nat) (g : Nat → α → α) :
    (tabulate n f).mapIdx g = tabulate n fun i => g i (f i) := by
  refine ext_getElem (by simp) fun j hj hj' => ?_
  rw [getElem_mapIdx, getElem_tabulate, getElem_tabulate]

/-- A change of one element, as a change of all. -/
theorem modify_eq_mapIdx (array : List α) (i : Nat) (f : α → α) :
    array.modify i f = array.mapIdx fun j x => if j = i then f x else x := by
  refine ext_getElem (by simp) fun j hj hj' => ?_
  rw [getElem_modify, getElem_mapIdx]
  simp only [eq_comm]

/-- An assignment to one element, as a change of all. -/
theorem set_eq_mapIdx (array : List α) (i : Nat) (x : α) :
    array.set i x = array.mapIdx fun j y => if j = i then x else y := by
  rw [set_eq_modify, modify_eq_mapIdx]

/-- Every list is an array of its elements. -/
theorem eq_tabulate (l : List α) (x : α) : l = tabulate l.length fun i => l[i]?.getD x := by
  refine ext_getElem (by simp) fun i hi _ => ?_
  rw [getElem_tabulate, getElem?_eq_getElem hi, getD_some]

/-- An assignment updates the function. -/
theorem assign_tabulate (h : i < n) (f : Nat → α) (x : α) :
    assign (tabulate n f) i x = some (tabulate n (Function.update f i x)) := by
  rw [assign, length_tabulate, if_pos h, set_eq_mapIdx, mapIdx_tabulate]
  exact congrArg some (tabulate_congr fun j _ => (update_apply f i x j).symm)

/-- What each round of a loop keeps holds at its end, and the loop does not fail. -/
theorem foldlM_invariant {step : σ → α → Option σ} {l : List α} {init : σ} (Inv : Nat → σ → Prop)
    (hinit : Inv 0 init)
    (hstep : ∀ k x state, l[k]? = some x → Inv k state →
      ∃ state', step state x = some state' ∧ Inv (k + 1) state') :
    ∃ final, l.foldlM step init = some final ∧ Inv l.length final := by
  induction l generalizing init Inv with
  | nil => exact ⟨init, rfl, hinit⟩
  | cons x l ih =>
    obtain ⟨next, hnext, hinv⟩ := hstep 0 x init rfl hinit
    obtain ⟨final, hfinal, hend⟩ := ih (fun k => Inv (k + 1)) hinv
      fun k y state hk => hstep (k + 1) y state hk
    exact ⟨final, by rw [foldlM_cons, hnext]; exact hfinal, hend⟩

/-- The same for a loop that counts. -/
theorem foldlM_range_invariant {step : σ → Nat → Option σ} {init : σ} (Inv : Nat → σ → Prop)
    (hinit : Inv 0 init)
    (hstep : ∀ k < n, ∀ state, Inv k state → ∃ state', step state k = some state' ∧
      Inv (k + 1) state') :
    ∃ final, (range n).foldlM step init = some final ∧ Inv n final := by
  have hloop := foldlM_invariant Inv hinit fun k x state hx hinv => by
    obtain ⟨hk, rfl⟩ := List.getElem?_eq_some_iff.mp hx
    rw [getElem_range]
    exact hstep k (by simpa using hk) state hinv
  rwa [length_range] at hloop

/-- A loop that collects results, none of which is missing. -/
theorem mapM_eq_filterMap {f g : α → Option β} {l : List α}
    (h : ∀ x ∈ l, f x = g x ∧ (g x).isSome) : l.mapM f = some (l.filterMap g) := by
  induction l with
  | nil => rfl
  | cons x l ih =>
    obtain ⟨⟨hx, hsome⟩, hl⟩ := forall_mem_cons.mp h
    obtain ⟨y, hy⟩ := Option.isSome_iff_exists.mp hsome
    rw [mapM_cons, hx, hy, ih hl, filterMap_cons_some hy]
    rfl

/-- A loop whose calls all succeed. -/
theorem mapM_eq_some {f : α → Option β} {g : α → β} {l : List α} (h : ∀ x ∈ l, f x = some (g x)) :
    l.mapM f = some (l.map g) := by
  rw [mapM_eq_filterMap fun x hx => ⟨h x hx, rfl⟩, filterMap_eq_map']

/-- One missing result ends the loop. -/
theorem mapM_eq_none {f : α → Option β} {l : List α} {x : α} (hx : x ∈ l) (hnone : f x = none) :
    l.mapM f = none := by
  induction l with
  | nil => cases hx
  | cons y l ih =>
    rw [mapM_cons]
    rcases mem_cons.mp hx with rfl | hx
    · rw [hnone]
      rfl
    · rw [ih hx]
      cases f y <;> rfl

/-! ## A sequence of assignments -/

/-- Make the assignments in order. -/
def updateAll (f : Nat → α) (assignments : List (Nat × α)) : Nat → α :=
  assignments.foldl (fun f a => Function.update f a.1 a.2) f

/-- A loop of assignments updates the function. -/
theorem foldlM_assign (hinside : ∀ a ∈ assignments, a.1 < n) :
    assignments.foldlM (fun array a => assign array a.1 a.2) (tabulate n f) =
      some (tabulate n (updateAll f assignments)) := by
  induction assignments generalizing f with
  | nil => rfl
  | cons a assignments ih =>
    rw [foldlM_cons, assign_tabulate (hinside a mem_cons_self)]
    exact ih fun b hb => hinside b (mem_cons_of_mem _ hb)

/-- An index without assignments keeps its value. -/
theorem updateAll_of_notMem (h : i ∉ assignments.map Prod.fst) :
    updateAll f assignments i = f i := by
  induction assignments generalizing f with
  | nil => rfl
  | cons a assignments ih =>
    rw [map_cons, mem_cons, not_or] at h
    exact (ih h.2).trans (update_of_ne h.1 _ _)

/-- An element that is assigned once has the value of that assignment. -/
theorem updateAll_of_mem {a : Nat × α} (hnodup : (assignments.map Prod.fst).Nodup)
    (ha : a ∈ assignments) : updateAll f assignments a.1 = a.2 := by
  induction assignments generalizing f with
  | nil => exact absurd ha not_mem_nil
  | cons b assignments ih =>
    rw [map_cons, nodup_cons] at hnodup
    rcases mem_cons.mp ha with rfl | hmem
    · exact (updateAll_of_notMem hnodup.1).trans (update_self _ _ _)
    · exact ih hnodup.2 hmem

/-! ## Algorithms on ranges -/

/-- Replace an element of an array by a function of it. -/
def update (array : List α) (i : Nat) (f : α → α) : Option (List α) :=
  (array[i]?).map fun x => array.set i (f x)

/-- The elements of an array in a range. -/
def slice (array : List α) (first last : Nat) : Option (List α) :=
  if first ≤ last ∧ last ≤ array.length then some ((array.take last).drop first) else none

/-- Assign `x` to the elements in a range. -/
def fill (array : List α) (first last : Nat) (x : α) : Option (List α) :=
  if first ≤ last ∧ last ≤ array.length then
    some (array.take first ++ List.replicate (last - first) x ++ array.drop last)
  else none

/-- Combine the first `n` elements with those of another array. -/
def transform (f : α → α → α) (array other : List α) (n : Nat) : Option (List α) :=
  if n ≤ array.length ∧ n ≤ other.length then
    some (List.zipWith f (array.take n) other ++ array.drop n)
  else none

/-- Copy the first `n` elements of another array. -/
def copy (array other : List α) (n : Nat) : Option (List α) :=
  transform (fun _ x => x) array other n

/-- A change of one element succeeds inside of the array. -/
theorem update_eq (hi : i < array.length) (f : α → α) :
    update array i f = some (array.mapIdx fun j x => if j = i then f x else x) := by
  rw [update, getElem?_eq_getElem hi, map_some, ← modify_eq_mapIdx, modify_eq_set_getElem?,
    getElem?_eq_getElem hi]
  rfl

section

variable (hlast : last ≤ array.length)
include hlast

/-- Filling a range sets its elements. -/
theorem fill_eq (hle : first ≤ last) (x : α) : fill array first last x =
      some (array.mapIdx fun j y => if first ≤ j ∧ j < last then x else y) := by
  rw [fill, if_pos ⟨hle, hlast⟩]
  refine congrArg some (ext_getElem (by simp; omega) fun j hj _ => ?_)
  rw [getElem_mapIdx, getElem_append]
  split
  next hfront =>
    rw [getElem_append]
    split
    next hbefore =>
      rw [length_take] at hbefore
      rw [getElem_take, if_neg (by omega)]
    next hin =>
      simp only [length_append, length_take, length_replicate] at hfront hin
      rw [getElem_replicate, if_pos (by omega)]
  next hafter =>
    simp only [length_append, length_take, length_replicate] at hafter
    rw [getElem_drop, if_neg (by omega)]
    congr 1
    simp only [length_append, length_take, length_replicate]
    omega

omit hlast in
/-- A transformation changes the first elements one by one. -/
theorem transform_eq {other : List α} (hn : n ≤ array.length) (hn' : n ≤ other.length)
    (f : α → α → α) (x : α) : transform f array other n =
      some (array.mapIdx fun j y => if j < n then f y (other.getD j x) else y) := by
  rw [transform, if_pos ⟨hn, hn'⟩]
  refine congrArg some (ext_getElem (by simp; omega) fun j hj _ => ?_)
  rw [getElem_mapIdx, getElem_append]
  split
  next hfront =>
    simp only [length_zipWith, length_take] at hfront
    rw [getElem_zipWith, getElem_take, if_pos (by omega), getD_eq_getElem?_getD,
      getElem?_eq_getElem (by omega), getD_some]
  next hback =>
    simp only [length_zipWith, length_take] at hback
    rw [getElem_drop, if_neg (by omega)]
    congr 1
    simp only [length_zipWith, length_take]
    omega

theorem slice_eq (hle : first ≤ last) :
    slice array first last = some ((array.take last).drop first) :=
  if_pos ⟨hle, hlast⟩

/-- The elements of a range, by their index. -/
theorem forall_mem_range {P : α → Prop} : (∀ x ∈ (array.take last).drop first, P x) ↔
      ∀ j (h : j < last), first ≤ j → P (array[j]) := by
  simp only [mem_iff_getElem, length_drop, length_take, forall_exists_index]
  constructor
  · intro hall j hj hle
    refine hall _ (j - first) (by omega) ?_
    rw [getElem_drop, getElem_take]
    congr 1
    omega
  · rintro hall x j hj rfl
    rw [getElem_drop, getElem_take]
    exact hall _ (by omega) (by omega)

/-- The pairs of elements of two ranges, by their index. -/
theorem forall_mem_zip_range {other : List β} {P : α × β → Prop} (hlast' : last ≤ other.length) :
    (∀ x ∈ ((array.take last).drop 0).zip ((other.take last).drop 0), P x) ↔
      ∀ j (h : j < last), P (array[j], other[j]) := by
  simp only [drop_zero, mem_iff_getElem, length_zip, length_take, forall_exists_index]
  constructor
  · intro hall j hj
    refine hall _ j (by omega) ?_
    rw [getElem_zip, getElem_take, getElem_take]
  · rintro hall x j hj rfl
    rw [getElem_zip, getElem_take, getElem_take]
    exact hall j (by omega)

/-- Two arrays agree up to an index if their elements do. -/
theorem range_eq_iff {other : List α} (hlast' : last ≤ other.length) :
    (array.take last).drop 0 = (other.take last).drop 0 ↔ ∀ j (h : j < last),
      array[j] = other[j] := by
  rw [drop_zero, drop_zero]
  constructor
  · intro heq j hj
    have hget := congrArg (·[j]?) heq
    simpa only [getElem?_take_of_lt hj, getElem?_eq_getElem (show j < array.length by omega),
      getElem?_eq_getElem (show j < other.length by omega), some_inj] using hget
  · intro hsame
    refine ext_getElem (by simp only [length_take]; omega) fun j hj hj' => ?_
    rw [length_take] at hj
    rw [getElem_take, getElem_take, hsame j (by omega)]

end

theorem map_eq_mapIdx (array : List α) (f : α → α) : array.map f = array.mapIdx fun _ x => f x := by
  refine ext_getElem (by simp) fun j hj hj' => ?_
  rw [getElem_map, getElem_mapIdx]

/-! ## Operations on known arrays -/

variable (f : Nat → α)

/-- An element of a tabulated array, or the default after its end. -/
theorem getD_tabulate (n : Nat) (i : Nat) (x : α) :
    (tabulate n f).getD i x = if i < n then f i else x := by
  rw [getD_eq_getElem?_getD]
  split
  next hi => rw [getElem?_tabulate hi, getD_some]
  next hi => rw [getElem?_eq_none (by rw [length_tabulate]; omega), getD_none]

theorem map_tabulate (n : Nat) (g : α → β) : (tabulate n f).map g = tabulate n fun i => g (f i) :=
  map_map

/-- An operation on two tabulated arrays. -/
theorem zipWith_tabulate {γ : Type} (n : Nat) (g : Nat → β) (h : α → β → γ) :
    List.zipWith h (tabulate n f) (tabulate n g) = tabulate n fun i => h (f i) (g i) := by
  refine ext_getElem (by simp) fun j hj hj' => ?_
  rw [getElem_zipWith, getElem_tabulate, getElem_tabulate, getElem_tabulate]

theorem zip_tabulate (n m : Nat) (g : Nat → β) :
    (tabulate n f).zip (tabulate m g) = tabulate (min n m) fun i => (f i, g i) := by
  refine ext_getElem (by simp) fun j hj hj' => ?_
  rw [getElem_zip, getElem_tabulate, getElem_tabulate, getElem_tabulate]

/-- A property of all elements of a tabulated array. -/
theorem all_tabulate (n : Nat) (p : α → Bool) :
    (tabulate n f).all p = true ↔ ∀ i < n, p (f i) = true := by
  simp [tabulate]

/-- An array cut off or filled up to a size. -/
theorem tabulate_append_replicate (n m : Nat) (x : α) :
    (tabulate n f).take m ++ replicate (m - n) x =
      tabulate m fun i => if i < n then f i else x := by
  refine ext_getElem (by simp; omega) fun j hj hj' => ?_
  rw [length_tabulate] at hj'
  rw [getElem_append, getElem_tabulate]
  split
  next hfront =>
    rw [length_take, length_tabulate] at hfront
    rw [getElem_take, getElem_tabulate, if_pos (by omega)]
  next hback =>
    rw [length_take, length_tabulate] at hback
    rw [getElem_replicate, if_neg (by omega)]

end

/-! ## Positions in a ring -/

variable {n start i j : Nat}

/-- The place that comes `i` places after `start`, with at most one turn. -/
def ringIndex (n start i : Nat) : Nat :=
  if n ≤ start + i then start + i - n else start + i

variable (hstart : start < n)
include hstart

/-- A position in a ring is inside of it. -/
theorem ringIndex_lt (hi : i ≤ n) : ringIndex n start i < n := by
  unfold ringIndex
  split <;> omega

/-- The first position in a ring is its start. -/
theorem ringIndex_zero : ringIndex n start 0 = start := by
  unfold ringIndex
  split <;> omega

omit hstart in
/-- Places less than one turn apart differ. -/
theorem ringIndex_inj (hi : i < n) (hj : j < n) :
    ringIndex n start i = ringIndex n start j ↔ i = j := by
  unfold ringIndex
  split <;> split <;> omega

/-- Every place is reached. -/
theorem exists_ringIndex (hj : j < n) : ∃ i < n, ringIndex n start i = j := by
  rcases Nat.lt_or_ge j start with hlt | hge
  · refine ⟨n - start + j, by omega, ?_⟩
    unfold ringIndex
    split_ifs <;> omega
  · refine ⟨j - start, by omega, ?_⟩
    unfold ringIndex
    split_ifs <;> omega

/-- The start moves forward. -/
theorem ringIndex_next (hi : i < n) :
    ringIndex n (ringIndex n start 1) i = ringIndex n start (if i + 1 = n then 0 else i + 1) := by
  unfold ringIndex
  split_ifs <;> omega

/-- The start moves back, to the place that was last. -/
theorem ringIndex_prev (hi : i < n) : ringIndex n (ringIndex n start (n - 1)) i =
      ringIndex n start (if i = 0 then n - 1 else i - 1) := by
  unfold ringIndex
  split_ifs <;> omega

end Gloop.Foundation
