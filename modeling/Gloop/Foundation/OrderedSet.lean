import Mathlib.Data.List.Basic
import Mathlib.Data.List.TakeWhile

/-!
# Ordered sets with positions

An ordered set is the list of its elements in increasing order, and an iterator is a position in
that list, the length standing for the end. The operations follow the documented behaviour of the
standard ordered containers: a search returns the first position that satisfies its bound, an
insertion keeps one element per equivalence class, and erasing a position yields the position of
the next element. A hint given to an insertion only affects its cost, so it has no counterpart.

Every operation has a lemma that says what it does at a split `front ++ back` of the list, with
`front.length` as the position. The loops of a client move such a split from left to right.
-/

namespace Gloop.Foundation.OrderedSet

open List

variable {α : Type*}

/-- The first position whose element is after `x`. -/
def upperBound (less : α → α → Bool) (l : List α) (x : α) : Nat :=
  l.findIdx (less x ·)

/-- Insert `x` unless an equivalent element is present. The result holds the new list, the
position of `x` or of its equivalent, and whether the insertion took place. -/
def insert (less : α → α → Bool) (l : List α) (x : α) : List α × Nat × Bool :=
  let position := l.findIdx fun y => !less y x
  let inserted := (l.take position ++ x :: l.drop position, position, true)
  match l[position]? with
  | none => inserted
  | some y => if less x y then inserted else (l, position, false)

/-- Insert the elements of `xs` one after the other. -/
def insertAll (less : α → α → Bool) (l xs : List α) : List α :=
  xs.foldl (fun l x => (insert less l x).1) l

/-- Remove the element at `position`, which must not be the end. -/
def erase (l : List α) (position : Nat) : Option (List α) :=
  if position < l.length then some (l.eraseIdx position) else none

/-- Remove the elements at positions `first` up to but excluding `last`. -/
def eraseRange (l : List α) (first last : Nat) : List α :=
  l.take first ++ l.drop last

/-- `while (it != end && p(*it)) ++it`. -/
def advanceWhile (p : α → Bool) (l : List α) (it : Nat) : Nat :=
  if h : it < l.length then
    if p l[it] then advanceWhile p l (it + 1) else it
  else it
termination_by l.length - it

/-- `while (it != end && p(*it)) it = erase(it)`. -/
def eraseWhile (p : α → Bool) (l : List α) (it : Nat) : List α :=
  if h : it < l.length then
    if p l[it] then eraseWhile p (l.eraseIdx it) it else l
  else l
termination_by l.length
decreasing_by simp only [List.length_eraseIdx, h, ↓reduceIte]; omega

/-! ## Searching -/

variable {front back : List α}

/-- A search that fails throughout `front` and succeeds at the head of `back` stops at their
boundary. -/
theorem findIdx_split {p : α → Bool} (hfront : ∀ y ∈ front, p y = false)
    (hback : ∀ y ∈ back.head?, p y = true) : (front ++ back).findIdx p = front.length := by
  induction front with
  | nil =>
    cases back with
    | nil => rfl
    | cons y back => simp [findIdx_cons, hback y rfl]
  | cons x front ih =>
    have hx : p x = false := hfront x (by simp)
    have hrest := ih fun y hy => hfront y (by simp [hy])
    simp [findIdx_cons, hx, hrest]

/-- Advancing from a split passes what satisfies the condition. -/
theorem advanceWhile_split (p : α → Bool) (front back : List α) :
    advanceWhile p (front ++ back) front.length =
      front.length + (back.takeWhile p).length := by
  induction back generalizing front with
  | nil => rw [advanceWhile]; simp
  | cons y back ih =>
    have hmore := ih (front ++ [y])
    rw [advanceWhile]
    cases hy : p y with
    | false => simp [hy]
    | true =>
      simp only [← append_cons, length_append, length_singleton] at hmore
      simp [hy]
      omega

/-- Erasing from a split takes away what satisfies the condition. -/
theorem eraseWhile_split (p : α → Bool) (front back : List α) :
    eraseWhile p (front ++ back) front.length = front ++ back.dropWhile p := by
  induction back with
  | nil => rw [eraseWhile]; simp
  | cons y back ih =>
    rw [eraseWhile]
    cases hy : p y with
    | false => simp [hy]
    | true => simpa [hy, eraseIdx_append_of_length_le] using ih

/-- A list splits where a condition first fails. -/
theorem exists_takeWhile_split (p : α → Bool) (l : List α) :
    ∃ passed rest, l = passed ++ rest ∧ l.takeWhile p = passed ∧ l.dropWhile p = rest ∧
      (∀ x ∈ passed, p x = true) ∧ ∀ x ∈ rest.head?, p x = false := by
  refine ⟨_, _, takeWhile_append_dropWhile.symm, rfl, rfl, ?_, ?_⟩
  · intro x hx
    exact mem_takeWhile_imp hx
  · intro x hx
    have hnot := head?_dropWhile_not p l
    rwa [Option.mem_def.1 hx] at hnot

/-- Every search splits the list at its result. -/
theorem exists_findIdx_split (p : α → Bool) (l : List α) :
    ∃ front back, l = front ++ back ∧ l.findIdx p = front.length ∧
      (∀ y ∈ front, p y = false) ∧ ∀ y ∈ back.head?, p y = true := by
  obtain ⟨front, back, rfl, -, -, hfront, hback⟩ := exists_takeWhile_split (!p ·) l
  simp only [Bool.not_eq_true', Bool.not_eq_false'] at hfront hback
  exact ⟨front, back, rfl, findIdx_split hfront hback, hfront, hback⟩

/-! ## Inserting and erasing at a split -/

theorem getElem?_split (front : List α) (x : α) (back : List α) :
    (front ++ x :: back)[front.length]? = some x := by
  simp

/-- An element at a split is erased. -/
theorem erase_split (front : List α) (x : α) (back : List α) :
    erase (front ++ x :: back) front.length = some (front ++ back) := by
  simp [erase, eraseIdx_append_of_length_le]

/-- A range between two splits is erased. -/
theorem eraseRange_split (front middle back : List α) :
    eraseRange (front ++ (middle ++ back)) front.length (front.length + middle.length) =
      front ++ back := by
  simp [eraseRange]

variable {less : α → α → Bool}

/-- A new element that fits between `front` and `back` is inserted there. -/
theorem insert_split {x : α} (hfront : ∀ y ∈ front, less y x = true)
    (hback : ∀ y ∈ back.head?, less x y = true ∧ less y x = false) :
    insert less (front ++ back) x = (front ++ x :: back, front.length, true) := by
  have hposition : (front ++ back).findIdx (fun y => !less y x) = front.length :=
    findIdx_split (fun y hy => by simp [hfront y hy]) (fun y hy => by simp [(hback y hy).2])
  cases back with
  | nil =>
    simp only [insert, hposition]
    simp
  | cons y back => simp [insert, hposition, (hback y rfl).1]

/-- An element with an equivalent in the list is not inserted. -/
theorem insert_present {x y : α} (hfront : ∀ z ∈ front, less z x = true) (hxy : less x y = false)
    (hyx : less y x = false) :
    insert less (front ++ y :: back) x = (front ++ y :: back, front.length, false) := by
  have hposition : (front ++ y :: back).findIdx (fun z => !less z x) = front.length :=
    findIdx_split (fun z hz => by simp [hfront z hz]) (by simp [hyx])
  simp [insert, hposition, hxy]

section TotalOrder

/-- The comparison is a strict total order. -/
structure StrictTotal (less : α → α → Bool) : Prop where
  irrefl : ∀ x, less x x = false
  trans : ∀ {x y z}, less x y = true → less y z = true → less x z = true
  trichotomy : ∀ {x y}, less x y = false → less y x = false → x = y

variable (h : StrictTotal less)
include h

variable {l : List α}

section

variable (hl : l.Pairwise (less · · = true))
include hl

/-- In a sorted list, an insertion either finds the element or puts it at its place. -/
theorem insert_cases (x : α) :
    (∃ front back, l = front ++ x :: back ∧ insert less l x = (l, front.length, false)) ∨
    (∃ front back, l = front ++ back ∧ insert less l x = (front ++ x :: back, front.length, true) ∧
      (∀ y ∈ front, less y x = true) ∧ ∀ y ∈ back, less x y = true) := by
  obtain ⟨front, back, rfl, -, hfront, hback⟩ := exists_findIdx_split (fun y => !less y x) l
  simp only [Bool.not_eq_false', Bool.not_eq_true'] at hfront hback
  cases back with
  | nil =>
    refine .inr ⟨front, [], rfl, insert_split hfront (by simp), hfront, by simp⟩
  | cons y back =>
    have hyx : less y x = false := hback y rfl
    cases hxy : less x y with
    | false =>
      obtain rfl := h.trichotomy hxy hyx
      exact .inl ⟨front, back, rfl, insert_present hfront hxy hyx⟩
    | true =>
      refine .inr ⟨front, y :: back, rfl, ?_, hfront, ?_⟩
      · exact insert_split hfront (by simp [hxy, hyx])
      · have hrest := (pairwise_append.1 hl).2.1
        intro z hz
        rcases mem_cons.1 hz with rfl | hz
        · exact hxy
        · exact h.trans hxy (rel_of_pairwise_cons hrest hz)

theorem insert_sorted (x : α) : (insert less l x).1.Pairwise (less · · = true) := by
  rcases insert_cases h hl x with ⟨_, _, _, heq⟩ | ⟨front, back, rfl, heq, hfront, hback⟩
  · rwa [heq]
  · rw [heq]
    obtain ⟨hf, hb, hfb⟩ := pairwise_append.1 hl
    refine pairwise_append.2 ⟨hf, pairwise_cons.2 ⟨hback, hb⟩, ?_⟩
    intro y hy z hz
    rcases mem_cons.1 hz with rfl | hz
    · exact hfront y hy
    · exact hfb y hy z hz

/-- An insertion adds one element. -/
theorem mem_insert (x y : α) : y ∈ (insert less l x).1 ↔ y = x ∨ y ∈ l := by
  rcases insert_cases h hl x with ⟨front, back, rfl, heq⟩ | ⟨front, back, rfl, heq, -, -⟩
  all_goals
    simp only [heq, mem_append, mem_cons]
    tauto

theorem insertAll_sorted (xs : List α) : (insertAll less l xs).Pairwise (less · · = true) := by
  induction xs generalizing l with
  | nil => exact hl
  | cons x xs ih => exact ih (insert_sorted h hl x)

/-- Insertions add their elements. -/
theorem mem_insertAll (xs : List α) (y : α) : y ∈ insertAll less l xs ↔ y ∈ xs ∨ y ∈ l := by
  induction xs generalizing l with
  | nil => simp [insertAll]
  | cons x xs ih =>
    have hrest := ih (insert_sorted h hl x)
    rw [mem_insert h hl] at hrest
    change y ∈ insertAll less (insert less l x).1 xs ↔ _
    rw [mem_cons]
    tauto

end

end TotalOrder

end Gloop.Foundation.OrderedSet
