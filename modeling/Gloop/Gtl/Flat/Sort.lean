import Gloop.Gtl.Flat.Model
import Mathlib.Algebra.Group.Nat.Defs

/-!
# `Sort` and `ConstexprSort` of `flat_internal.h`

The merge sort that stands in for `std::stable_sort` in constant expressions. The second half of a
merge is left where it is once the first half is used up: only as many elements as have gone to the
buffer are copied back, counted by an `int`. A count that does not fit is `none`.
-/

namespace Gloop.Gtl.Flat

open Gloop.Foundation List

variable {α : Type} (cmp : α → α → Bool)

/-- The two loops that fill the buffer: what is in it at the end, and what `p2` has left. -/
def fillBuffer : List α → List α → List α → List α × List α
  | out, [], second => (out, second)
  | out, first, [] => (out ++ first, [])
  | out, a :: first, b :: second =>
    if !cmp b a then fillBuffer (out ++ [a]) first (b :: second)
    else fillBuffer (out ++ [b]) (a :: first) second
termination_by _ first second => first.length + second.length

/-- `Sort(data, size, cmp, tmp_buffer)`. -/
def sort (data : List α) : Option (List α) :=
  if data.length < 2 then some data
  else do
    let half := data.length / 2
    let first ← sort (data.take half)
    let second ← sort (data.drop half)
    let (out, rest) := fillBuffer cmp [] first second
    -- `int i` runs up to the number of elements in the buffer
    if out.length < 2 ^ 31 then some (out ++ rest) else none
termination_by data.length
decreasing_by all_goals simp only [List.length_take, List.length_drop]; omega

/-- The loop of `ConstexprSort` that looks for a descent. -/
def isSorted : List α → Bool
  | a :: b :: rest => !cmp b a && isSorted (b :: rest)
  | _ => true

/-- `ConstexprSort(data, cmp)`. -/
def constexprSort (data : List α) : Option (List α) :=
  if isSorted cmp data then some data else sort cmp data

variable {cmp}

/-- The buffer and the rest are the merged list. -/
theorem fillBuffer_eq (out first second : List α) :
    ((fillBuffer cmp out first second).1 ++ (fillBuffer cmp out first second).2 =
      out ++ merge cmp first second) := by
  fun_induction fillBuffer cmp out first second with
  | case1 out second => rw [merge, nil_merge]
  | case2 out first hfirst => rw [merge, merge_right, append_nil]
  | case3 out a first b second hba ih =>
    rw [ih, merge, merge, cons_merge_cons, if_pos hba, ← append_cons]
  | case4 out a first b second hba ih =>
    rw [ih, merge, merge, cons_merge_cons, if_neg hba, ← append_cons]

/-- Data whose number of elements fits into an `int` is sorted, and sorted stably. -/
theorem sort_isStableSort (h : StrictWeak cmp) (data : List α) (hsize : data.length < 2 ^ 31) :
    ∃ result, sort cmp data = some result ∧ IsStableSort cmp data result ∧
      result.length = data.length := by
  induction hn : data.length using Nat.strongRecOn generalizing data with
  | ind n ih =>
    rw [sort]
    split_ifs with hshort
    · refine ⟨data, rfl, isStableSort_self ?_, hn⟩
      match data, hshort with
      | [], _ => exact List.Pairwise.nil
      | [x], _ => exact pairwise_singleton _ x
    · have htake : (data.take (data.length / 2)).length < n := by
        rw [length_take]; omega
      have hdrop : (data.drop (data.length / 2)).length < n := by
        rw [length_drop]; omega
      obtain ⟨first, hfirst, hsortFirst, hlengthFirst⟩ := ih _ htake _ (by omega) rfl
      obtain ⟨second, hsecond, hsortSecond, hlengthSecond⟩ := ih _ hdrop _ (by omega) rfl
      have hmerge := isStableSort_merge h hsortFirst.sorted hsortSecond.sorted
      have hfill : (fillBuffer cmp [] first second).1 ++ (fillBuffer cmp [] first second).2 =
          merge cmp first second := fillBuffer_eq [] first second
      have hlength : (merge cmp first second).length = data.length := by
        rw [merge, length_merge, hlengthFirst, hlengthSecond, ← length_append, take_append_drop]
      have hfits : (fillBuffer cmp [] first second).1.length < 2 ^ 31 := by
        have hsum := congrArg List.length hfill
        rw [length_append] at hsum
        omega
      simp only [hfirst, hsecond, Option.bind_eq_bind, Option.bind_some, if_pos hfits]
      refine ⟨_, rfl, ?_, by rw [hfill, hlength, hn]⟩
      rw [hfill]
      refine ⟨hmerge.sorted, fun x => ?_⟩
      rw [show (merge cmp first second).filter (equiv cmp x) = _ from hmerge.filter_eq x,
        filter_append, hsortFirst.filter_eq, hsortSecond.filter_eq, ← filter_append,
          take_append_drop]

/-- Neighbours in order make a sorted list. -/
theorem sorted_of_isSorted (h : StrictWeak cmp) {data : List α} (hdata : isSorted cmp data = true) :
    Sorted cmp data := by
  fun_induction isSorted cmp data with
  | case1 a b rest ih =>
    simp only [Bool.and_eq_true, Bool.not_eq_true'] at hdata
    have hrest := ih hdata.2
    refine pairwise_cons.mpr ⟨fun y hy => ?_, hrest⟩
    cases hy with
    | head => exact hdata.1
    | tail _ hy => exact h.not_less_trans hdata.1 ((pairwise_cons.mp hrest).1 y hy)
  | case2 data hshort =>
    match data, hshort with
    | [], _ => exact List.Pairwise.nil
    | [x], _ => exact pairwise_singleton _ x
    | a :: b :: rest, hshort => exact (hshort a b rest rfl).elim

/-- `ConstexprSort` sorts data whose number of elements fits into an `int` as `std::stable_sort`
does. -/
theorem constexprSort_eq (h : StrictWeak cmp) {data : List α} (hsize : data.length < 2 ^ 31) :
    constexprSort cmp data = some (stableSort cmp data) := by
  rw [constexprSort]
  split_ifs with hsorted
  · have hself := isStableSort_self (sorted_of_isSorted h hsorted)
    exact congrArg some (hself.unique h (isStableSort_mergeSort h data))
  · obtain ⟨result, hresult, hstable, -⟩ := sort_isStableSort h data hsize
    rw [hresult, hstable.unique h (isStableSort_mergeSort h data)]
    rfl

/-- Three numbers are sorted. -/
theorem constexprSort_eq_numbers : constexprSort (fun a b : Nat => decide (a < b)) [3, 1, 2] =
    some (stableSort (fun a b => decide (a < b)) [3, 1, 2]) :=
  constexprSort_eq (strictWeak_of_key id) (by decide)

end Gloop.Gtl.Flat
