import Gloop.Gtl.IntervalMap.Update
import Mathlib.Order.MinMax

/-!
# Merging a part of another interval map

`MergeSubRangeFrom` copies the entries of the source in bulk when the map has nothing in the range,
and otherwise sets one clipped entry after the other. For a range that is not empty both ways read
the source inside the range (`mergeSubRangeFrom_spec`). The bulk copy compares the ends of the range
only with the entries of the source, and an empty range inside an entry of the source is stored as
it is: `mergeSubRangeFrom_wellFormed_iff` says when that happens.
-/

namespace Gloop.Gtl.IntervalMap

open Gloop.Foundation.OrderedSet List Option

variable {K V : Type*} [LinearOrder K]

/-- The part of a function on `[start, limit)`. -/
def clipped (f : K → Option V) (start limit : K) : K → Option V :=
  fun k => if start ≤ k ∧ k < limit then f k else none

variable {table src : List (Entry K V)} {e : Entry K V} {start limit s l : K}

/-- The piece of the first entry that lies in the range can be set before the others are merged. -/
theorem merged_clipped_cons (h : WellFormed (e :: src)) (hs : s = max start e.start)
    (hl : l = min limit e.limit)
    (f : K → Option V) : merged (clipped (denote (e :: src)) start limit) f =
      merged (clipped (denote src) start limit) (overwrite f s l (some e.value)) := by
  funext k
  have hpiece : s ≤ k ∧ k < l ↔ (start ≤ k ∧ k < limit) ∧ e.start ≤ k ∧ k < e.limit := by
    rw [hs, hl, max_le_iff, lt_min_iff]
    tauto
  simp only [merged, clipped, overwrite, denote, hpiece]
  by_cases hk : start ≤ k ∧ k < limit
  · by_cases he : e.start ≤ k ∧ k < e.limit
    · have hnone : denote src k = none :=
        denote_of_lt_starts fun f hf => he.2.trans_le ((wellFormed_cons.1 h).2.1 f hf)
      simp [hk, he, hnone]
    · simp [he]
  · simp [hk]

/-- Entries behind the range are not merged. -/
theorem merged_clipped_behind (h : ∀ e ∈ src, limit ≤ e.start) (f : K → Option V) :
    merged (clipped (denote src) start limit) f = f := by
  funext k
  simp only [merged, clipped]
  split
  next hk => rw [denote_of_lt_starts fun e he => hk.2.trans_le (h e he), none_or]
  next => rfl

/-- Entries before the range are not merged. -/
theorem clipped_append {front : List (Entry K V)} (h : ∀ e ∈ front, e.limit ≤ start) :
    clipped (denote (front ++ src)) start limit = clipped (denote src) start limit := by
  funext k
  simp only [clipped]
  split
  next hk => rw [denote_append, denote_of_limits_le fun e he => (h e he).trans hk.1, none_or]
  next => rfl

/-- Setting clipped entries, whatever the map has in the range. -/
theorem setClipped_spec (h : WellFormed table) (hsrc : WellFormed src) (hrange : start < limit)
    (hlimits : ∀ e ∈ src, start < e.limit) : ∃ r, setClipped start limit table src = some r ∧
      WellFormed r ∧ denote r = merged (clipped (denote src) start limit) (denote table) := by
  induction src generalizing table with
  | nil => exact ⟨table, rfl, h, (merged_clipped_behind (by simp) _).symm⟩
  | cons e src ih =>
    obtain ⟨hne, -, hrest⟩ := wellFormed_cons.1 hsrc
    obtain ⟨hlimit, hlimits⟩ := forall_mem_cons.1 hlimits
    simp only [setClipped, ← max_def_lt, ← min_def_lt]
    by_cases hpiece : max e.start start < min limit e.limit
    · obtain ⟨next, hset, hnext, hdenote⟩ := setInternal_spec h hpiece e.value
      obtain ⟨r, hrun, hr, hmerged⟩ := ih hnext hrest hlimits
      refine ⟨r, by simp [hpiece, hset, hrun], hr, ?_⟩
      rw [hmerged, hdenote, merged_clipped_cons hsrc (max_comm _ _) rfl]
    · -- The entry starts behind the range, and so do the others.
      have hbehind : limit ≤ e.start := by
        refine not_lt.1 fun hlt => hpiece ?_
        exact max_lt (lt_min hlt hne) (lt_min hrange hlimit)
      refine ⟨table, by simp [hpiece], h, (merged_clipped_behind (fun f hf => ?_) _).symm⟩
      exact hbehind.trans (hsrc.head_le f hf)

/-- Inserting the piece of an entry into a map that has no value there. -/
theorem insert_piece (h : WellFormed table) (hsrc : WellFormed (e :: src))
    (hs : s = max start e.start) (hl : l = min limit e.limit) (hsl : s < l)
    (hempty : ∀ k, s ≤ k → k < l → denote table k = none) :
    ∃ r, (insert entryLess table ⟨l, s, e.value⟩).1 = r ∧ WellFormed r ∧
      (∀ k, l ≤ k → denote r k = denote table k) ∧ merged (clipped (denote (e :: src)) start limit)
        (denote table) = merged (clipped (denote src) start limit) (denote r) := by
  obtain ⟨hwf, hdenote⟩ := setNoOverlap_spec h hsl hempty e.value
  refine ⟨_, rfl, hwf, fun k hk => (congrFun hdenote k).trans ?_, ?_⟩
  · exact if_neg fun hpiece => hpiece.2.not_ge hk
  · exact (merged_clipped_cons hsrc hs hl _).trans (congrArg _ hdenote.symm)

/-- Copying entries into a map that has no value from their starts to the limit. -/
theorem copyEntire_spec (h : WellFormed table) (hsrc : WellFormed src)
    (hstarts : ∀ e ∈ src, start ≤ e.start)
    (hempty : ∀ e ∈ src, ∀ k, e.start ≤ k → k < limit → denote table k = none) :
    WellFormed (copyEntire (· ≤ ·) limit table src) ∧ denote (copyEntire (· ≤ ·) limit table src) =
      merged (clipped (denote src) start limit) (denote table) := by
  induction src generalizing table with
  | nil => exact ⟨h, (merged_clipped_behind (by simp) _).symm⟩
  | cons e src ih =>
    obtain ⟨hne, hafter, hrest⟩ := wellFormed_cons.1 hsrc
    obtain ⟨hstart, hstarts⟩ := forall_mem_cons.1 hstarts
    obtain ⟨hfree, -⟩ := forall_mem_cons.1 hempty
    have hs := (max_eq_right hstart).symm
    simp only [copyEntire, decide_eq_true_eq]
    by_cases hentire : e.limit ≤ limit
    · obtain ⟨r, hinsert, hr, hkept, hmerged⟩ :=
        insert_piece h hsrc hs (min_eq_right hentire).symm hne
        fun k hk hkl => hfree k hk (hkl.trans_le hentire)
      rw [if_pos hentire, hinsert, hmerged]
      refine ih hr hrest hstarts fun f hf k hk hkl => ?_
      have hk' : e.limit ≤ k := (hafter f hf).trans hk
      rw [hkept k hk', hfree k (hne.le.trans hk') hkl]
    · have hlimit : limit ≤ e.limit := (not_le.1 hentire).le
      rw [if_neg hentire]
      split
      next hlt =>
        obtain ⟨r, hinsert, hr, -, hmerged⟩ :=
          insert_piece h hsrc hs (min_eq_left hlimit).symm hlt hfree
        rw [hinsert, hmerged, merged_clipped_behind fun f hf => hlimit.trans (hafter f hf)]
        exact ⟨hr, rfl⟩
      next hge =>
        exact ⟨h, (merged_clipped_behind (fun f hf =>
          (not_lt.1 hge).trans (hsrc.head_le f hf)) _).symm⟩

/-- The bulk copy into a map that has no value in the range. -/
theorem copyBulk_spec (h : WellFormed table) (hsrc : WellFormed src) (hrange : start < limit)
    (hlimits : ∀ e ∈ src, start < e.limit)
    (hempty : ∀ k, start ≤ k → k < limit → denote table k = none) :
    WellFormed (copyBulk (· ≤ ·) start limit table src) ∧
      denote (copyBulk (· ≤ ·) start limit table src) = merged (clipped (denote src) start limit)
        (denote table) := by
  cases src with
  | nil => exact ⟨h, (merged_clipped_behind (by simp) _).symm⟩
  | cons e src =>
    obtain ⟨-, hafter, hrest⟩ := wellFormed_cons.1 hsrc
    have hlimit : start < e.limit := hlimits e (by simp)
    simp only [copyBulk, Bool.not_eq_true', decide_eq_true_eq, decide_eq_false_iff_not, not_le]
    by_cases hstart : e.start < start
    · have hs := (max_eq_left hstart.le).symm
      rw [if_pos hstart]
      split
      next hle =>
        obtain ⟨r, hinsert, hr, -, hmerged⟩ :=
          insert_piece h hsrc hs (min_eq_left hle).symm hrange hempty
        rw [hinsert, hmerged, merged_clipped_behind fun f hf => hle.trans (hafter f hf)]
        exact ⟨hr, rfl⟩
      next hgt =>
        have hle : e.limit ≤ limit := (not_le.1 hgt).le
        obtain ⟨r, hinsert, hr, hkept, hmerged⟩ :=
          insert_piece h hsrc hs (min_eq_right hle).symm hlimit
          fun k hk hkl => hempty k hk (hkl.trans_le hle)
        rw [hinsert, hmerged]
        refine copyEntire_spec hr hrest (fun f hf => hlimit.le.trans (hafter f hf))
          fun f hf k hk hkl => ?_
        have hk' : e.limit ≤ k := (hafter f hf).trans hk
        rw [hkept k hk', hempty k (hlimit.le.trans hk') hkl]
    · have hstarts : ∀ f ∈ e :: src, start ≤ f.start :=
        fun f hf => (not_lt.1 hstart).trans (hsrc.head_le f hf)
      rw [if_neg hstart]
      exact copyEntire_spec h hsrc hstarts fun f hf k hk => hempty k ((hstarts f hf).trans hk)

/-- The test for the bulk copy is the one of `IsEmptyInterval`. -/
theorem all_eq_isEmptyInterval (table : List (Entry K V)) (start limit : K) :
    (table[find table start]?).all (fun e => limit ≤ e.start) =
      isEmptyInterval table start limit := by
  rw [isEmptyInterval]
  cases table[find table start]? with
  | none => rfl
  | some e => simp [← not_lt]

section

variable (h : WellFormed table) (hsrc : WellFormed src)
include h hsrc

/-- A range that is not empty is merged, clipped. -/
theorem mergeSubRangeFrom_merged (hrange : start < limit) :
    ∃ r, mergeSubRangeFrom table src start limit = some r ∧ WellFormed r ∧
      denote r = merged (clipped (denote src) start limit) (denote table) := by
  obtain ⟨front, back, hsplit, hposition, hfront, hback⟩ := find_split hsrc start
  have hwf : WellFormed back := hsrc.sublist (hsplit ▸ by simp)
  have hdrop : src.drop (find src start) = back := by rw [hposition, hsplit, drop_left]
  simp only [mergeSubRangeFrom, mergeSubRangeFromBy, hdrop, all_eq_isEmptyInterval]
  rw [hsplit, clipped_append hfront]
  split
  next hnone =>
    rw [List.isEmpty_iff.1 hnone]
    exact ⟨table, rfl, h, (merged_clipped_behind (by simp) _).symm⟩
  next =>
    split
    next hbulk =>
      exact ⟨_, rfl, copyBulk_spec h hwf hrange hback ((isEmptyInterval_iff h hrange).1 hbulk)⟩
    next => exact setClipped_spec h hwf hrange hback

/-- `MergeSubRangeFrom` with a non-empty range reads the source where that has a value in the range,
and the old map elsewhere. The test for the bulk copy succeeds if and only if the map has no value
in the range. -/
theorem mergeSubRangeFrom_spec (hrange : start < limit) :
    ((table[find table start]?).all (fun e => limit ≤ e.start) = true ↔
      ∀ k, start ≤ k → k < limit → denote table k = none) ∧
    ∃ r, mergeSubRangeFrom table src start limit = some r ∧ WellFormed r ∧ ∀ k, denote r k =
      if start ≤ k ∧ k < limit then (denote src k).or (denote table k) else denote table k := by
  obtain ⟨r, hrun, hr, hdenote⟩ := mergeSubRangeFrom_merged h hsrc hrange
  refine ⟨by rw [all_eq_isEmptyInterval, isEmptyInterval_iff h hrange], r, hrun, hr, fun k => ?_⟩
  rw [hdenote, merged, clipped]
  split <;> rfl

end

/-- An entry of the source that is longer than the range is clipped on both sides. -/
theorem mergeSubRangeFrom_spec_clipped :
    ∃ r, mergeSubRangeFrom [⟨4, 2, 1⟩] [⟨10, 0, 7⟩] 3 6 = some r ∧ denote r 2 = some 1 ∧
      denote r 5 = some 7 := by
  have hwf (limit start value : Nat) (h : start < limit) :
      WellFormed [(⟨limit, start, value⟩ : Entry Nat Nat)] :=
    wellFormed_cons.2 ⟨h, by simp, wellFormed_nil⟩
  obtain ⟨-, r, hrun, -, hdenote⟩ := mergeSubRangeFrom_spec (hwf 4 2 1 (by decide))
    (hwf 10 0 7 (by decide))
    (show 3 < 6 by decide)
  exact ⟨r, hrun, hdenote 2, hdenote 5⟩

/-! ## Empty ranges -/

/-- An empty range is stored if it lies inside an entry of the source and the bulk copy is taken. -/
theorem mergeSubRangeFrom_of_le (table : List (Entry K V)) (hsrc : WellFormed src)
    (hle : limit ≤ start) : (∃ e ∈ src, (e.start < start ∧ start < e.limit) ∧
      isEmptyInterval table start limit = true ∧ mergeSubRangeFrom table src start limit =
        some (insert entryLess table ⟨limit, start, e.value⟩).1) ∨
    mergeSubRangeFrom table src start limit = some table ∧
      ¬ (isEmptyInterval table start limit = true ∧ ∃ e ∈ src, e.start < start ∧
        start < e.limit) := by
  obtain ⟨front, back, rfl, hposition, hfront, hback⟩ := find_split hsrc start
  simp only [mergeSubRangeFrom, mergeSubRangeFromBy, hposition, drop_left, all_eq_isEmptyInterval]
  have hfront' : ¬ ∃ e ∈ front, e.start < start ∧ start < e.limit := fun ⟨e, he, hin⟩ =>
    hin.2.not_ge (hfront e he)
  cases back with
  | nil => exact .inr ⟨rfl, fun hinside => hfront' (by simpa using hinside.2)⟩
  | cons e back =>
    have hwf : WellFormed (e :: back) := hsrc.sublist (by simp)
    have hlimit : limit < e.limit := hle.trans_lt (hback e (by simp))
    rw [if_neg (by simp)]
    cases hbulk : isEmptyInterval table start limit with
    | false =>
      refine .inr ⟨?_, by simp⟩
      have hpiece : ¬ max e.start start < min limit e.limit := fun hlt =>
        hle.not_gt ((le_max_right _ _).trans_lt (hlt.trans_le (min_le_left _ _)))
      simp only [setClipped, ← max_def_lt, ← min_def_lt, if_neg hpiece, Bool.false_eq_true,
        if_false]
    | true =>
      simp only [if_true, copyBulk, Bool.not_eq_true', decide_eq_true_eq, decide_eq_false_iff_not,
        not_le]
      by_cases hin : e.start < start
      · exact .inl ⟨e, by simp, ⟨hin, hback e (by simp)⟩,
          trivial, by rw [if_pos hin, if_pos hlimit.le]⟩
      · have hstarts : ∀ f ∈ e :: back, start ≤ f.start :=
          fun f hf => (not_lt.1 hin).trans (hwf.head_le f hf)
        refine .inr ⟨?_, fun hinside => ?_⟩
        · simp only [if_neg hin, copyEntire, decide_eq_true_eq, if_neg hlimit.not_ge,
            if_neg (hle.trans (hstarts e (by simp))).not_gt]
        · obtain ⟨-, f, hf, hf'⟩ := hinside
          rcases mem_append.1 hf with hf | hf
          · exact hfront' ⟨f, hf, hf'⟩
          · exact (hstarts f hf).not_gt hf'.1

/-- An entry with the limit of another one is not inserted, and any other entry is. -/
theorem insert_limit_cases (h : WellFormed table) (x : Entry K V) :
    (∃ f ∈ table, f.limit = x.limit) ∧ (insert entryLess table x).1 = table ∨
    (∀ f ∈ table, f.limit ≠ x.limit) ∧ x ∈ (insert entryLess table x).1 := by
  by_cases hpresent : ∃ f ∈ table, f.limit = x.limit
  · refine .inl ⟨hpresent, ?_⟩
    obtain ⟨f, hf, hfx⟩ := hpresent
    obtain ⟨front, back, rfl⟩ := append_of_mem hf
    have hfront : ∀ g ∈ front, entryLess g x = true := fun g hg => by
      have hle := (wellFormed_append.1 h).2.2 g hg f (by simp)
      simpa [entryLess, ← hfx] using hle.trans_lt (h.nonempty f hf)
    rw [insert_present hfront (by simp [entryLess, hfx]) (by simp [entryLess, hfx])]
  · have hne : ∀ f ∈ table, f.limit ≠ x.limit := fun f hf hfx => hpresent ⟨f, hf, hfx⟩
    refine .inr ⟨hne, ?_⟩
    obtain ⟨front, back, rfl, -, hfront, hback⟩ := find_split h x.limit
    rw [insert_gap (fun f hf => (hfront f hf).lt_of_ne (hne f (by simp [hf]))) hback]
    simp

/-- `MergeSubRangeFrom` keeps the representation, and an empty range changes nothing, unless it
starts inside an entry of the source, the map passes the test for the bulk copy, and no entry of the
map ends at the limit. -/
theorem mergeSubRangeFrom_wellFormed_iff (h : WellFormed table) (hsrc : WellFormed src)
    (start limit : K) : (∃ r, mergeSubRangeFrom table src start limit = some r ∧ WellFormed r ∧
      (limit ≤ start → r = table)) ↔ ¬ (limit ≤ start ∧
        (table[find table start]?).all (fun e => limit ≤ e.start) = true ∧
        (∃ e ∈ src, e.start < start ∧ start < e.limit) ∧ ∀ f ∈ table, f.limit ≠ limit) := by
  rw [all_eq_isEmptyInterval]
  rcases lt_or_ge start limit with hrange | hle
  · obtain ⟨r, hrun, hr, -⟩ := mergeSubRangeFrom_merged h hsrc hrange
    exact iff_of_true ⟨r, hrun, hr, fun hle => absurd hrange hle.not_gt⟩ fun hbad =>
      hrange.not_ge hbad.1
  · rcases mergeSubRangeFrom_of_le table hsrc hle with ⟨e, he, hin, hbulk, hrun⟩ | ⟨hrun, hout⟩
    · rcases insert_limit_cases h ⟨limit, start, e.value⟩ with
        ⟨⟨f, hf, hlimit⟩, hsame⟩ | ⟨hfree, hmem⟩
      · rw [hsame] at hrun
        exact iff_of_true ⟨table, hrun, h, fun _ => rfl⟩ fun hbad => hbad.2.2.2 f hf hlimit
      · refine iff_of_false (fun ⟨r, hr, hwf, _⟩ => ?_)
          (not_not.2 ⟨hle, hbulk, ⟨e, he, hin⟩, hfree⟩)
        obtain rfl := some.inj (hrun.symm.trans hr)
        exact hle.not_gt (hwf.nonempty _ hmem)
    · exact iff_of_true ⟨table, hrun, h, fun _ => rfl⟩ fun hbad => hout ⟨hbad.2.1, hbad.2.2.1⟩

/-- An entry of a map whose keys are ordered by `std::greater`. -/
def descending (start limit value : Nat) : Entry Natᵒᵈ Nat :=
  ⟨.toDual limit, .toDual start, value⟩

/-- An empty range inside an entry of the source is stored as an entry. With keys ordered by
`std::greater` the built-in comparisons take the bulk copy into a map that covers the range, and
copy an entry of the source entirely although it ends behind the limit. -/
theorem mergeSubRangeFrom_stores_empty : (WellFormed [(⟨10, 0, 7⟩ : Entry Nat Nat)] ∧
      ∃ r, mergeSubRangeFrom [] [(⟨10, 0, 7⟩ : Entry Nat Nat)] 5 3 = some r ∧ ¬ WellFormed r) ∧
    (WellFormed [descending 10 0 1] ∧ WellFormed [descending 9 1 2] ∧
      ∃ r, mergeSubRangeFromBy (fun a b => OrderDual.ofDual a ≤ OrderDual.ofDual b)
        [descending 10 0 1] [descending 9 1 2] (.toDual 8) (.toDual 2) = some r ∧
          ¬ WellFormed r) := by
  refine ⟨⟨wellFormed_cons.2 ⟨by decide, by simp, wellFormed_nil⟩, [⟨3, 5, 7⟩], by decide, ?_⟩,
    wellFormed_cons.2 ⟨by decide, by simp, wellFormed_nil⟩,
    wellFormed_cons.2 ⟨by decide, by simp, wellFormed_nil⟩,
    [descending 9 1 2, descending 10 0 1], by decide, ?_⟩
  · exact fun h => absurd (h.nonempty _ (mem_singleton_self _)) (by decide)
  · exact fun h => absurd ((wellFormed_cons.1 h).2.1 _ (mem_singleton_self _)) (by decide)

/-- A range whose start is after its limit leaves an entry behind in an empty table. -/
theorem mergeSubRangeFrom_wellFormed_iff_empty :
    ¬ ∃ r, mergeSubRangeFrom [] [(⟨10, 0, 7⟩ : Entry Nat Nat)] 5 3 =
    some r ∧ WellFormed r ∧ (3 ≤ 5 → r = []) := by
  rw [mergeSubRangeFrom_wellFormed_iff wellFormed_nil
    (wellFormed_cons.2 ⟨by decide, by simp, wellFormed_nil⟩)]
  decide

end Gloop.Gtl.IntervalMap
