import Gloop.Gtl.IntervalMap.Model
import Mathlib.Tactic.Order

/-!
# The partial function of an interval map

`WellFormed` is the representation invariant of the table, and `denote` the partial function that
its entries stand for. `lookup_eq_denote` and its companions say that the member functions that read
the map compute this function. Every operation on the map begins by clearing a range. `splitAt_spec`
makes an entry boundary at a key, `eraseInternal_spec` clears a range and leaves the iterator at the
gap, and the operations that set a value put an entry into that gap. Each result gives the new
partial function as an `overwrite` of the old one.
-/

namespace Gloop.Gtl.IntervalMap

open Gloop.Foundation.OrderedSet List Option
variable {K V : Type*} [LinearOrder K]

section

/-- Every entry is non-empty, and the entries are sorted and do not overlap. -/
structure WellFormed (table : List (Entry K V)) : Prop where
  nonempty : ∀ e ∈ table, e.start < e.limit
  ordered : table.Pairwise fun a b => a.limit ≤ b.start

/-- The value of the first entry that contains the key. -/
def denote : List (Entry K V) → K → Option V
  | [], _ => none
  | e :: rest, k => if e.start ≤ k ∧ k < e.limit then some e.value else denote rest k

theorem wellFormed_nil : WellFormed ([] : List (Entry K V)) :=
  ⟨by simp, .nil⟩

variable {table : List (Entry K V)} {e : Entry K V} {k : K}

/-- A table starts with an entry before all others. -/
theorem wellFormed_cons : WellFormed (e :: table) ↔
      e.start < e.limit ∧ (∀ f ∈ table, e.limit ≤ f.start) ∧ WellFormed table := by
  constructor
  · rintro ⟨hne, hordered⟩
    obtain ⟨he, hne⟩ := forall_mem_cons.1 hne
    obtain ⟨hafter, hordered⟩ := pairwise_cons.1 hordered
    exact ⟨he, hafter, hne, hordered⟩
  · rintro ⟨he, hafter, hne, hordered⟩
    exact ⟨forall_mem_cons.2 ⟨he, hne⟩, pairwise_cons.2 ⟨hafter, hordered⟩⟩

variable {front back : List (Entry K V)}

/-- Two tables, one before the other. -/
theorem wellFormed_append : WellFormed (front ++ back) ↔
      WellFormed front ∧ WellFormed back ∧ ∀ e ∈ front, ∀ f ∈ back, e.limit ≤ f.start := by
  constructor
  · rintro ⟨hne, hordered⟩
    obtain ⟨hneFront, hneBack⟩ := forall_mem_append.1 hne
    obtain ⟨hfront, hback, hbetween⟩ := pairwise_append.1 hordered
    exact ⟨⟨hneFront, hfront⟩, ⟨hneBack, hback⟩, hbetween⟩
  · rintro ⟨⟨hneFront, hfront⟩, ⟨hneBack, hback⟩, hbetween⟩
    exact ⟨forall_mem_append.2 ⟨hneFront, hneBack⟩, pairwise_append.2 ⟨hfront, hback, hbetween⟩⟩

theorem WellFormed.sublist (h : WellFormed table) {part : List (Entry K V)}
    (hpart : part.Sublist table) : WellFormed part :=
  ⟨fun e he => h.nonempty e (hpart.subset he), h.ordered.sublist hpart⟩

/-- In a well-formed table the first start bounds all starts. -/
theorem WellFormed.head_le (h : WellFormed (e :: table)) : ∀ f ∈ e :: table, e.start ≤ f.start := by
  obtain ⟨he, hafter, -⟩ := wellFormed_cons.1 h
  exact forall_mem_cons.2 ⟨le_rfl, fun f hf => he.le.trans (hafter f hf)⟩

@[simp] theorem denote_nil (k : K) : denote ([] : List (Entry K V)) k = none := rfl

@[simp] theorem denote_append (front back : List (Entry K V)) (k : K) :
    denote (front ++ back) k = (denote front k).or (denote back k) := by
  induction front with
  | nil => rfl
  | cons e front ih =>
    rw [cons_append, denote, denote, ih]
    split <;> rfl

theorem denote_eq_none : denote table k = none ↔ ∀ e ∈ table, ¬ (e.start ≤ k ∧ k < e.limit) := by
  induction table with
  | nil => simp
  | cons e table ih =>
    rw [denote]
    by_cases he : e.start ≤ k ∧ k < e.limit
    · simp [he]
    · rw [if_neg he, ih, forall_mem_cons]
      exact ⟨fun h => ⟨he, h⟩, fun h => h.2⟩

theorem denote_of_limits_le (h : ∀ e ∈ table, e.limit ≤ k) : denote table k = none :=
  denote_eq_none.2 fun e he hk => absurd hk.2 (not_lt.2 (h e he))

theorem denote_of_lt_starts (h : ∀ e ∈ table, k < e.start) : denote table k = none :=
  denote_eq_none.2 fun e he hk => absurd hk.1 (not_le.2 (h e he))

/-- An entry that lies behind `front` can be read first. -/
theorem denote_insert (hfront : ∀ f ∈ front, f.limit ≤ e.start) (k : K) :
    denote (front ++ e :: back) k =
      if e.start ≤ k ∧ k < e.limit then some e.value else denote (front ++ back) k := by
  rw [denote_append, denote, denote_append]
  by_cases hk : e.start ≤ k ∧ k < e.limit
  · have hnone : denote front k = none :=
      denote_of_limits_le fun f hf => (hfront f hf).trans hk.1
    rw [if_pos hk, if_pos hk, hnone, none_or]
  · rw [if_neg hk, if_neg hk]

variable (h : WellFormed table)
include h

/-- In a well-formed table every entry determines the function on its interval. -/
theorem denote_of_mem (he : e ∈ table) (hstart : e.start ≤ k) (hlimit : k < e.limit) :
    denote table k = some e.value := by
  obtain ⟨front, back, rfl⟩ := append_of_mem he
  have hfront : ∀ f ∈ front, f.limit ≤ e.start := fun f hf =>
    (wellFormed_append.1 h).2.2 f hf e (by simp)
  rw [denote_insert hfront, if_pos ⟨hstart, hlimit⟩]

/-! ## Reading the map -/

/-- `find` splits the table at the first entry that ends behind the key. -/
theorem find_split (key : K) : ∃ front back, table = front ++ back ∧ find table key = front.length ∧
      (∀ e ∈ front, e.limit ≤ key) ∧ ∀ e ∈ back, key < e.limit := by
  obtain ⟨front, back, hsplit, hposition, hfront, hback⟩ :=
    exists_findIdx_split (fun e : Entry K V => key < e.limit) table
  simp only [decide_eq_false_iff_not, not_lt, decide_eq_true_eq] at hfront hback
  refine ⟨front, back, hsplit, hposition, hfront, ?_⟩
  cases back with
  | nil => simp
  | cons f back =>
    have hwf : WellFormed (f :: back) := h.sublist (hsplit ▸ by simp)
    obtain ⟨-, hafter, hrest⟩ := wellFormed_cons.1 hwf
    exact forall_mem_cons.2 ⟨hback f rfl, fun e he =>
      (hback f rfl).trans ((hafter e he).trans_lt (hrest.nonempty e he))⟩

/-- `find_at` returns a stored entry that contains the key, if the map has a value there. -/
theorem findAt_cases (key : K) :
    (∃ e ∈ table, findAt table key = some e ∧ e.start ≤ key ∧ key < e.limit ∧
      denote table key = some e.value) ∨
    findAt table key = none ∧ denote table key = none := by
  obtain ⟨front, back, hsplit, hposition, hfront, hback⟩ := find_split h key
  subst hsplit
  have hnone : denote front key = none := denote_of_limits_le hfront
  unfold findAt
  rw [hposition, denote_append, hnone, none_or]
  cases back with
  | nil => simp
  | cons e back =>
    have hlimit : key < e.limit := hback e (by simp)
    by_cases hstart : key < e.start
    · right
      exact ⟨by simp [hstart], denote_of_lt_starts fun f hf =>
        hstart.trans_le ((wellFormed_append.1 h).2.1.head_le f hf)⟩
    · left
      have hle : e.start ≤ key := not_lt.1 hstart
      exact ⟨e, by simp, by simp [hstart], hle, hlimit, by rw [denote, if_pos ⟨hle, hlimit⟩]⟩

/-- `Lookup` reads the partial function. -/
theorem lookup_eq_denote (key : K) : lookup table key = denote table key := by
  unfold lookup
  rcases findAt_cases h key with ⟨e, -, hfind, -, -, hdenote⟩ | ⟨hfind, hdenote⟩
  · rw [hfind, hdenote, map_some]
  · rw [hfind, hdenote, map_none]

/-- `IsEmptyInterval` decides whether the map has no value in the range. -/
theorem isEmptyInterval_iff {start limit : K} (hrange : start < limit) :
    isEmptyInterval table start limit = true ↔ ∀ k, start ≤ k → k < limit →
      denote table k = none := by
  obtain ⟨front, back, hsplit, hposition, hfront, hback⟩ := find_split h start
  subst hsplit
  have hnone (k : K) (hk : start ≤ k) : denote front k = none :=
    denote_of_limits_le fun e he => (hfront e he).trans hk
  unfold isEmptyInterval
  rw [hposition]
  cases back with
  | nil =>
    simp only [append_nil, getElem?_length, true_iff]
    exact fun k hk _ => hnone k hk
  | cons e back =>
    rw [getElem?_split]
    have hwf : WellFormed (e :: back) := (wellFormed_append.1 h).2.1
    have hlimit : start < e.limit := hback e (by simp)
    by_cases hstart : e.start < limit
    · -- The entry and the range have their later start in common.
      have hpoint : denote (front ++ e :: back) (max start e.start) = some e.value := by
        rw [denote_append, hnone _ (le_max_left _ _), none_or, denote,
          if_pos ⟨le_max_right _ _, max_lt hlimit (wellFormed_cons.1 hwf).1⟩]
      simp only [hstart, decide_true, Bool.not_true, Bool.false_eq_true, false_iff]
      intro hempty
      have hcontra := hempty _ (le_max_left start e.start) (max_lt hrange hstart)
      rw [hpoint] at hcontra
      cases hcontra
    · simp only [hstart, decide_false, Bool.not_false, true_iff]
      intro k hk hkl
      rw [denote_append, hnone k hk]
      exact denote_of_lt_starts fun f hf =>
        hkl.trans_le ((not_lt.1 hstart).trans (hwf.head_le f hf))

end

/-! ## Changing the map -/

/-- The partial function that has the given value on `[start, limit)` and is unchanged elsewhere. -/
def overwrite (f : K → Option V) (start limit : K) (value : Option V) : K → Option V :=
  fun k => if start ≤ k ∧ k < limit then value else f k

omit [LinearOrder K] in
/-- The start of an entry is moved in its place. -/
theorem mutateStart_split (front back : List (Entry K V)) (e : Entry K V) (newStart : K) :
    mutateStart (front ++ e :: back) front.length newStart =
      some (front ++ { e with start := newStart } :: back) := by
  have hmodify : (front ++ e :: back).modify front.length (fun e => { e with start := newStart }) =
      front ++ { e with start := newStart } :: back := by
    induction front with
    | nil => simp
    | cons f front ih => simpa using ih
  simp [mutateStart, hmodify]

variable {front back : List (Entry K V)} {e : Entry K V} {table : List (Entry K V)}
  {start limit : K}

/-- An entry whose limit lies between the limits of two parts of the table is inserted there. -/
theorem insert_gap (hfront : ∀ f ∈ front, f.limit < e.limit)
    (hback : ∀ f ∈ back, e.limit < f.limit) :
      insert entryLess (front ++ back) e = (front ++ e :: back, front.length, true) := by
  refine insert_split (fun f hf => by simp [entryLess, hfront f hf]) (fun f hf => ?_)
  have hlt : e.limit < f.limit := hback f (mem_of_mem_head? hf)
  simp [entryLess, hlt, hlt.le]

/-- Between the two parts of the table is a gap that reaches over the range. -/
structure Gap (front back : List (Entry K V)) (start limit : K) : Prop where
  wellFormed : WellFormed (front ++ back)
  before : ∀ e ∈ front, e.limit ≤ start
  behind : ∀ e ∈ back, limit ≤ e.start

theorem Gap.fill (h : Gap front back start limit) (hrange : start < limit) (value : V) :
    WellFormed (front ++ ⟨limit, start, value⟩ :: back) := by
  obtain ⟨hfront, hback, hbetween⟩ := wellFormed_append.1 h.wellFormed
  refine wellFormed_append.2 ⟨hfront, wellFormed_cons.2 ⟨hrange, h.behind, hback⟩, fun f hf => ?_⟩
  exact forall_mem_cons.2 ⟨h.before f hf, hbetween f hf⟩

theorem Gap.insert_eq (h : Gap front back start limit) (hrange : start < limit) (value : V) :
    insert entryLess (front ++ back) ⟨limit, start, value⟩ =
      (front ++ ⟨limit, start, value⟩ :: back, front.length, true) :=
  insert_gap (fun f hf => (h.before f hf).trans_lt hrange) fun f hf =>
    (h.behind f hf).trans_lt (h.wellFormed.nonempty f (by simp [hf]))

/-- Moving the start of an entry up to a point inside it shortens it. -/
theorem wellFormed_truncate {newStart : K} (h : WellFormed (front ++ e :: back))
    (hstart : e.start ≤ newStart) (hlimit : newStart < e.limit) :
    WellFormed (front ++ { e with start := newStart } :: back) := by
  obtain ⟨-, he, hbetween⟩ := wellFormed_append.1 h
  exact Gap.fill ⟨h.sublist (by simp), fun f hf => (hbetween f hf e (by simp)).trans hstart,
    (wellFormed_cons.1 he).2.1⟩ hlimit e.value

/-- `SplitAt` makes an entry boundary at `k` and does not change the function. -/
theorem splitAt_spec (h : WellFormed table) (k : K) :
    ∃ front back, splitAt table k = some (front ++ back, front.length) ∧ Gap front back k k ∧
      denote (front ++ back) = denote table := by
  obtain ⟨front, back, hsplit, hposition, hfront, hback⟩ := find_split h k
  subst hsplit
  unfold splitAt
  rw [hposition]
  cases back with
  | nil => exact ⟨front, [], by simp, ⟨h, hfront, by simp⟩, rfl⟩
  | cons e back =>
    obtain ⟨-, hwf, hbetween⟩ := wellFormed_append.1 h
    have hlimit : k < e.limit := hback e (by simp)
    by_cases hstart : e.start < k
    · -- `k` lies inside the entry: the part below `k` becomes an entry of its own.
      have hbelow : ∀ f ∈ front, f.limit ≤ e.start := fun f hf => hbetween f hf e (by simp)
      have hinsert : insert entryLess (front ++ e :: back) ⟨k, e.start, e.value⟩ =
          (front ++ ⟨k, e.start, e.value⟩ :: e :: back, front.length, true) :=
        insert_gap (fun f hf => (hbelow f hf).trans_lt hstart) hback
      have hmutate := mutateStart_split (front ++ [⟨k, e.start, e.value⟩]) back e k
      have hupper := wellFormed_truncate h hstart.le hlimit
      have hbehind := (wellFormed_append.1 hupper).2.1.head_le
      refine ⟨front ++ [⟨k, e.start, e.value⟩], { e with start := k } :: back, ?_,
        ⟨?_, forall_mem_append.2 ⟨hfront, by simp⟩, hbehind⟩, ?_⟩
      · simp only [← append_cons, length_append, length_singleton] at hmutate
        simp [hstart, hinsert, hmutate]
      · rw [← append_cons]
        exact Gap.fill ⟨hupper, hbelow, hbehind⟩ hstart e.value
      · funext x
        rw [← append_cons, denote_append, denote_append]
        simp only [denote]
        rcases lt_or_ge x k with hx | hx
        · simp [hx, hx.trans hlimit, not_le.2 hx]
        · simp [hx, hstart.le.trans hx, not_lt.2 hx]
    · exact ⟨front, e :: back, by simp [hstart],
        ⟨h, hfront, fun f hf => (not_lt.1 hstart).trans (hwf.head_le f hf)⟩, rfl⟩

/-- Both branches of the range erase leave what ends behind the range. -/
theorem eraseCovered_split {erased rest : List (Entry K V)} (hfront : ∀ e ∈ front, e.limit ≤ limit)
    (herased : ∀ e ∈ erased, e.limit ≤ limit) (hrest : ∀ e ∈ rest, limit < e.limit) :
    eraseCovered (front ++ (erased ++ rest)) front.length limit = front ++ rest := by
  have hposition : find (front ++ (erased ++ rest)) limit = front.length + erased.length := by
    have hbelow : ∀ e ∈ front ++ erased, decide (limit < e.limit) = false := by
      simpa using forall_mem_append.2 ⟨hfront, herased⟩
    have habove : ∀ e ∈ rest.head?, decide (limit < e.limit) = true := fun e he => by
      simpa using hrest e (mem_of_mem_head? he)
    have hfind := findIdx_split hbelow habove
    rwa [append_assoc, length_append] at hfind
  unfold eraseCovered
  cases erased with
  | nil =>
    cases rest with
    | nil => simp
    | cons e rest => simp [hrest e (by simp)]
  | cons e erased =>
    have he : ¬ limit < e.limit := not_lt.2 (herased e (by simp))
    have hrange := eraseRange_split front (e :: erased) rest
    simp only [cons_append] at hposition hrange ⊢
    simp only [getElem?_split, he, hposition, hrange, decide_false, Bool.not_false, ↓reduceIte]

/-- `EraseInternal` clears the range, and the iterator that it returns stands behind the gap. -/
theorem eraseInternal_spec (h : WellFormed table) (hrange : start < limit) :
    ∃ front back, eraseInternal table start limit = some (front ++ back, front.length) ∧
      Gap front back start limit ∧ denote (front ++ back) =
        overwrite (denote table) start limit none := by
  obtain ⟨front, back, hsplit, ⟨hwf, hfront, hback⟩, hdenote⟩ := splitAt_spec h start
  rw [← hdenote]
  obtain ⟨erased, rest, rfl, -, herased, hrest⟩ := find_split (wellFormed_append.1 hwf).2.1 limit
  have herase := eraseCovered_split (fun e he => (hfront e he).trans hrange.le) herased hrest
  have hwfRest : WellFormed (front ++ rest) := hwf.sublist (by simp)
  -- It is enough that what stays behind the gap agrees with `rest` outside the range.
  have hclear (rest' : List (Entry K V)) (hstarts : ∀ e ∈ rest', limit ≤ e.start)
      (hagree : ∀ k, ¬ (start ≤ k ∧ k < limit) → denote rest' k = denote rest k) :
      denote (front ++ rest') =
        overwrite (denote (front ++ (erased ++ rest))) start limit none := by
    funext k
    by_cases hk : start ≤ k ∧ k < limit
    · have hnone : denote front k = none :=
        denote_of_limits_le fun e he => (hfront e he).trans hk.1
      have hnone' : denote rest' k = none :=
        denote_of_lt_starts fun e he => hk.2.trans_le (hstarts e he)
      simp [overwrite, hk, hnone, hnone']
    · have hnone : denote erased k = none := by
        refine denote_eq_none.2 fun e he hke => hk ?_
        exact ⟨(hback e (by simp [he])).trans hke.1, hke.2.trans_le (herased e he)⟩
      simp only [overwrite, if_neg hk, denote_append, hnone, none_or, hagree k hk]
  unfold eraseInternal
  simp only [hsplit, bind_eq_bind, bind_some, herase]
  cases rest with
  | nil =>
    exact ⟨front, [], by simp, ⟨hwfRest, hfront, by simp⟩, hclear [] (by simp) (by simp)⟩
  | cons e rest =>
    have hlimit : limit < e.limit := hrest e (by simp)
    by_cases hoverlap : e.start < limit
    · -- The last entry reaches into the range and is truncated.
      have hupper := wellFormed_truncate hwfRest hoverlap.le hlimit
      have hstarts := (wellFormed_append.1 hupper).2.1.head_le
      refine ⟨front, { e with start := limit } :: rest, ?_, ⟨hupper, hfront, hstarts⟩,
        hclear _ hstarts ?_⟩
      · simp [hoverlap, mutateStart_split]
      · intro k hk
        have hstart : start ≤ e.start := hback e (by simp)
        simp only [denote]
        rcases lt_or_ge k limit with hkl | hkl
        · have hks : k < e.start := (not_le.1 fun hs => hk ⟨hs, hkl⟩).trans_le hstart
          simp [not_le.2 hkl, not_le.2 hks]
        · simp [hkl, hoverlap.le.trans hkl]
    · have hstarts : ∀ f ∈ e :: rest, limit ≤ f.start := fun f hf =>
        (not_lt.1 hoverlap).trans ((wellFormed_append.1 hwfRest).2.1.head_le f hf)
      exact ⟨front, e :: rest, by simp [hoverlap], ⟨hwfRest, hfront, hstarts⟩,
        hclear _ hstarts fun k _ => rfl⟩

/-- An entry for `[start, limit)` in a gap. -/
theorem Gap.denote_fill (h : Gap front back start limit) (f : K → Option V) (value : V)
    (hclear : denote (front ++ back) = overwrite f start limit none) :
    denote (front ++ ⟨limit, start, value⟩ :: back) = overwrite f start limit (some value) := by
  funext k
  rw [denote_insert h.before, hclear]
  unfold overwrite
  split <;> rfl

/-- `Set` gives the points of the range the value and changes no other point. -/
theorem setInternal_spec (h : WellFormed table) (hrange : start < limit) (value : V) :
    ∃ r, setInternal table start limit value = some r ∧ WellFormed r ∧
      denote r = overwrite (denote table) start limit (some value) := by
  obtain ⟨front, back, herase, hgap, hdenote⟩ := eraseInternal_spec h hrange
  refine ⟨_, ?_, hgap.fill hrange value, hgap.denote_fill _ value hdenote⟩
  simp [setInternal, herase, hgap.insert_eq hrange]

/-- `SetNoOverlap` does the same when the map has no value in the range. -/
theorem setNoOverlap_spec (h : WellFormed table) (hrange : start < limit)
    (hempty : ∀ k, start ≤ k → k < limit → denote table k = none) (value : V) :
    WellFormed (setNoOverlap table start limit value) ∧
        denote (setNoOverlap table start limit value) =
          overwrite (denote table) start limit (some value) := by
  obtain ⟨front, back, rfl, -, hfront, hback⟩ := find_split h start
  have hgap : Gap front back start limit := by
    refine ⟨h, hfront, fun e he => not_lt.1 fun hlt => ?_⟩
    have hne := h.nonempty e (by simp [he])
    have hnone := hempty _ (le_max_left start e.start) (max_lt hrange hlt)
    exact denote_eq_none.1 hnone e (by simp [he]) ⟨le_max_right _ _, max_lt (hback e he) hne⟩
  have hclear : denote (front ++ back) = overwrite (denote (front ++ back)) start limit none := by
    funext k
    unfold overwrite
    split
    next hk => exact hempty k hk.1 hk.2
    next => rfl
  unfold setNoOverlap
  rw [hgap.insert_eq hrange]
  exact ⟨hgap.fill hrange value, hgap.denote_fill _ value hclear⟩

/-! ## Coalescing

The two parts of `SetAndCoalesce` may keep the value of a neighbour in place of the new one. They
are compared under a function `view` on values that identifies what `value_eq` does. -/

section Coalesce

variable {W : Type*} {view : V → W} {valueEq : V → V → Bool}
  (hview : ∀ a b, valueEq a b = true → view a = view b)

include hview

/-- Superseding the entry to the left widens the range that is missing, without a visible change to
the function once the range is filled. -/
theorem absorbLeft_spec (value : V) (h : Gap front back start limit) (hrange : start < limit) :
    ∃ front' start', absorbLeft valueEq (front ++ back) front.length start value =
        some (front' ++ back, front'.length, start') ∧ start' < limit ∧
          Gap front' back start' limit ∧
      ∀ k, (overwrite (denote (front' ++ back)) start' limit (some value) k).map view =
        (overwrite (denote (front ++ back)) start limit (some value) k).map view := by
  obtain ⟨h, hfront, hback⟩ := h
  unfold absorbLeft
  rcases eq_nil_or_concat front with rfl | ⟨before, e, rfl⟩
  · exact ⟨[], start, by simp, hrange, ⟨h, hfront, hback⟩, fun _ => rfl⟩
  · rw [concat_eq_append] at *
    have hat : (before ++ [e] ++ back)[before.length]? = some e := by simp
    have hleft : (before ++ [e]).length - 1 = before.length := by simp
    rw [if_neg (by simp)]
    simp only [hleft, hat, bind_eq_bind, bind_some]
    by_cases hadjoin : (!decide (e.limit < start) && valueEq e.value value) = true
    · obtain ⟨hlimit, hvalue⟩ : e.limit = start ∧ valueEq e.value value = true := by
        simp only [Bool.and_eq_true, Bool.not_eq_true', decide_eq_false_iff_not, not_lt] at hadjoin
        exact ⟨le_antisymm (hfront e (by simp)) hadjoin.1, hadjoin.2⟩
      rw [← append_cons] at h ⊢
      have hbefore : ∀ f ∈ before, f.limit ≤ e.start := fun f hf =>
        (wellFormed_append.1 h).2.2 f hf e (by simp)
      have hne : e.start < e.limit := h.nonempty e (by simp)
      refine ⟨before, e.start, by simp [hadjoin, erase_split], hne.trans (hlimit ▸ hrange),
        ⟨h.sublist (by simp), hbefore, hback⟩, fun k => ?_⟩
      unfold overwrite
      rw [denote_insert hbefore, hlimit]
      rw [hlimit] at hne
      -- Only the points of the superseded entry are read differently, and their values agree.
      rcases lt_or_ge k start with hk | hk
      · have hkl : k < limit := hk.trans hrange
        by_cases hke : e.start ≤ k
        · simp [hk, hkl, hke, not_le.2 hk, hview _ _ hvalue]
        · simp [hke, not_le.2 hk]
      · simp [hk, hne.le.trans hk, not_lt.2 hk]
    · rw [if_neg hadjoin]
      exact ⟨_, start, rfl, hrange, ⟨h, hfront, hback⟩, fun _ => rfl⟩

/-- Extending the entry to the right fills the range. -/
theorem extendRight_spec (value : V) (h : Gap front back start limit) (hrange : start < limit) :
    ∃ r, extendRight valueEq (front ++ back) front.length start limit value = some r ∧
      WellFormed r ∧ ∀ k, (denote r k).map view =
        (overwrite (denote (front ++ back)) start limit (some value) k).map view := by
  have hcreate : ∃ r, some (insert entryLess (front ++ back) ⟨limit, start, value⟩).1 = some r ∧
      WellFormed r ∧ ∀ k, (denote r k).map view =
        (overwrite (denote (front ++ back)) start limit (some value) k).map view := by
    refine ⟨_, by rw [h.insert_eq hrange], h.fill hrange value, fun k => ?_⟩
    rw [denote_insert h.before]
    rfl
  unfold extendRight
  cases back with
  | nil => simpa using hcreate
  | cons e back =>
    rw [getElem?_split]
    by_cases hadjoin : (!decide (limit < e.start) && valueEq e.value value) = true
    · -- the next entry adjoins with an equal value, and its start moves to the front
      obtain ⟨hstart, hvalue⟩ : e.start = limit ∧ valueEq e.value value = true := by
        simp only [Bool.and_eq_true, Bool.not_eq_true', decide_eq_false_iff_not, not_lt] at hadjoin
        exact ⟨le_antisymm hadjoin.1 (h.behind e (by simp)), hadjoin.2⟩
      obtain ⟨-, hwfE, hbetween⟩ := wellFormed_append.1 h.wellFormed
      obtain ⟨hne, hafter, -⟩ := wellFormed_cons.1 hwfE
      have hgap : Gap front back start e.limit := ⟨h.wellFormed.sublist (by simp), h.before, hafter⟩
      have hlimit : start < e.limit := hrange.trans (hstart ▸ hne)
      refine ⟨front ++ { e with start := start } :: back,
        by simp only [hadjoin, ↓reduceIte, mutateStart_split], hgap.fill hlimit e.value,
          fun k => ?_⟩
      unfold overwrite
      rw [denote_insert h.before, denote_insert fun f hf => hbetween f hf e (by simp)]
      rcases lt_or_ge k limit with hk | hk
      · have hke : k < e.limit := hk.trans (hstart ▸ hne)
        simp only [hk, hke, hstart, not_le.2 hk]
        split
        · simp [hview _ _ hvalue]
        · rfl
      · simp [hk, hstart, hrange.le.trans hk, not_lt.2 hk]
    · simp only [hadjoin]
      exact hcreate

/-- `SetAndCoalesce` gives the points of the range the value, as far as `view` can tell. -/
theorem setAndCoalesce_spec (h : WellFormed table) (hrange : start < limit) (value : V) :
    ∃ r, setAndCoalesce valueEq table start limit value = some r ∧ WellFormed r ∧
      ∀ k, (denote r k).map view =
        (overwrite (denote table) start limit (some value) k).map view := by
  obtain ⟨front, back, herase, hgap, hdenote⟩ := eraseInternal_spec h hrange
  obtain ⟨front', start', habsorb, hrange', hgap', hleft⟩ := absorbLeft_spec hview value hgap hrange
  obtain ⟨r, hextend, hwfR, hright⟩ := extendRight_spec hview value hgap' hrange'
  refine ⟨r, by simp [setAndCoalesce, herase, habsorb, hextend], hwfR, fun k => ?_⟩
  rw [hright, hleft, hdenote]
  unfold overwrite
  split <;> rfl

end Coalesce

/-! ## Merging -/

/-- The function that reads `src` where it has a value and `f` elsewhere. -/
def merged (src f : K → Option V) : K → Option V :=
  fun k => (src k).or (f k)

/-- `MergeFrom` overwrites the map with the values of the source. -/
theorem mergeFrom_spec {src : List (Entry K V)} (h : WellFormed table) (hsrc : WellFormed src) :
    ∃ r, mergeFrom table src = some r ∧ WellFormed r ∧ denote r = merged (denote src)
      (denote table) := by
  unfold mergeFrom
  cases table with
  | nil =>
    refine ⟨src, rfl, hsrc, ?_⟩
    funext k
    simp [merged]
  | cons e table =>
    rw [if_neg (by simp)]
    generalize e :: table = table at h
    -- Entry by entry: the entries still to come do not overlap the ones already copied.
    induction src generalizing table with
    | nil => exact ⟨table, rfl, h, by funext k; simp [merged]⟩
    | cons e src ih =>
      obtain ⟨hne, hafter, hwf⟩ := wellFormed_cons.1 hsrc
      obtain ⟨next, hset, hnext, hdenote⟩ := setInternal_spec h hne e.value
      obtain ⟨r, hrun, hr, hmerged⟩ := ih hwf next hnext
      refine ⟨r, by simp [foldlM_cons, hset, hrun], hr, ?_⟩
      rw [hmerged, hdenote]
      funext k
      unfold merged overwrite
      rw [denote]
      by_cases hk : e.start ≤ k ∧ k < e.limit
      · have hnone : denote src k = none :=
          denote_of_lt_starts fun f hf => hk.2.trans_le (hafter f hf)
        simp [hk, hnone]
      · simp [hk]

end Gloop.Gtl.IntervalMap
