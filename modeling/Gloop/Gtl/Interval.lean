import Mathlib.Data.Set.BooleanAlgebra
import Mathlib.Order.CompletePartialOrder
import Mathlib.Order.Interval.Set.Basic
import Mathlib.Order.MinMax
import Mathlib.Tactic.Order

/-!
# Half-open intervals

The class template `Interval<T>` over a totally ordered type: a start and a limit, regarded as
empty when `start >= limit`. The operations are those of `interval.h`; each returns the values
that the C++ member stores through its out parameters. `Interval.points` is the set of points
that an interval stands for, and the lemmas below say what every operation does to it.
-/

namespace Gloop.Gtl

/-- The half-open interval `[start, limit)`. -/
structure Interval (T : Type*) where
  start : T
  limit : T
deriving DecidableEq, Repr

namespace Interval

variable {T : Type*}

/-- `Interval()`: both ends are value-initialised. -/
instance [Inhabited T] : Inhabited (Interval T) := ⟨⟨default, default⟩⟩

variable [LinearOrder T]

/-- `start() >= limit()`. -/
def empty (i : Interval T) : Bool :=
  i.start ≥ i.limit

/-- `contains(t)`: whether the point lies in the interval. -/
def contains (i : Interval T) (t : T) : Bool :=
  i.start ≤ t && i.limit > t

/-- `contains(i)`: whether neither interval is empty and `i` lies in this one. -/
def containsInterval (self i : Interval T) : Bool :=
  !self.empty && !i.empty && self.start ≤ i.start && self.limit ≥ i.limit

/-- `Intersects(i)`: whether the two intervals share a point. -/
def intersects (self i : Interval T) : Bool :=
  !self.empty && !i.empty && self.start < i.limit && self.limit > i.start

/-- `Intersects(i, out)`: the intersection, when it is not empty. -/
def intersects? (self i : Interval T) : Option (Interval T) :=
  if !self.intersects i then none
  else some ⟨max self.start i.start, min self.limit i.limit⟩

/-- `Difference(i, lo, hi)`: whether the intervals intersect, and the parts of `self` below and
above `i`. -/
def difference [Inhabited T] (self i : Interval T) : Bool × Interval T × Interval T :=
  if self.empty then (false, default, default)
  else if i.empty then (false, self, default)
  else if self.start < i.limit && self.start ≥ i.start && self.limit > i.limit then
    (true, default, ⟨i.limit, self.limit⟩)
  else if self.limit > i.start && self.limit ≤ i.limit && self.start < i.start then
    (true, ⟨self.start, i.start⟩, default)
  else if self.start < i.start && self.limit > i.limit then
    (true, ⟨self.start, i.start⟩, ⟨i.limit, self.limit⟩)
  else if self.start ≥ i.start && self.limit ≤ i.limit then (true, default, default)
  else (false, self, default)

/-- The points of an interval. -/
def points (i : Interval T) : Set T :=
  Set.Ico i.start i.limit

variable {i : Interval T}

@[simp] theorem mem_points {p : T} : p ∈ i.points ↔ i.start ≤ p ∧ p < i.limit :=
  Iff.rfl

/-- `Contains` of a value. -/
theorem contains_iff {p : T} : i.contains p = true ↔ p ∈ i.points := by
  simp [contains]

/-- `Contains` of an interval, where empty ones contain nothing and are contained in nothing. -/
theorem containsInterval_iff {i j : Interval T} : j.containsInterval i = true ↔
      j.start < j.limit ∧ i.start < i.limit ∧ j.start ≤ i.start ∧ i.limit ≤ j.limit := by
  simp [containsInterval, empty, and_assoc]

@[simp] theorem empty_eq_true : i.empty = true ↔ i.limit ≤ i.start := by
  simp [empty]

@[simp] theorem empty_eq_false : i.empty = false ↔ i.start < i.limit := by
  simp [empty]

/-- An empty interval has no points. -/
theorem points_eq_empty (h : i.empty = true) : i.points = ∅ :=
  Set.Ico_eq_empty_of_le (empty_eq_true.1 h)

theorem not_empty_default [Inhabited T] : (default : Interval T).empty = true :=
  empty_eq_true.2 le_rfl

variable {a b : Interval T} {whole i lo hi : Interval T}

/-- Two intervals intersect when both are non-empty and each starts before the other's limit. -/
theorem intersects_iff : a.intersects b = true ↔
      a.start < a.limit ∧ b.start < b.limit ∧ a.start < b.limit ∧ b.start < a.limit := by
  simp [intersects, and_assoc]

/-- Non-empty intervals that do not intersect lie one before the other. -/
theorem before_or_after (ha : a.start < a.limit) (hb : b.start < b.limit)
    (h : a.intersects b = false) : a.limit ≤ b.start ∨ b.limit ≤ a.start := by
  by_contra hcon
  push Not at hcon
  have : a.intersects b = true := intersects_iff.2 ⟨ha, hb, hcon.2, hcon.1⟩
  simp [this] at h

theorem points_disjoint_of_le (h : a.limit ≤ b.start) : Disjoint a.points b.points := by
  rw [Set.disjoint_left]
  rintro p ⟨-, hpa⟩ ⟨hpb, -⟩
  order

/-- The intersection of intervals that meet. -/
theorem intersects?_eq_some (h : a.intersects b = true) :
    a.intersects? b = some ⟨max a.start b.start, min a.limit b.limit⟩ := by
  simp [intersects?, h]

/-- Intervals that do not meet have no intersection. -/
theorem intersects?_eq_none (h : a.intersects b = false) : a.intersects? b = none := by
  simp [intersects?, h]

/-- What `Difference` stores when the intervals intersect: a part is empty exactly when `i`
reaches over that end of `whole`, and otherwise it runs up to the end of `i`. -/
structure SplitBy (whole i lo hi : Interval T) : Prop where
  lo_cases : (i.start ≤ whole.start ∧ lo.empty = true) ∨
    (whole.start < i.start ∧ lo = ⟨whole.start, i.start⟩)
  hi_cases : (whole.limit ≤ i.limit ∧ hi.empty = true) ∨
    (i.limit < whole.limit ∧ hi = ⟨i.limit, whole.limit⟩)

/-- The lower part of a difference, if there is one. -/
theorem SplitBy.lo_eq (h : SplitBy whole i lo hi) (hlo : lo.start < lo.limit) :
    whole.start < i.start ∧ lo = ⟨whole.start, i.start⟩ := by
  rcases h.lo_cases with ⟨-, hempty⟩ | hlo
  · exact absurd hlo (not_lt.2 (empty_eq_true.1 hempty))
  · exact hlo

/-- The upper part of a difference, if there is one. -/
theorem SplitBy.hi_eq (h : SplitBy whole i lo hi) (hhi : hi.start < hi.limit) :
    i.limit < whole.limit ∧ hi = ⟨i.limit, whole.limit⟩ := by
  rcases h.hi_cases with ⟨-, hempty⟩ | hhi
  · exact absurd hhi (not_lt.2 (empty_eq_true.1 hempty))
  · exact hhi

/-- `Difference` on intersecting intervals. -/
theorem difference_of_intersects [Inhabited T] (h : whole.intersects i = true) :
    ∃ lo hi, whole.difference i = (true, lo, hi) ∧ SplitBy whole i lo hi := by
  obtain ⟨hwhole, hi, hstart, hlimit⟩ := intersects_iff.1 h
  have hne : whole.empty = false := empty_eq_false.2 hwhole
  have hine : i.empty = false := empty_eq_false.2 hi
  have hd : (default : Interval T).empty = true := not_empty_default
  rcases lt_or_ge whole.start i.start with hs | hs <;>
    rcases lt_or_ge i.limit whole.limit with hl | hl
  · refine ⟨_, _, ?_, .inr ⟨hs, rfl⟩, .inr ⟨hl, rfl⟩⟩
    simp [difference, hne, hine, hs, hl, not_le.2 hs]
  · refine ⟨_, _, ?_, .inr ⟨hs, rfl⟩, .inl ⟨hl, hd⟩⟩
    simp [difference, hne, hine, hs, hl, hlimit]
  · refine ⟨_, _, ?_, .inl ⟨hs, hd⟩, .inr ⟨hl, rfl⟩⟩
    simp [difference, hne, hine, hs, hl, hstart]
  · refine ⟨_, _, ?_, .inl ⟨hs, hd⟩, .inl ⟨hl, hd⟩⟩
    simp [difference, hne, hine, hs, hl, not_lt.2 hs]

/-- `Difference` on intervals that do not intersect keeps `whole` as its lower part. -/
theorem difference_of_not_intersects [Inhabited T] (hwhole : whole.start < whole.limit)
    (h : whole.intersects i = false) : whole.difference i = (false, whole, default) := by
  have hne : whole.empty = false := empty_eq_false.2 hwhole
  rcases lt_or_ge i.start i.limit with hi | hi
  · have hine : i.empty = false := empty_eq_false.2 hi
    rcases before_or_after hwhole hi h with hle | hle
    · have hlt : whole.start < i.start := hwhole.trans_le hle
      have : whole.limit ≤ i.limit := hle.trans hi.le
      simp [difference, hne, not_le.2 hlt, not_lt.2 hle, not_lt.2 this]
    · have hlt : i.limit < whole.limit := hle.trans_lt hwhole
      have : i.start ≤ whole.start := hi.le.trans hle
      simp [difference, hne, not_lt.2 hle, not_le.2 hlt, not_lt.2 this]
  · simp [difference, hne, empty_eq_true.2 hi]

/-- The two parts cover exactly the points of `whole` outside `i`. -/
theorem SplitBy.points_eq (h : SplitBy whole i lo hi) (hmeet : whole.intersects i = true) :
    lo.points ∪ hi.points = whole.points \ i.points := by
  obtain ⟨-, -, hstart, hlimit⟩ := intersects_iff.1 hmeet
  ext p
  simp only [Set.mem_union, Set.mem_sdiff, mem_points]
  rcases h.lo_cases with ⟨hlo, hloe⟩ | ⟨hlo, rfl⟩ <;>
    rcases h.hi_cases with ⟨hhi, hhie⟩ | ⟨hhi, rfl⟩ <;>
    simp only [empty_eq_true] at *
  all_goals grind

end Interval

end Gloop.Gtl
