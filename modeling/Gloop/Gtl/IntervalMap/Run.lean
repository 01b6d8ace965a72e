import Gloop.Foundation.Refinement
import Gloop.Gtl.IntervalMap.Update

/-!
# Interval maps over whole programs

A program works with named interval maps. `onFunctions` says what each operation does to a partial
function on keys, `Admissible` states the conditions that `intervalmap.h` puts on its callers, and
`run_reads` says that every program that keeps them leaves well-formed tables from which `Lookup`,
`contains` and `FindInterval` read exactly that function.
-/

namespace Gloop.Gtl.IntervalMap

open Gloop.Foundation Option Function

variable {ι K V : Type*}

/-- An operation on the map `x`. -/
inductive Op (ι K V : Type*)
  | set (x : ι) (start limit : K) (value : V)
  | setNoOverlap (x : ι) (start limit : K) (value : V)
  | setAndCoalesce (x : ι) (start limit : K) (value : V)
  | erase (x : ι) (start limit : K)
  | splitAt (x : ι) (k : K)
  | mergeFrom (x src : ι)

variable [LinearOrder K]

/-- The requirements of the operations on their callers. -/
def Admissible (maps : ι → K → Option V) : Op ι K V → Prop
  | .set _ start limit _ => start < limit
  | .setNoOverlap x start limit _ =>
    start < limit ∧ ∀ k, start ≤ k → k < limit → maps x k = none
  | .setAndCoalesce _ start limit _ => start < limit
  | .erase _ start limit => start < limit
  | .splitAt _ _ => True
  | .mergeFrom x src => x ≠ src

variable [DecidableEq ι]

/-- The effect of an operation on partial functions. -/
def onFunctions (maps : ι → K → Option V) : Op ι K V → ι → K → Option V
  | .set x start limit value => update maps x (overwrite (maps x) start limit (some value))
  | .setNoOverlap x start limit value =>
    update maps x (overwrite (maps x) start limit (some value))
  | .setAndCoalesce x start limit value =>
    update maps x (overwrite (maps x) start limit (some value))
  | .erase x start limit => update maps x (overwrite (maps x) start limit none)
  | .splitAt _ _ => maps
  | .mergeFrom x src => update maps x (merged (maps src) (maps x))

variable [DecidableEq V]

/-- Run one operation on the tables. `SetAndCoalesce` compares values with `==`. -/
def execute (store : ι → List (Entry K V)) : Op ι K V → Option (ι → List (Entry K V))
  | .set x start limit value =>
    (setInternal (store x) start limit value).map (update store x)
  | .setNoOverlap x start limit value =>
    some (update store x (setNoOverlap (store x) start limit value))
  | .setAndCoalesce x start limit value =>
    (setAndCoalesce (fun a b => a = b) (store x) start limit value).map (update store x)
  | .erase x start limit =>
    (eraseInternal (store x) start limit).map fun r => update store x r.1
  | .splitAt x k => (splitAt (store x) k).map fun r => update store x r.1
  | .mergeFrom x src => (mergeFrom (store x) (store src)).map (update store x)

/-- The table is well formed and stands for the function. -/
def Represents (table : List (Entry K V)) (f : K → Option V) : Prop :=
  WellFormed table ∧ denote table = f

/-- Every admissible operation keeps the tables and the functions related. -/
theorem execute_represents {store : ι → List (Entry K V)} {maps : ι → K → Option V}
    (h : ∀ x, Represents (store x) (maps x)) (op : Op ι K V) (hop : Admissible maps op) :
    ∃ next, execute store op = some next ∧ ∀ x, Represents (next x) (onFunctions maps op x) := by
  have hdenote (x : ι) : maps x = denote (store x) := (h x).2.symm
  cases op with
  | set x start limit value =>
    obtain ⟨r, hset, hr⟩ := setInternal_spec (h x).1 hop value
    refine ⟨update store x r, by simp [execute, hset], related_update h x ?_⟩
    rw [hdenote]
    exact hr
  | setNoOverlap x start limit value =>
    obtain ⟨hrange, hempty⟩ := hop
    rw [hdenote] at hempty
    refine ⟨_, rfl, related_update h x ?_⟩
    rw [hdenote]
    exact setNoOverlap_spec (h x).1 hrange hempty value
  | setAndCoalesce x start limit value =>
    have hequal (a b : V) (hab : decide (a = b) = true) : id a = id b := of_decide_eq_true hab
    obtain ⟨r, hset, hwf, hr⟩ := setAndCoalesce_spec hequal (h x).1 hop value
    refine ⟨update store x r, by simp [execute, hset], related_update h x ⟨hwf, ?_⟩⟩
    rw [hdenote]
    funext k
    simpa using hr k
  | erase x start limit =>
    obtain ⟨front, back, herase, ⟨hwf, -, -⟩, hr⟩ := eraseInternal_spec (h x).1 hop
    refine ⟨update store x (front ++ back), by simp [execute, herase], related_update h x ⟨hwf, ?_⟩⟩
    rw [hdenote, hr]
  | splitAt x k =>
    obtain ⟨front, back, hsplit, ⟨hwf, -, -⟩, hr⟩ := splitAt_spec (h x).1 k
    refine ⟨update store x (front ++ back), by simp [execute, hsplit], ?_⟩
    have hsame : maps = update maps x (maps x) := (update_eq_self x maps).symm
    rw [hsame]
    exact related_update h x ⟨hwf, hr.trans (hdenote x).symm⟩
  | mergeFrom x src =>
    obtain ⟨r, hmerge, hr⟩ := mergeFrom_spec (h x).1 (h src).1
    refine ⟨update store x r, by simp [execute, hmerge], related_update h x ?_⟩
    rw [hdenote, hdenote]
    exact hr

/-- What a caller of the reading functions sees of a partial function. `FindInterval` returns an
interval around the key on which the function is constant. -/
structure Reads (table : List (Entry K V)) (f : K → Option V) : Prop where
  lookup : ∀ k, lookup table k = f k
  contains : ∀ k, contains table k = (f k).isSome
  findInterval_none : ∀ k, findInterval table k = none ↔ f k = none
  findInterval_some : ∀ k start limit value, findInterval table k = some (start, limit, value) →
    start ≤ k ∧ k < limit ∧ ∀ j, start ≤ j → j < limit → f j = some value

omit [DecidableEq V] in
/-- The lookups of a table are those of its function. -/
theorem WellFormed.reads {table : List (Entry K V)} (h : WellFormed table) :
    Reads table (denote table) where
  lookup := lookup_eq_denote h
  contains k := by
    rw [← lookup_eq_denote h, lookup, isSome_map]
    rfl
  findInterval_none k := by
    rw [← lookup_eq_denote h, lookup, findInterval, map_eq_none_iff, map_eq_none_iff]
  findInterval_some k start limit value hfind := by
    rcases findAt_cases h k with ⟨e, he, hat, hstart, hlimit, -⟩ | ⟨hat, -⟩
    · simp only [findInterval, hat] at hfind
      obtain ⟨rfl, rfl, rfl⟩ := hfind
      exact ⟨hstart, hlimit, fun j hj₁ hj₂ => denote_of_mem h he hj₁ hj₂⟩
    · simp [findInterval, hat] at hfind

/-- Every admissible program over initially empty maps runs without a fault, leaves well-formed
tables, and is read back as the partial functions that its operations describe. -/
theorem run_reads (ops : List (Op ι K V))
    (hlegal : Legal Admissible onFunctions (fun (_ : ι) (_ : K) => (none : Option V)) ops) :
    ∃ store, ops.foldlM execute (fun _ : ι => ([] : List (Entry K V))) = some store ∧
      ∀ x, WellFormed (store x) ∧ Reads (store x) (ops.foldl onFunctions (fun _ _ => none) x) := by
  have hempty : ∀ _ : ι, Represents ([] : List (Entry K V)) (fun _ => none) :=
    fun _ => ⟨wellFormed_nil, rfl⟩
  have hstep (store : ι → List (Entry K V)) (maps : ι → K → Option V) (op : Op ι K V)
      (h : ∀ x, Represents (store x) (maps x)) (hop : Admissible maps op) :=
    execute_represents h op hop
  obtain ⟨store, hrun, hstore⟩ := run_refines hstep hempty ops hlegal
  refine ⟨store, hrun, fun x => ⟨(hstore x).1, ?_⟩⟩
  rw [← (hstore x).2]
  exact (hstore x).1.reads

/-- A program with two maps that uses every operation. -/
def sampleOps : List (Op Bool Nat Nat) :=
  [.set false 0 10 1, .erase false 3 5, .setNoOverlap false 3 5 7, .setAndCoalesce false 10 12 1,
    .splitAt false 4, .mergeFrom true false]

/-- The operations of the sample may be performed. -/
theorem sampleOps_legal :
    Legal Admissible onFunctions (fun (_ : Bool) (_ : Nat) => (none : Option Nat)) sampleOps := by
  refine ⟨show 0 < 10 by decide, show 3 < 5 by decide, ⟨by decide, fun k hk hkl => ?_⟩,
    show 10 < 12 by decide, trivial, show true ≠ false by decide, trivial⟩
  simp [onFunctions, overwrite, hk, hkl]

/-- Operations on two maps with names. -/
theorem sampleOps_reads :
    ∃ store, sampleOps.foldlM execute (fun _ : Bool => ([] : List (Entry Nat Nat))) = some store ∧
      ∀ x, WellFormed (store x) ∧ Reads (store x)
        (sampleOps.foldl onFunctions (fun _ _ => none) x) :=
  run_reads sampleOps sampleOps_legal

end Gloop.Gtl.IntervalMap
