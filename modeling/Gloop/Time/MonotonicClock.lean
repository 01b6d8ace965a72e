import Gloop.Foundation.Iterate
import Mathlib.Algebra.Ring.Int.Defs
import Mathlib.Order.Lattice

/-!
# `MonotonicClock` of `monotonic_clock.cc`

Clocks that share a `State` correct the readings of one raw clock by the largest time that any of
them returned. The last reading and the metrics are each clock's own. What runs under the lock of
the shared state is one step, so the calls of all threads form one history. Times and durations come
from another library: they are linear orders with a difference, `0` is the Unix epoch or no time at
all, and the results assume only that a time is later than an earlier one by a positive duration. A
failed `CHECK` is `none`. The `int` of the metrics wraps here. In C++ that is undefined, but no time
depends on the counter, and what is said of the metrics assumes too few calls between resets for an
overflow.
-/

namespace Gloop.Time

open Gloop.Foundation Function

/-- What a clock does not share. -/
structure MonotonicClockImpl (Time Duration : Type) where
  lastRawTime : Time
  correctionCount : BitVec 32
  maxCorrection : Duration

/-- What `TimeNow()` leaves and returns, and what it passes to the callback if it runs that. -/
structure Outcome (Time Duration : Type) where
  maxTime : Time
  clock : MonotonicClockImpl Time Duration
  time : Time
  callback : Option (Time × Time × Time)

/-- The clocks that share a state. -/
structure Clocks (ι Time Duration : Type) where
  maxTime : Time
  clock : ι → MonotonicClockImpl Time Duration

/-- A call on one of the clocks, with the reading of the raw clock. -/
inductive Call (ι Time : Type)
  | timeNow (i : ι) (rawTime : Time)
  | resetCorrectionMetrics (i : ι)

variable {ι Time Duration : Type} [DecidableEq ι] [LinearOrder Time] [LinearOrder Duration]
  [Zero Duration] [HSub Time Time Duration]

namespace MonotonicClockImpl

variable (clock : MonotonicClockImpl Time Duration)

def timeNow (maxTime rawTime : Time) : Option (Outcome Time Duration) := do
  guard (clock.lastRawTime ≤ maxTime)
  if rawTime ≥ maxTime then
    pure ⟨rawTime, { clock with lastRawTime := rawTime }, rawTime, none⟩
  else if rawTime ≥ clock.lastRawTime then
    -- Within the window of an earlier jump, which has been counted.
    pure ⟨maxTime, { clock with lastRawTime := rawTime }, maxTime, none⟩
  else
    let delta := maxTime - rawTime
    guard (0 < delta)
    let maxCorrection := if delta > clock.maxCorrection then delta else clock.maxCorrection
    pure ⟨maxTime, ⟨rawTime, clock.correctionCount + 1, maxCorrection⟩, maxTime,
      some (rawTime, clock.lastRawTime, maxTime)⟩

/-- What the checks of `TimeNow()` need, and what it does then. -/
theorem timeNow_eq (hsub : ∀ {a b : Time}, b < a → (0 : Duration) < a - b)
    {maxTime : Time} (h : clock.lastRawTime ≤ maxTime) (rawTime : Time) :
    ∃ callback, clock.timeNow maxTime rawTime = some ⟨max rawTime maxTime,
      if rawTime < maxTime ∧ rawTime < clock.lastRawTime then
        ⟨rawTime, clock.correctionCount + 1, max (maxTime - rawTime) clock.maxCorrection⟩
      else { clock with lastRawTime := rawTime }, max rawTime maxTime, callback⟩ := by
  rw [timeNow, Option.bind_eq_bind, guard_bind h]
  by_cases hmax : rawTime ≥ maxTime
  · rw [if_pos hmax, if_neg fun hgap => hgap.1.not_ge hmax, max_eq_left hmax]
    exact ⟨none, rfl⟩
  have hlt : rawTime < maxTime := not_le.mp hmax
  rw [if_neg hmax, max_eq_right hlt.le]
  by_cases hlast : rawTime ≥ clock.lastRawTime
  · rw [if_pos hlast, if_neg fun hgap => hgap.2.not_ge hlast]
    exact ⟨none, rfl⟩
  · rw [if_neg hlast, if_pos ⟨hlt, not_le.mp hlast⟩, guard_bind (hsub hlt), max_comm, max_def_lt]
    exact ⟨_, rfl⟩

def getCorrectionMetrics : Int × Duration :=
  (clock.correctionCount.toInt, clock.maxCorrection)

def resetCorrectionMetrics : MonotonicClockImpl Time Duration :=
  { clock with correctionCount := 0, maxCorrection := 0 }

end MonotonicClockImpl

variable [Zero Time]

def Clocks.step (s : Clocks ι Time Duration) :
    Call ι Time → Option (Clocks ι Time Duration × Option Time)
  | .timeNow i rawTime => do
    let out ← (s.clock i).timeNow s.maxTime rawTime
    pure (⟨out.maxTime, update s.clock i out.clock⟩, some out.time)
  | .resetCorrectionMetrics i =>
    pure ({ s with clock := update s.clock i (s.clock i).resetCorrectionMetrics }, none)

/-- The clocks after a history, whose latest call comes first, and the times that it returned. -/
def run : List (Call ι Time) → Option (Clocks ι Time Duration × List Time)
  | [] => some (⟨0, fun _ => ⟨0, 0, 0⟩⟩, [])
  | call :: earlier => do
    let (s, times) ← run earlier
    let (next, time) ← s.step call
    pure (next, time.toList ++ times)

/-! ## What a history means -/

/-- The readings that the calls got, on whichever clock. -/
def readings : List (Call ι Time) → List Time
  | [] => []
  | .timeNow _ rawTime :: earlier => rawTime :: readings earlier
  | .resetCorrectionMetrics _ :: earlier => readings earlier

/-- The largest of the epoch and the readings. -/
def sharedMax (readings : List Time) : Time :=
  readings.foldr max 0

/-- The largest of the epoch and the readings up to each one. -/
def maxima : List Time → List Time
  | [] => []
  | rawTime :: earlier => sharedMax (rawTime :: earlier) :: maxima earlier

variable (i : ι)

/-- The latest reading of a clock, or the epoch. -/
def lastReading : List (Call ι Time) → Time
  | [] => 0
  | .timeNow j rawTime :: earlier => if j = i then rawTime else lastReading earlier
  | .resetCorrectionMetrics _ :: earlier => lastReading earlier

/-- The gaps that a clock has corrected since its last reset. -/
def corrections : List (Call ι Time) → List Duration
  | [] => []
  | .timeNow j rawTime :: earlier =>
    if j = i ∧ rawTime < sharedMax (readings earlier) ∧ rawTime < lastReading i earlier then
      (sharedMax (readings earlier) - rawTime) :: corrections earlier
    else corrections earlier
  | .resetCorrectionMetrics j :: earlier => if j = i then [] else corrections earlier

/-- The calls of `TimeNow()` on a clock since its last reset. -/
def callsSinceReset : List (Call ι Time) → Nat
  | [] => 0
  | .timeNow j _ :: earlier => callsSinceReset earlier + if j = i then 1 else 0
  | .resetCorrectionMetrics j :: earlier => if j = i then 0 else callsSinceReset earlier

/-- The clock that a history leads to. -/
def expected (history : List (Call ι Time)) : MonotonicClockImpl Time Duration :=
  ⟨lastReading i history, .ofNat 32 (corrections i history).length,
    (corrections i history).foldr max 0⟩

/-! ## Runs -/

variable {history : List (Call ι Time)}

/-- A reading is not later than the latest one. -/
theorem lastReading_le_sharedMax : lastReading i history ≤ sharedMax (readings history) := by
  induction history with
  | nil => exact le_refl 0
  | cons call earlier ih =>
    cases call with
    | timeNow j rawTime =>
      rw [lastReading]
      split
      · exact le_max_left _ _
      · exact ih.trans (le_max_right _ _)
    | resetCorrectionMetrics j => exact ih

omit [LinearOrder Duration] [Zero Duration] in
/-- There are no more corrections than calls since the last reset. -/
theorem length_corrections_le : (corrections i history).length ≤ callsSinceReset i history := by
  induction history with
  | nil => exact le_refl 0
  | cons call earlier ih =>
    cases call with
    | timeNow j rawTime => grind [corrections, callsSinceReset]
    | resetCorrectionMetrics j => grind [corrections, callsSinceReset]

/-- A run fails no check, and it leads to the clocks and returns the times that the history says. -/
theorem run_eq (hsub : ∀ {a b : Time}, b < a → (0 : Duration) < a - b)
    (history : List (Call ι Time)) : run history =
      some (⟨sharedMax (readings history), (expected · history)⟩, maxima (readings history)) := by
  induction history with
  | nil => rfl
  | cons call earlier ih =>
    rw [run, ih, Option.bind_eq_bind, Option.bind_some]
    cases call with
    | timeNow i rawTime =>
      obtain ⟨callback, htime⟩ :=
        (expected i earlier).timeNow_eq hsub (lastReading_le_sharedMax i) rawTime
      simp only [Clocks.step, htime, Option.bind_eq_bind, Option.bind_some]
      refine congrArg (fun clock => some (Clocks.mk _ clock, _))
        (update_eq_iff.mpr ⟨?_, fun j hj => ?_⟩)
      · by_cases hgap : rawTime < sharedMax (readings earlier) ∧ rawTime < lastReading i earlier
        · simp [expected, lastReading, corrections, hgap, BitVec.ofNat_add]
        · simp [expected, lastReading, corrections, hgap]
      · simp [expected, lastReading, corrections, hj.symm]
    | resetCorrectionMetrics i =>
      refine congrArg (fun clock => some (Clocks.mk _ clock, _))
        (update_eq_iff.mpr ⟨?_, fun j hj => ?_⟩)
      · simp [expected, lastReading, corrections, MonotonicClockImpl.resetCorrectionMetrics]
      · simp [expected, lastReading, corrections, hj.symm]

/-- The maximum does not decrease over time. -/
theorem pairwise_maxima (l : List Time) :
    (maxima l).Pairwise (· ≥ ·) ∧ ∀ time ∈ maxima l, time ≤ sharedMax l := by
  induction l with
  | nil => exact ⟨.nil, nofun⟩
  | cons rawTime earlier ih =>
    have hle : ∀ time ∈ maxima earlier, time ≤ sharedMax (rawTime :: earlier) :=
      fun time htime => (ih.2 time htime).trans (le_max_right _ _)
    exact ⟨.cons hle ih.1, List.forall_mem_cons.mpr ⟨le_refl _, hle⟩⟩

/-- Whatever the raw clock reads and whichever clocks ask, no check fails and each call returns the
largest of the epoch and the readings so far. With few enough calls between resets, a clock has
counted its readings below both the largest time and its own last reading, and kept the largest
gap. -/
theorem monotonicClock_correct (hsub : ∀ {a b : Time}, b < a → (0 : Duration) < a - b)
    (history : List (Call ι Time)) : ∃ s, run history = some (s, maxima (readings history)) ∧
      (maxima (readings history)).Pairwise (· ≥ ·) ∧ ∀ i, callsSinceReset i history < 2 ^ 31 →
        (s.clock i).getCorrectionMetrics = (↑(corrections i history).length,
          (corrections i history).foldr max 0) := by
  refine ⟨_, run_eq hsub history, (pairwise_maxima _).1, fun i hcalls => ?_⟩
  have hlength := (length_corrections_le i).trans_lt hcalls
  have hcount : (BitVec.ofNat 32 (corrections i history).length).toNat =
      (corrections i history).length :=
    Nat.mod_eq_of_lt (by omega)
  simp only [MonotonicClockImpl.getCorrectionMetrics, expected]
  rw [BitVec.toInt_eq_toNat_of_lt (by omega), hcount]

/-- A clock is set back behind its own reading, and the time of another clock makes the gap
larger. -/
theorem monotonicClock_correct_jump :
    ∃ s, run [Call.timeNow true (2 : Int), .timeNow false 9, .timeNow true 5] =
      some (s, [9, 9, 5]) ∧ (s.clock true).getCorrectionMetrics = (1, (7 : Int)) := by
  obtain ⟨s, hrun, -, hmetrics⟩ := monotonicClock_correct (@Int.sub_pos_of_lt)
    [Call.timeNow true 2, .timeNow false 9, .timeNow true 5]
  exact ⟨s, hrun, hmetrics true (by decide)⟩

end Gloop.Time
