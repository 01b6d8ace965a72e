import Mathlib.Algebra.Group.Int.Defs
import Mathlib.Algebra.Group.Nat.Defs
import Mathlib.Data.Option.Basic
import Mathlib.Tactic.Common

/-!
# Loops that may fault or diverge

`iterate step s` runs `step` until it asks to stop. A step answers `none` when it performs an
illegal access, `some (.inl s')` to go round again, and `some (.inr b)` to leave with `b`. The
value `none` of a whole loop therefore stands both for a fault and for divergence, and a proof
that a loop returns `some b` excludes both. Read `iterate_total` first: an invariant and a
variant give a result.
-/

namespace Gloop.Foundation

universe u

variable {σ β : Type u}

/-- Run `step` from `s` until it leaves the loop. -/
def iterate (step : σ → Option (σ ⊕ β)) (s : σ) : Option β :=
  Option.join (repeatM (fun s => (step s).map (Sum.map id some)) s)

variable {step : σ → Option (σ ⊕ β)}

/-- One turn of the loop, in a form that evaluates on given states. -/
theorem iterate_eq_bind (step : σ → Option (σ ⊕ β)) (s : σ) :
    iterate step s = (step s).bind (Sum.elim (iterate step) some) := by
  rw [iterate, repeatM_eq_of_monadTail, repeatM.body]
  rcases step s with _ | _ | _ <;> rfl

/-- A step that continues can be taken off the front of the loop. -/
theorem iterate_next {s next : σ} (h : step s = some (.inl next)) :
    iterate step s = iterate step next := by
  rw [iterate_eq_bind, h]
  rfl

/-- A step that leaves the loop determines its result. -/
theorem iterate_done {s : σ} {result : β} (h : step s = some (.inr result)) :
    iterate step s = some result := by
  rw [iterate_eq_bind, h]
  rfl

/-- Total correctness: if every state satisfying the invariant either leaves with a result that
satisfies the postcondition, or continues in the invariant with a smaller variant, then the loop
returns such a result. -/
theorem iterate_total (Inv : σ → Prop) (Post : β → Prop) (variant : σ → Nat) (hstep : ∀ s, Inv s →
      (∃ next, step s = some (.inl next) ∧ Inv next ∧ variant next < variant s) ∨
      (∃ result, step s = some (.inr result) ∧ Post result))
    {s : σ} (hinv : Inv s) : ∃ result, iterate step s = some result ∧ Post result := by
  induction hv : variant s using Nat.strongRecOn generalizing s with
  | ind n ih =>
    rcases hstep s hinv with ⟨next, hnext, hkeep, hless⟩ | ⟨result, hdone, hpost⟩
    · rw [iterate_next hnext]
      exact ih _ (hv ▸ hless) hkeep rfl
    · exact ⟨result, iterate_done hdone, hpost⟩

/-- A loop whose result does not depend on the way to it. -/
theorem iterate_eq (Inv : σ → Prop) (variant : σ → Nat) {result : β} (hstep : ∀ s, Inv s →
      (∃ next, step s = some (.inl next) ∧ Inv next ∧ variant next < variant s) ∨
      step s = some (.inr result))
    {s : σ} (hinv : Inv s) : iterate step s = some result := by
  obtain ⟨_, hrun, rfl⟩ := iterate_total Inv (· = result) variant
    (fun s hs => (hstep s hs).imp_right fun hdone => ⟨result, hdone, rfl⟩) hinv
  exact hrun

variable {p : Prop} [Decidable p]

/-- A check that passes drops out. -/
theorem guard_bind (hp : p) (f : Unit → Option β) : (guard p : Option Unit).bind f = f () := by
  rw [guard, if_pos hp]
  rfl

/-- A computation that gets past a check has passed it. -/
theorem guard_bind_eq_some {f : Unit → Option β} {b : β} :
    (guard p : Option Unit).bind f = some b ↔ p ∧ f () = some b := by
  by_cases hp : p
  · rw [guard_bind hp, and_iff_right hp]
  · rw [guard, if_neg hp]
    exact ⟨fun h => (Option.some_ne_none b h.symm).elim, fun h => absurd h.1 hp⟩

end Gloop.Foundation
