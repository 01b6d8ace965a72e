import Mathlib.Logic.Function.Basic

/-!
# Operation sequences and their abstract meaning

A concrete machine takes operations one at a time and may fault; an abstract machine says what each
operation is for. If every legal operation keeps the two related, a whole legal sequence runs
without a fault and ends in related states (`run_refines`). For machines made of many named objects,
`related_update` reduces a step to the object that it changes. Where an operation has several
correct results, `Behaves` follows the one that the concrete machine returns.
-/

namespace Gloop.Foundation

variable {σ α ω ι : Type*}

/-- Every operation of the sequence meets its precondition in the abstract state it starts in. -/
def Legal (precondition : α → ω → Prop) (spec : α → ω → α) : α → List ω → Prop
  | _, [] => True
  | a, op :: ops => precondition a op ∧ Legal precondition spec (spec a op) ops

variable {precondition : α → ω → Prop} {spec : α → ω → α}

/-- Every sequence is legal if no operation has a precondition. -/
theorem legal_of_forall
    (h : ∀ a op, precondition a op) (a : α) (ops : List ω) : Legal precondition spec a ops := by
  induction ops generalizing a with
  | nil => trivial
  | cons op ops ih => exact ⟨h a op, ih _⟩

/-- A legal sequence goes on with one that is legal where it ends. -/
theorem legal_append (a : α) (ops ops' : List ω) : Legal precondition spec a (ops ++ ops') ↔
      Legal precondition spec a ops ∧ Legal precondition spec (ops.foldl spec a) ops' := by
  induction ops generalizing a with
  | nil => exact (and_iff_right trivial).symm
  | cons op ops ih => rw [List.cons_append, Legal, Legal, ih, List.foldl_cons, and_assoc]

/-- A simulation of single operations is one of operation sequences. -/
theorem run_refines {step : σ → ω → Option σ} {related : σ → α → Prop}
    (hstep : ∀ s a op, related s a → precondition a op →
      ∃ next, step s op = some next ∧ related next (spec a op))
    {s : σ} {a : α} (h : related s a) (ops : List ω) (hlegal : Legal precondition spec a ops) :
    ∃ final, ops.foldlM step s = some final ∧ related final (ops.foldl spec a) := by
  induction ops generalizing s a with
  | nil => exact ⟨s, rfl, h⟩
  | cons op ops ih =>
    obtain ⟨hop, hops⟩ := hlegal
    obtain ⟨next, hnext, hkeep⟩ := hstep s a op h hop
    obtain ⟨final, hrun, hfinal⟩ := ih hkeep hops
    refine ⟨final, ?_, hfinal⟩
    rw [List.foldlM_cons, hnext]
    exact hrun

/-- Where an operation faults exactly if it is not safe, a legal sequence of operations does so
too. -/
theorem run_refines_or_faults {step : σ → ω → Option σ} {related : σ → α → Prop}
    {safe : α → ω → Prop}
    (hsafe : ∀ s a op, related s a → precondition a op → safe a op →
      ∃ next, step s op = some next ∧ related next (spec a op))
    (hfault : ∀ s a op, related s a → precondition a op → ¬safe a op → step s op = none)
    {s : σ} {a : α} (h : related s a) (ops : List ω) (hlegal : Legal precondition spec a ops) :
    (Legal safe spec a ops ∧
        ∃ final, ops.foldlM step s = some final ∧ related final (ops.foldl spec a)) ∨
      (¬Legal safe spec a ops ∧ ops.foldlM step s = none) := by
  induction ops generalizing s a with
  | nil => exact .inl ⟨trivial, s, rfl, h⟩
  | cons op ops ih =>
    obtain ⟨hop, hops⟩ := hlegal
    rw [List.foldlM_cons]
    by_cases hs : safe a op
    · obtain ⟨next, hnext, hkeep⟩ := hsafe s a op h hop hs
      rw [hnext]
      exact (ih hkeep hops).imp (fun hok => ⟨⟨hs, hok.1⟩, hok.2⟩)
        fun hbad => ⟨fun hl => hbad.1 hl.2, hbad.2⟩
    · rw [hfault s a op h hop hs]
      exact .inr ⟨fun hl => hs hl.1, rfl⟩

/-- Stores that are related object by object, each object in its own way, stay so when related
values replace one object. -/
theorem related_update_at [DecidableEq ι] {related : ι → σ → α → Prop} {store : ι → σ}
    {meaning : ι → α} (h : ∀ x, related x (store x) (meaning x)) (x : ι) {s : σ} {a : α}
    (hx : related x s a) :
    ∀ y, related y (Function.update store x s y) (Function.update meaning x a y) := by
  intro y
  by_cases hy : y = x
  · subst hy
    simpa using hx
  · simpa [hy] using h y

/-- Stores that are related object by object stay so when related values replace one object. -/
theorem related_update [DecidableEq ι] {related : σ → α → Prop} {store : ι → σ}
    {meaning : ι → α} (h : ∀ x, related (store x) (meaning x)) (x : ι) {s : σ} {a : α}
    (hx : related s a) : ∀ y, related (Function.update store x s y)
      (Function.update meaning x a y) :=
  @related_update_at _ _ _ _ (fun _ => related) _ _ h x _ _ hx

/-- The machine keeps its invariant with the abstract state through the whole sequence. An operation
that meets its precondition does not fault, and the abstract machine goes on from the result that it
has returned, which is a correct one. -/
def Behaves {ρ : Type*} (step : σ → ω → Option (σ × ρ)) (precondition : α → ω → Prop)
    (correct : α → ω → ρ → Prop) (spec : α → ω → ρ → α) (inv : σ → α → Prop) : σ → α → List ω → Prop
  | s, a, [] => inv s a
  | s, a, op :: ops => inv s a ∧ (precondition a op → ∃ next result,
    step s op = some (next, result) ∧
      correct a op result ∧ Behaves step precondition correct spec inv next (spec a op result) ops)

/-- A machine behaves if every single operation does. -/
theorem behaves_of_step {ρ : Type*} {step : σ → ω → Option (σ × ρ)}
    {correct : α → ω → ρ → Prop} {spec : α → ω → ρ → α} {inv : σ → α → Prop}
    (hstep : ∀ s a op, inv s a → precondition a op → ∃ next result,
      step s op = some (next, result) ∧ correct a op result ∧ inv next (spec a op result))
    {s : σ} {a : α} (h : inv s a) (ops : List ω) :
      Behaves step precondition correct spec inv s a ops := by
  induction ops generalizing s a with
  | nil => exact h
  | cons op ops ih =>
    refine ⟨h, fun hop => ?_⟩
    obtain ⟨next, result, hnext, hcorrect, hkeep⟩ := hstep s a op h hop
    exact ⟨next, result, hnext, hcorrect, ih hkeep⟩

end Gloop.Foundation
