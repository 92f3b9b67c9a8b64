import BinlogCapture.Lib.Runs

/-! One system against another, with a relation of their states: each step of the first is a step of
the second, or leaves it where it is. -/
namespace Runs
variable {σ τ α β : Type} {step : σ → α → Option σ} {step' : τ → β → Option τ}
  {cond : σ → α → Prop} {cond' : τ → β → Prop} {rel : σ → τ → Prop}

/-- A run whose states have an invariant meets every condition that follows from both. -/
theorem Run.strengthen {cond₁ : σ → α → Prop} (inv : σ → Prop)
    (hstep : ∀ s a t, inv s → cond s a → step s a = some t → inv t)
    (himp : ∀ s a, inv s → cond s a → cond₁ s a) {s t : σ} (hs : inv s) (h : Run step cond s t) :
    Run step cond₁ s t := by
  induction h with
  | start => exact .start
  | step h hcond hst ih =>
    have ht := h.invariant inv hstep hs
    exact .step ih (himp _ _ ht hcond) hst

/-- What the second system does for a step of the first. -/
inductive Answers (step' : τ → β → Option τ) (cond' : τ → β → Prop) (t : τ) : τ → Prop where
  | stay : Answers step' cond' t t
  | step {b : β} {t' : τ} (hcond : cond' t b) (hstep : step' t b = some t') :
      Answers step' cond' t t'

theorem Run.answer {r t t' : τ} (h : Run step' cond' r t) (ha : Answers step' cond' t t') :
    Run step' cond' r t' := by
  cases ha with
  | stay => exact h
  | step hcond hstep => exact .step h hcond hstep

/-- Each step that meets the condition is answered by one that meets the other condition. -/
def Simulates (step : σ → α → Option σ) (step' : τ → β → Option τ) (cond : σ → α → Prop)
    (cond' : τ → β → Prop) (rel : σ → τ → Prop) : Prop :=
  ∀ ⦃s s' : σ⦄ ⦃t : τ⦄ ⦃a : α⦄, rel s t → cond s a → step s a = some s' →
    ∃ t', Answers step' cond' t t' ∧ rel s' t'

/-- A run of the first system is a run of the second. -/
theorem Simulates.run (h : Simulates step step' cond cond' rel) {s s' : σ} {t : τ} (ht : rel s t)
    (hrun : Run step cond s s') : ∃ t', Run step' cond' t t' ∧ rel s' t' := by
  induction hrun with
  | start => exact ⟨t, .start, ht⟩
  | step _ hcond hstep ih =>
    obtain ⟨u, hu, hrel⟩ := ih
    obtain ⟨u', hanswer, hrel'⟩ := h hrel hcond hstep
    exact ⟨u', hu.answer hanswer, hrel'⟩

end Runs
