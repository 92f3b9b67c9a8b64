import Mathlib.Data.List.Basic

/-! Runs of a system that takes one of several steps at a time, with a condition on the steps. -/
namespace Runs
variable {σ α : Type} (step : σ → α → Option σ)

/-- The states reached from `s` by steps that all meet the condition. -/
inductive Run (cond : σ → α → Prop) (s : σ) : σ → Prop where
  | start : Run cond s s
  | step {t u : σ} {a : α} (h : Run cond s t) (hcond : cond t a) (hstep : step t a = some u) :
      Run cond s u

variable {step}

/-- What holds first and is kept by every step that meets the condition holds in every run. -/
theorem Run.invariant {cond : σ → α → Prop} (inv : σ → Prop)
    (hstep : ∀ s a t, inv s → cond s a → step s a = some t → inv t) {s t : σ}
    (h : Run step cond s t) (hs : inv s) : inv t := by
  induction h with
  | start => exact hs
  | step _ hcond hst ih => exact hstep _ _ _ ih hcond hst

variable (step)

/-- The state behind a list of steps, if all of them can be taken. -/
def exec : σ → List α → Option σ
  | s, [] => some s
  | s, a :: as => (step s a).bind fun t => exec t as

variable {step}

/-- Steps that are taken one after the other continue a run, when each of them meets the
condition. -/
theorem Run.exec {cond : σ → α → Prop} {r : σ} {as : List α} : ∀ {s t : σ}, Run step cond r s →
    exec step s as = some t →
    (∀ before a after u, as = before ++ a :: after → exec step s before = some u → cond u a) →
    Run step cond r t := by
  induction as with
  | nil =>
    intro s t hrun h _
    cases h
    exact hrun
  | cons a as ih =>
    intro s t hrun h hcond
    obtain ⟨u, hu, h⟩ := Option.bind_eq_some_iff.mp h
    refine ih (.step hrun (hcond [] a as s rfl rfl) hu) h fun before b after v has hv => ?_
    apply hcond (a :: before) b after v
    · rw [has, List.cons_append]
    · rw [Runs.exec, hu, Option.bind_some, hv]

variable (step)

/-- The steps, as long as they meet the condition. -/
def execIf (cond : σ → α → Prop) [∀ s a, Decidable (cond s a)] : σ → List α → Option σ
  | s, [] => some s
  | s, a :: as => if cond s a then (step s a).bind fun t => execIf cond t as else none

variable {step}

theorem Run.execIf {cond : σ → α → Prop} [∀ s a, Decidable (cond s a)] {r : σ} {as : List α} :
    ∀ {s t : σ}, Run step cond r s → execIf step cond s as = some t → Run step cond r t := by
  induction as with
  | nil =>
    intro s t hrun h
    cases h
    exact hrun
  | cons a as ih =>
    intro s t hrun h
    rw [Runs.execIf] at h
    split at h
    case isFalse => cases h
    case isTrue hcond =>
      obtain ⟨u, hu, h⟩ := Option.bind_eq_some_iff.mp h
      exact ih (.step hrun hcond hu) h

end Runs
