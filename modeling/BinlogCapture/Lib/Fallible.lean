import Mathlib.Data.List.Basic
import Mathlib.Logic.Basic

/-! Runs of a fallible step over a list of inputs, as `List.foldlM` in `Except`. -/
namespace Fallible
variable {σ τ α ε : Type}

@[simp] theorem ok_bind (s : σ) (f : σ → Except ε τ) : (Except.ok s >>= f) = f s := rfl

@[simp] theorem error_bind (e : ε) (f : σ → Except ε τ) : (Except.error e >>= f) = .error e := rfl

theorem ite_eq_or {c : Prop} [Decidable c] {x y z : σ} (h : (if c then x else y) = z) :
    c ∧ x = z ∨ ¬c ∧ y = z := by
  by_cases hc : c
  · exact .inl ⟨hc, by rwa [if_pos hc] at h⟩
  · exact .inr ⟨hc, by rwa [if_neg hc] at h⟩

theorem map_eq_ok_iff {x : Except ε σ} {f : σ → τ} {t : τ} :
    x.map f = .ok t ↔ ∃ s, x = .ok s ∧ f s = t := by
  cases x with
  | error e => simp [Except.map]
  | ok s => simp [Except.map]

theorem bind_eq_ok_iff {x : Except ε σ} {f : σ → Except ε τ} {t : τ} :
    (x >>= f) = .ok t ↔ ∃ s, x = .ok s ∧ f s = .ok t := by
  cases x with
  | error e => simp
  | ok s => simp

theorem map_bind (x : Except ε σ) (f : σ → Except ε τ) {υ : Type} (g : τ → υ) :
    (x >>= f).map g = x >>= fun s => (f s).map g := by
  cases x <;> rfl

/-- An invariant of the step holds at the end of every completed run. -/
theorem foldlM_invariant {step : σ → α → Except ε σ} (P : σ → Prop)
    (hstep : ∀ s a s', P s → step s a = .ok s' → P s') :
    ∀ (l : List α) (s s' : σ), P s → l.foldlM step s = .ok s' → P s' := by
  intro l
  induction l with
  | nil =>
    intro s s' hs h
    cases h
    exact hs
  | cons a l ih =>
    intro s s' hs h
    rw [List.foldlM_cons] at h
    obtain ⟨t, ht, h⟩ := bind_eq_ok_iff.mp h
    exact ih t s' (hstep s a t hs ht) h

/-- A projection that commutes with the step commutes with the run. -/
theorem foldlM_project {step : σ → α → Except ε σ} {step' : τ → α → Except ε τ} (π : σ → τ)
    (hstep : ∀ s a, (step s a).map π = step' (π s) a) :
    ∀ (l : List α) (s : σ), (l.foldlM step s).map π = l.foldlM step' (π s) := by
  intro l
  induction l with
  | nil => exact fun _ => rfl
  | cons a l ih =>
    intro s
    rw [List.foldlM_cons, List.foldlM_cons, map_bind, ← hstep]
    cases step s a with
    | error e => rfl
    | ok t => exact ih t

/-- Two outcomes agree: both fail in the same way, or both succeed with related results. -/
def Agree (R : σ → τ → Prop) : Except ε σ → Except ε τ → Prop
  | .ok s, .ok t => R s t
  | .error e, .error e' => e = e'
  | _, _ => False

@[simp] theorem agree_ok {R : σ → τ → Prop} {s : σ} {t : τ} :
    Agree R (.ok s : Except ε σ) (.ok t) ↔ R s t := Iff.rfl

@[simp] theorem agree_error {R : σ → τ → Prop} {e e' : ε} :
    Agree R (.error e) (.error e') ↔ e = e' := Iff.rfl

theorem Agree.bind {υ ω : Type} {R : σ → τ → Prop} {Q : υ → ω → Prop} {x : Except ε σ}
    {y : Except ε τ} {f : σ → Except ε υ} {g : τ → Except ε ω} (h : Agree R x y)
    (hfg : ∀ s t, R s t → Agree Q (f s) (g t)) : Agree Q (x >>= f) (y >>= g) := by
  cases x <;> cases y
  case ok.ok s t => exact hfg s t h
  case error.error e e' => exact h
  all_goals exact h.elim

theorem Agree.map_right {υ : Type} {R : σ → τ → Prop} {Q : σ → υ → Prop} {x : Except ε σ}
    {y : Except ε τ} {g : τ → υ} (h : Agree R x y) (hg : ∀ s t, R s t → Q s (g t)) :
    Agree Q x (y.map g) := by
  cases x <;> cases y
  case ok.ok s t => exact hg s t h
  case error.error e e' => exact h
  all_goals exact h.elim

theorem Agree.mono {R Q : σ → τ → Prop} {x : Except ε σ} {y : Except ε τ} (h : Agree R x y)
    (hRQ : ∀ s t, R s t → Q s t) : Agree Q x y := by
  cases x <;> cases y
  case ok.ok s t => exact hRQ s t h
  case error.error e e' => exact h
  all_goals exact h.elim

theorem Agree.trans {υ : Type} {R : σ → τ → Prop} {Q : τ → υ → Prop} {x : Except ε σ}
    {y : Except ε τ} {z : Except ε υ} (h : Agree R x y) (h' : Agree Q y z) :
    Agree (fun s u => ∃ t, R s t ∧ Q t u) x z := by
  cases x <;> cases y <;> cases z
  case ok.ok.ok s t u => exact ⟨t, h, h'⟩
  case error.error.error e e' e'' => exact Eq.trans h h'
  all_goals first | exact h.elim | exact h'.elim

theorem Agree.and_left {R : σ → τ → Prop} {P : σ → Prop} {x : Except ε σ} {y : Except ε τ}
    (h : Agree R x y) (hP : ∀ s, x = .ok s → P s) : Agree (fun s t => R s t ∧ P s) x y := by
  cases x <;> cases y
  case ok.ok s t => exact ⟨h, hP s rfl⟩
  case error.error e e' => exact h
  all_goals exact h.elim

theorem Agree.of_ok_left {R : σ → τ → Prop} {s : σ} {y : Except ε τ}
    (h : Agree R (.ok s) y) : ∃ t, y = .ok t ∧ R s t := by
  cases y with
  | error e => exact h.elim
  | ok t => exact ⟨t, rfl, h⟩

end Fallible
