import Mathlib.Data.List.Basic

/-! A register and a log: the register moves through a list of values, and between two moves its
value may be logged any number of times. -/
namespace Trail
variable {α : Type}

/-- From `a` the register moves through `qs` and ends in `b`. -/
def Moves : α × List α → List α → α × List α → Prop
  | a, [], b => ∃ n, b = (a.1, a.2 ++ List.replicate n a.1)
  | a, q :: qs, b => ∃ n, Moves (q, a.2 ++ List.replicate n a.1) qs b

theorem Moves.refl (a : α × List α) : Moves a [] a := ⟨0, by simp⟩

theorem moves_log (a : α × List α) : Moves a [] (a.1, a.2 ++ [a.1]) := ⟨1, rfl⟩

theorem moves_to (a : α × List α) (q : α) : Moves a [q] (q, a.2) := ⟨0, 0, by simp⟩

/-- Logging first changes nothing about the moves that follow. -/
theorem Moves.log_first {a b : α × List α} {qs : List α} {n : ℕ}
    (h : Moves (a.1, a.2 ++ List.replicate n a.1) qs b) : Moves a qs b := by
  cases qs with
  | nil =>
    obtain ⟨m, rfl⟩ := h
    exact ⟨n + m, by simp⟩
  | cons q qs =>
    obtain ⟨m, h⟩ := h
    refine ⟨n + m, ?_⟩
    rw [List.append_assoc, List.replicate_append_replicate] at h
    exact h

theorem Moves.append {a b c : α × List α} {qs qs' : List α} (h : Moves a qs b)
    (h' : Moves b qs' c) : Moves a (qs ++ qs') c := by
  induction qs generalizing a with
  | nil =>
    obtain ⟨n, rfl⟩ := h
    exact h'.log_first
  | cons q qs ih =>
    obtain ⟨n, h⟩ := h
    exact ⟨n, ih h⟩

/-- The register ends with the last value it moved to. -/
theorem Moves.register {a b : α × List α} {qs : List α} (h : Moves a qs b) :
    b.1 = qs.getLast?.getD a.1 := by
  induction qs generalizing a with
  | nil =>
    obtain ⟨n, rfl⟩ := h
    rfl
  | cons q qs ih =>
    obtain ⟨n, h⟩ := h
    rw [ih h, List.getLast?_cons]
    rfl

/-- The log grows by values of the register, in the order in which it took them. -/
theorem Moves.log {a b : α × List α} {qs : List α} (h : Moves a qs b) :
    ∃ log, b.2 = a.2 ++ log ∧ (∀ x ∈ log, x ∈ a.1 :: qs) ∧
      ∀ R : α → α → Prop, (∀ x, R x x) → (a.1 :: qs).Pairwise R → log.Pairwise R := by
  induction qs generalizing a with
  | nil =>
    obtain ⟨n, rfl⟩ := h
    refine ⟨List.replicate n a.1, rfl, fun x hx => ?_, fun R hR _ => ?_⟩
    · rw [List.eq_of_mem_replicate hx]
      exact List.mem_singleton_self _
    · exact List.pairwise_replicate.mpr (.inr (hR a.1))
  | cons q qs ih =>
    obtain ⟨n, h⟩ := h
    obtain ⟨log, hlog, hmem, hsorted⟩ := ih h
    refine ⟨List.replicate n a.1 ++ log, ?_, fun x hx => ?_, fun R hR hp => ?_⟩
    · rw [hlog, List.append_assoc]
    · rcases List.mem_append.mp hx with hx | hx
      · rw [List.eq_of_mem_replicate hx]
        exact List.mem_cons_self
      · exact List.mem_cons_of_mem _ (hmem x hx)
    · obtain ⟨hfirst, hp⟩ := List.pairwise_cons.mp hp
      rw [List.pairwise_append]
      refine ⟨List.pairwise_replicate.mpr (.inr (hR a.1)), hsorted R hR hp, fun x hx y hy => ?_⟩
      rw [List.eq_of_mem_replicate hx]
      exact hfirst y (hmem y hy)

end Trail
