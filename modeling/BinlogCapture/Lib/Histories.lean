import Mathlib.Data.List.Basic

/-! Histories: lists that only grow at the end, with a condition on each entry that may speak of the
entries before it. -/
namespace Histories
variable {α : Type} {I J : List α → α → Prop}

/-- Each entry of the second list meets the condition behind the entries that precede it. -/
def Extends (I : List α → α → Prop) : List α → List α → Prop
  | _, [] => True
  | before, x :: xs => I before x ∧ Extends I (before ++ [x]) xs

@[simp] theorem extends_nil (before : List α) : Extends I before [] := trivial

theorem extends_append {xs : List α} : ∀ {before ys : List α},
    Extends I before (xs ++ ys) ↔ Extends I before xs ∧ Extends I (before ++ xs) ys := by
  induction xs with
  | nil => simp [Extends]
  | cons x xs ih =>
    intro before ys
    rw [List.cons_append, Extends, Extends, ih, List.append_assoc, List.singleton_append, and_assoc]

theorem extends_singleton {before : List α} {x : α} : Extends I before [x] ↔ I before x := by
  simp [Extends]

/-- The condition of one entry. -/
theorem Extends.at {before xs ys : List α} {x : α} (h : Extends I before (xs ++ x :: ys)) :
    I (before ++ xs) x := (extends_append.mp h).2.1

theorem Extends.mono {xs : List α} : ∀ {before : List α},
    (∀ A, ∀ x ∈ xs, before <+: A → I A x → J A x) → Extends I before xs → Extends J before xs := by
  induction xs with
  | nil => exact fun _ _ => trivial
  | cons x xs ih =>
    intro before hIJ h
    refine ⟨hIJ before x List.mem_cons_self List.prefix_rfl h.1, ih ?_ h.2⟩
    intro A y hy hA
    exact hIJ A y (List.mem_cons_of_mem _ hy) ((List.prefix_append _ _).trans hA)

/-- A condition that follows from a fact about the entry alone. -/
theorem extends_of_forall {xs : List α} : ∀ {before : List α},
    (∀ A, ∀ x ∈ xs, before <+: A → I A x) → Extends I before xs := by
  induction xs with
  | nil => exact fun _ => trivial
  | cons x xs ih =>
    intro before h
    refine ⟨h before x List.mem_cons_self List.prefix_rfl, ih ?_⟩
    intro A y hy hA
    exact h A y (List.mem_cons_of_mem _ hy) ((List.prefix_append _ _).trans hA)

end Histories
