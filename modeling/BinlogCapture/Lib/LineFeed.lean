import BinlogCapture.Lib.Fallible

/-! A byte stream cut into lines, and a fallible line handler fed with the stream.
The handler sees a line when its terminator arrives; the unfinished line is kept. -/
namespace LineFeed
open Fallible
variable {α σ ε : Type} (nl : α)

def unlines (ls : List (List α)) : List α := ls.flatMap (· ++ [nl])

@[simp] theorem unlines_nil : unlines nl [] = [] := rfl

@[simp] theorem unlines_cons (l : List α) (ls : List (List α)) :
    unlines nl (l :: ls) = l ++ nl :: unlines nl ls := by simp [unlines]

@[simp] theorem unlines_append (ls ms : List (List α)) :
    unlines nl (ls ++ ms) = unlines nl ls ++ unlines nl ms := by simp [unlines]

variable [DecidableEq α]

/-- The lines that `t` completes after the pending bytes `p`, and what stays pending. -/
def split : List α → List α → List (List α) × List α
  | p, [] => ([], p)
  | p, a :: t => if a = nl then (p :: (split [] t).1, (split [] t).2) else split (p ++ [a]) t

theorem split_append (p t u : List α) :
    split nl p (t ++ u) =
      ((split nl p t).1 ++ (split nl (split nl p t).2 u).1, (split nl (split nl p t).2 u).2) := by
  induction t generalizing p with
  | nil => simp [split]
  | cons a t ih =>
    by_cases ha : a = nl
    · simp [split, ha, ih]
    · simp [split, ha, ih]

theorem split_of_not_mem {t : List α} (h : nl ∉ t) (p : List α) : split nl p t = ([], p ++ t) := by
  induction t generalizing p with
  | nil => simp [split]
  | cons a t ih =>
    rw [List.mem_cons, not_or] at h
    simp [split, Ne.symm h.1, ih h.2]

theorem split_line {l : List α} (h : nl ∉ l) (p t : List α) :
    split nl p (l ++ nl :: t) = ((p ++ l) :: (split nl [] t).1, (split nl [] t).2) := by
  rw [split_append, split_of_not_mem nl h]
  simp [split]

theorem split_unlines {ls : List (List α)} (h : ∀ l ∈ ls, nl ∉ l) (t : List α) :
    split nl [] (unlines nl ls ++ t) = (ls ++ (split nl [] t).1, (split nl [] t).2) := by
  induction ls with
  | nil => simp
  | cons l ls ih =>
    rw [List.forall_mem_cons] at h
    rw [unlines_cons, List.append_assoc, List.cons_append, split_line nl h.1, ih h.2]
    simp

/-- Nothing is lost: the completed lines and the rest are the stream. -/
theorem unlines_split (p t : List α) :
    unlines nl (split nl p t).1 ++ (split nl p t).2 = p ++ t := by
  induction t generalizing p with
  | nil => simp [split]
  | cons a t ih =>
    by_cases ha : a = nl
    · simp [split, ha, ih]
    · simp [split, ha, ih]

theorem mem_of_mem_split_rest {p t : List α} {a : α} (ha : a ∈ (split nl p t).2) :
    a ∈ p ++ t := by
  rw [← unlines_split nl p t]
  exact List.mem_append_right _ ha

theorem split_lines_not_mem {p : List α} (hp : nl ∉ p) (t : List α) :
    ∀ l ∈ (split nl p t).1, nl ∉ l := by
  induction t generalizing p with
  | nil => simp [split]
  | cons a t ih =>
    by_cases ha : a = nl
    · simpa [split, ha] using ⟨hp, ih (p := []) (by simp)⟩
    · have hpa : nl ∉ p ++ [a] := by simp [hp, Ne.symm ha]
      simpa [split, ha] using ih hpa

theorem split_pending (p u : List α) :
    (split nl p u).1 = [] ∧ p <+: (split nl p u).2 ∨
      ∃ l ls, (split nl p u).1 = l :: ls ∧ p <+: l := by
  induction u generalizing p with
  | nil => exact .inl ⟨rfl, List.prefix_rfl⟩
  | cons a u ih =>
    by_cases ha : a = nl
    · exact .inr ⟨p, (split nl [] u).1, by simp only [split, ha, ↓reduceIte], List.prefix_rfl⟩
    · simp only [split, ha, ↓reduceIte]
      have hp : p <+: p ++ [a] := List.prefix_append p [a]
      rcases ih (p ++ [a]) with ⟨h, hpre⟩ | ⟨l, ls, hl, hpre⟩
      · exact .inl ⟨h, hp.trans hpre⟩
      · exact .inr ⟨l, ls, hl, hp.trans hpre⟩

/-- Pending bytes stand in front of the first line that `t` completes, or else of what stays. -/
theorem split_pending_eq (p t : List α) :
    split nl p t = ((split nl [] t).1.modifyHead (p ++ ·),
      if (split nl [] t).1 = [] then p ++ (split nl [] t).2 else (split nl [] t).2) := by
  by_cases ht : nl ∈ t
  · obtain ⟨l, u, rfl, hl⟩ := List.eq_append_cons_of_mem ht
    rw [split_line nl hl, split_line nl hl]
    simp
  · rw [split_of_not_mem nl ht, split_of_not_mem nl ht]
    simp

/-- A beginning of a stream of lines: some of the lines, and a beginning of the one after them. -/
theorem split_of_prefix_unlines {ls : List (List α)} (hls : ∀ l ∈ ls, nl ∉ l) {t : List α}
    (ht : t <+: unlines nl ls) :
    (split nl [] t).1 = ls ∧ (split nl [] t).2 = [] ∨
      ∃ l after, ls = (split nl [] t).1 ++ l :: after ∧ (split nl [] t).2 <+: l := by
  obtain ⟨u, hu⟩ := ht
  have hsplit := split_unlines nl hls []
  rw [List.append_nil, ← hu, split_append] at hsplit
  obtain ⟨hlines, hrest⟩ := Prod.mk.inj hsplit
  simp only [split, List.append_nil] at hlines hrest
  rcases split_pending nl (split nl [] t).2 u with ⟨h₁, h₂⟩ | ⟨l, after, hl, hp⟩
  · rw [hrest, List.prefix_nil] at h₂
    rw [h₁, List.append_nil] at hlines
    exact .inl ⟨hlines, h₂⟩
  · exact .inr ⟨l, after, by rw [← hl, hlines], hp⟩

variable (h : σ → List α → Except ε σ)

def feed : σ × List α → List α → Except ε (σ × List α)
  | s, [] => .ok s
  | s, a :: t =>
    if a = nl then h s.1 s.2 >>= fun s' => feed (s', []) t else feed (s.1, s.2 ++ [a]) t

theorem feed_append (s : σ × List α) (t u : List α) :
    feed nl h s (t ++ u) = feed nl h s t >>= fun s' => feed nl h s' u := by
  induction t generalizing s with
  | nil => rfl
  | cons a t ih =>
    simp only [List.cons_append, feed]
    split_ifs
    · cases h s.1 s.2 with
      | error e => rfl
      | ok s' => exact ih _
    · exact ih _

theorem feed_of_not_mem {t : List α} (ht : nl ∉ t) (s : σ) (p : List α) :
    feed nl h (s, p) t = .ok (s, p ++ t) := by
  induction t generalizing p with
  | nil => simp [feed]
  | cons a t ih =>
    rw [List.mem_cons, not_or] at ht
    simp [feed, Ne.symm ht.1, ih ht.2]

theorem feed_line {l : List α} (hl : nl ∉ l) (s : σ) (p t : List α) :
    feed nl h (s, p) (l ++ nl :: t) = h s (p ++ l) >>= fun s' => feed nl h (s', []) t := by
  rw [feed_append, feed_of_not_mem nl h hl]
  simp [feed]

/-- Feeding bytes is running the handler over the lines they complete. -/
theorem feed_eq_foldlM (s : σ) (p t : List α) :
    feed nl h (s, p) t = ((split nl p t).1.foldlM h s).map fun s' => (s', (split nl p t).2) := by
  induction t generalizing s p with
  | nil => rfl
  | cons a t ih =>
    by_cases ha : a = nl
    · simp only [feed, split, ha, ↓reduceIte, List.foldlM_cons, map_bind]
      cases h s p with
      | error e => rfl
      | ok s' => exact ih s' []
    · simp only [feed, split, ha, ↓reduceIte]
      exact ih s (p ++ [a])

theorem feed_rest {s s' : σ} {p p' t : List α} (hs : feed nl h (s, p) t = .ok (s', p')) :
    p' = (split nl p t).2 := by
  rw [feed_eq_foldlM] at hs
  obtain ⟨_, _, he⟩ := map_eq_ok_iff.mp hs
  exact (Prod.mk.inj he).2.symm

end LineFeed
