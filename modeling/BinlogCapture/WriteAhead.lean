import BinlogCapture.ListenerRun

/-! The order of the two files: what of the capture is flushed when a position is saved, and what is
left of it when the process ends. -/
namespace BinlogCapture
open CString Fallible

theorem stdio_write_eq_nil_iff {env : Env} {c : Capture} {t : Text} (ht : t ≠ []) :
    (c.write env t).stdio = [] ↔ env.lFlush ≠ 0 := by
  by_cases h : env.lFlush = 0
  · simp [Capture.write, Capture.fwrite, h, ht]
  · simp [Capture.write, h]

/-- After a line the capture holds nothing back exactly if it is flushed at every write, or if
the timer or a rotation flushed it at this line. -/
theorem stdio_writeLine_eq_nil_iff {env : Env} {s : Listener} {t : Text} (ht : t ≠ []) :
    (s.writeLine env t).capture.stdio = [] ↔
      env.lFlush ≠ 0 ∨ s.elapsed env = true ∨ s.rotates t = true := by
  unfold Listener.writeLine
  by_cases hr : s.rotates t = true
  · simp [hr]
  · by_cases he : s.elapsed env = true
    · simp [hr, he]
    · simp [hr, he, stdio_write_eq_nil_iff ht]

/-- The flush state that a record shows agrees with the flushes of its line. -/
def LineRecord.FlushedAsConfigured (env : Env) (r : LineRecord) : Prop :=
  r.unflushed = [] ↔ env.lFlush ≠ 0 ∨ r.elapsed = true ∨ r.rotated = true

theorem step_flushedAsConfigured {env : Env} {s s' : Listener} (h : Listener.Step env s s')
    (hs : ∀ r ∈ s.records, r.FlushedAsConfigured env) :
    ∀ r ∈ s'.records, r.FlushedAsConfigured env := by
  cases h with
  | lob => exact hs
  | @line _ entry text fLob column _ _ h =>
    rw [lineEnd_eq] at h
    obtain ⟨hh, -, he⟩ := map_eq_ok_iff.mp h
    rw [← (Prod.mk.inj he).1]
    intro r hr
    rcases List.mem_append.mp hr with hr | hr
    · exact hs r hr
    · rw [List.mem_singleton.mp hr]
      exact stdio_writeLine_eq_nil_iff (by simp)

/-- Whenever a line saves positions, the capture bytes up to that line are flushed exactly if
`lFlush` is set, or ten seconds have passed, or the capture file is changed at that line. -/
theorem flushed_at_save_iff (env : Env) (fuel : ℕ) (core : Listener) (mem : Text)
    (chunks : List Text) (s : Buffered) (hcore : core.records = [])
    (hrun : listen env fuel (.start core mem) chunks = .ok s) :
    ∀ r ∈ s.core.records, r.saved ≠ [] →
      (r.unflushed = [] ↔ env.lFlush ≠ 0 ∨ r.elapsed = true ∨ r.rotated = true) := by
  have hinv := listen_invariant (fun s => ∀ r ∈ s.records, r.FlushedAsConfigured env)
    (fun s s' h hs => step_flushedAsConfigured h hs) (by simp [hcore]) hrun
  exact fun r hr _ => hinv r hr

/-- How a process ends: through `exit`, where the C library writes out what it holds back, or at
once, at any moment. -/
inductive Ending where
  | exits
  | killed
  deriving DecidableEq, Repr

/-- The bytes of the listener that have left the buffer of the C library. -/
def Capture.flushed (c : Capture) : Text := c.listened.take (c.listened.length - c.stdio.length)

/-- The bytes of the listener that the ended process leaves in the capture files. -/
def Capture.left (c : Capture) : Ending → Text
  | .exits => c.listened
  | .killed => c.flushed

section Left
variable {env : Env} {c : Capture} {s : Listener}

theorem left_eq_listened {ending : Ending} (h : ending = .killed → c.stdio = []) :
    c.left ending = c.listened := by
  cases ending with
  | exits => rfl
  | killed =>
    rw [Capture.left, Capture.flushed, h rfl, List.length_nil, Nat.sub_zero, List.take_length]

theorem stdio_writeLine (hflush : env.lFlush ≠ 0) (t : Text) :
    (s.writeLine env t).capture.stdio = [] := by
  have hwrite : (s.capture.write env t).stdio = [] := by
    simp [Capture.write, hflush]
  unfold Listener.writeLine
  dsimp only
  split_ifs
  · rfl
  · rfl
  · rfl
  · exact hwrite

theorem stdio_writeLob (hflush : env.lFlush ≠ 0) (t : Text) :
    (s.writeLob env t).capture.stdio = [] := by
  simp [Listener.writeLob, Capture.write, hflush]

end Left

/-- The default settings, but with a flush at every write. -/
def Env.flushing : Env := { Env.default with lFlush := 1 }

def commitRun (env : Env) : Except Fault Buffered :=
  listen env 2049 (.start (.initial env) []) ["*!COMMIT!4!31!7!1!*\n".toList]

theorem flushed_at_commit : ∃ s, commitRun .flushing = .ok s ∧
    ∀ r ∈ s.core.records, r.saved ≠ [] →
      (r.unflushed = [] ↔ Env.flushing.lFlush ≠ 0 ∨ r.elapsed = true ∨ r.rotated = true) := by
  have hrun : (commitRun .flushing).map (fun s => s.core.records.map LineRecord.saved) =
      .ok [[⟨[], 31, 0⟩]] := rfl
  obtain ⟨s, hs, -⟩ := map_eq_ok_iff.mp hrun
  exact ⟨s, hs, flushed_at_save_iff .flushing 2049 (.initial .flushing) [] _ s rfl hs⟩

/-- With the default settings a commit is saved before its line has left the buffer. -/
theorem not_flushed_at_commit :
    ¬∀ (env : Env) (fuel : ℕ) (core : Listener) (mem : Text) (chunks : List Text) (s : Buffered),
      core.records = [] → listen env fuel (.start core mem) chunks = .ok s →
      ∀ r ∈ s.core.records, r.saved ≠ [] → r.unflushed = [] := by
  intro h
  have hrun : (commitRun .default).map (fun s => s.core.records.map fun r =>
      (r.saved, r.unflushed)) = .ok [([⟨[], 31, 0⟩], "*!COMMIT!4!31!7!1!*\n".toList)] := rfl
  obtain ⟨s, hs, hrec⟩ := map_eq_ok_iff.mp hrun
  cases hl : s.core.records with
  | nil =>
    rw [hl] at hrec
    simp at hrec
  | cons r rs =>
    rw [hl, List.map_cons, List.cons.injEq, Prod.mk.injEq] at hrec
    have hnil := h .default 2049 (.initial .default) [] _ s rfl hs r (by simp [hl])
      (by rw [hrec.1.1]; simp)
    rw [hrec.1.2] at hnil
    exact absurd hnil (by decide)

end BinlogCapture
