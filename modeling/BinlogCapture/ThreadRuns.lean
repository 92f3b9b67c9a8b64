import BinlogCapture.Threads
import BinlogCapture.Checkpoints
import Mathlib.Data.List.Nodup

/-! Runs of the two threads: the state in which they begin, the steps that leave the binlogs alone,
and a small binlog to run them on. -/
namespace BinlogCapture
open CString Fallible LineFeed Runs

/-- The state in which `ReadJournal` enters its loop: nothing is printed, and the position is the
one that the XAI file holds, if it holds one. -/
structure World.Begins (w : World) : Prop where
  nodup : w.names.Nodup
  named : [] ∉ w.names
  pc : w.pc = .top
  taken : w.taken = []
  pipe : w.pipe = []
  pending : w.pending = []
  loc : w.loc = {}
  inProgess : w.shared.stBinLogSeqInProgess = .zero
  first : w.shared.stBinLogInfoFirst = .zero
  last : w.shared.stBinLogInfoLast = .zero
  event : w.shared.hEventEndOfBinlog = false
  signalled : w.signalled = false
  xai : ∀ q ∈ w.shared.xai, q = w.shared.stBinLogSeq
  origin : w.origin = w.shared.stBinLogSeq

/-- A step of one of the two threads. -/
def Turn.OfThread : Turn → Prop
  | .appendEvents _ | .appendFile _ => False
  | .journal | .giveUp | .listener => True

section Files
variable {dates : ℕ → DateText} {w w' : World}

theorem files_select (w : World) (names : List Text) : (w.select names).files = w.files := by
  unfold World.select
  dsimp only
  split <;> split <;> rfl

theorem files_readEvent {f : BinlogFile} {info : PrintInfo} {offset : ℕ} {more : List Text}
    (h : w.readEvent f info offset more = some w') : w'.files = w.files := by
  cases World.readOn h with
  | event => rfl
  | fileEnd => rfl

/-- Only the server writes to the binlogs. -/
theorem files_step {turn : Turn} (hturn : turn.OfThread)
    (h : World.step dates w turn = some w') : w'.files = w.files := by
  cases World.stepped h with
  | appendEvents => exact hturn.elim
  | appendFile => exact hturn.elim
  | giveUp => rfl
  | access => rfl
  | take => rfl
  | journal h =>
    simp only [World.journalStep] at h
    split at h
    case h_2 names _ =>
      obtain rfl := Option.some.inj h
      exact files_select w names
    case h_9 =>
      obtain ⟨f, -, rfl⟩ := Option.map_eq_some_iff.mp h
      rfl
    case h_10 =>
      obtain ⟨f, -, h⟩ := Option.bind_eq_some_iff.mp h
      exact files_readEvent h
    case h_13 =>
      split at h
      · obtain rfl := Option.some.inj h
        rfl
      · cases h
    case h_16 => cases h
    all_goals
      obtain rfl := Option.some.inj h
      rfl

theorem files_exec {turns : List Turn} : ∀ {w w' : World}, (∀ turn ∈ turns, turn.OfThread) →
    exec (World.step dates) w turns = some w' → w'.files = w.files := by
  induction turns with
  | nil =>
    intro w w' _ h
    cases h
    rfl
  | cons turn turns ih =>
    intro w w' hturns h
    rw [List.forall_mem_cons] at hturns
    obtain ⟨u, hu, h⟩ := Option.bind_eq_some_iff.mp h
    exact (ih hturns.2 h).trans (files_step hturns.1 hu)

/-- A run of the two threads over binlogs that stay as they are. -/
theorem run_threads {cond : World → Turn → Prop} {turns : List Turn}
    (hcond : ∀ u : World, u.files = w.files → ∀ turn ∈ turns, cond u turn)
    (hturns : ∀ turn ∈ turns, turn.OfThread) (h : exec (World.step dates) w turns = some w') :
    Run (World.step dates) cond w w' := by
  apply Run.exec .start h
  intro before a after u hsplit hu
  have hfiles : u.files = w.files := by
    apply files_exec _ hu
    intro turn hturn
    apply hturns
    rw [hsplit]
    exact List.mem_append_left _ hturn
  apply hcond u hfiles
  rw [hsplit]
  exact List.mem_append_right _ List.mem_cons_self

end Files

/-- A binlog with a statement and the end of a transaction. -/
def statementFile (query : Text) : BinlogFile where
  name := firstName
  description := (⟨1, 256, false, defaultHeader, .formatDescription []⟩, 252)
  events :=
    [(⟨1, 300, false, defaultHeader,
        .query ⟨"\tQuery".toList, newline_not_mem_querySummary⟩ none [] query⟩, 44),
      (⟨1, 331, false, defaultHeader, .xid 7⟩, 31)]
  description_type := isFormatDescription_default
  events_type := by
    intro e he
    rcases List.mem_pair.mp he with rfl | rfl
    all_goals rfl
  events_real := by
    intro e he
    rcases List.mem_pair.mp he with rfl | rfl
    all_goals exact fun ⟨_, _, _, h⟩ => by cases h
  contiguous := by simp [Contiguous, binLogHeaderSize]

/-- A process that begins at the first event of the only binlog. -/
def World.start (f : BinlogFile) : World where
  files := [f]
  shared := { Shared.initial with stBinLogSeq := ⟨f.name, binLogHeaderSize, 0⟩ }
  pc := .top
  ulIndex := 0
  annotateEvent := none
  pipe := []
  loc := {}
  pending := []
  taken := []
  origin := ⟨f.name, binLogHeaderSize, 0⟩
  signalled := false

theorem begins_start (f : BinlogFile) (hf : f.name ≠ []) : (World.start f).Begins where
  nodup := List.nodup_singleton _
  named := by simpa [World.start, World.names] using hf.symm
  pc := rfl
  taken := rfl
  pipe := rfl
  pending := rfl
  loc := rfl
  inProgess := rfl
  first := rfl
  last := rfl
  event := rfl
  signalled := rfl
  xai := List.forall_mem_nil _
  origin := rfl

/-- `ReadJournal` takes `m` steps, then the listener takes `n`. -/
def firstSteps (m n : ℕ) : List Turn := List.replicate m .journal ++ List.replicate n .listener

theorem ofThread_firstSteps (m n : ℕ) : ∀ turn ∈ firstSteps m n, turn.OfThread := by
  intro turn hturn
  rcases List.mem_append.mp hturn with h | h <;> rw [List.eq_of_mem_replicate h] <;> trivial

end BinlogCapture
