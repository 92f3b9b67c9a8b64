import BinlogCapture.ByteRefinement
import BinlogCapture.Restarts

/-! The program over all its processes, down to the bytes: whatever the cutting of the pipe into
reads in each of them, what they leave in the capture one after the other leaves no event out. -/
namespace BinlogCapture
open CString Fallible LineFeed Runs Histories

/-- The binlogs, the XAI file, and the bytes that the processes have left in the capture. -/
structure ByteMachine where
  files : List BinlogFile
  xai : XaiFile
  /-- Where the capture has begun. -/
  origin : BinLogInfo
  captured : Text

def ByteMachine.next (m : ByteMachine) : BinLogSequence := (initParam m.xai).toSequence

/-- Nothing is captured yet. -/
structure ByteMachine.Begins (m : ByteMachine) : Prop where
  nodup : (m.files.map BinlogFile.name).Nodup
  named : [] ∉ m.files.map BinlogFile.name
  origin : m.origin = m.next.place
  captured : m.captured = []

/-- One process that reads the pipe byte by byte, and ends at any moment. -/
inductive ByteMachine.Process (env : Env) (dates : ℕ → DateText) (ending : Ending)
    (m : ByteMachine) : ByteMachine → Prop where
  | ends {b₀ b : ByteWorld} {rs : List SequenceRecord} (hbegins : b₀.Begins)
      (hfiles : b₀.world.files = m.files) (hseq : b₀.world.shared.stBinLogSeq = m.next)
      (hxai : b₀.world.shared.xai = []) (hstdio : b₀.buffer.core.capture.stdio = [])
      (hrun : Run (ByteWorld.step env dates)
        (fun b t => (b.world.Plain ∧ b.world.Short) ∧ b.world.PrintsLines env dates t.1) b₀ b)
      (hsaved : b.world.shared.xai = rs.map SequenceRecord.toSequence) : m.Process env dates ending
        { files := b.world.files
          xai := saveAll m.xai rs
          origin := if m.next.szBinLogName = [] then b.world.origin.place else m.origin
          captured := m.captured ++ b.buffer.core.capture.left ending }

/-- One process that leaves every byte it has written: it flushes every write, or it ends through
`exit`. -/
def ByteMachine.Flushes (env : Env) (dates : ℕ → DateText) (m m' : ByteMachine) : Prop :=
  ∃ ending, (ending = .killed → env.lFlush ≠ 0) ∧ m.Process env dates ending m'

/-- The bytes are those of the lines. -/
structure ByteMachine.Shows (m : ByteMachine) (l : Machine) : Prop where
  files : l.files = m.files
  xai : l.xai = m.xai
  origin : l.origin = m.origin
  lines : LinesOf m.captured l.captured

/-- Every event between the origin and the position in the XAI file is a line of the bytes. -/
def ByteMachine.CapturesAll (m : ByteMachine) : Prop :=
  ∀ f ∈ m.files, ∀ e ∈ f.eventsAt, (e.2.marker e.1 0).isSome = true →
    AtOrBefore (m.files.map BinlogFile.name) m.origin ⟨f.name, e.1⟩ →
    AtOrBefore (m.files.map BinlogFile.name) ⟨f.name, e.2.logPos⟩ m.next.place →
    CapturedLine m.captured e

section Bytes
variable {env : Env} {dates : ℕ → DateText} {m m' : ByteMachine} {l : Machine}

theorem ByteMachine.Shows.next (h : m.Shows l) : l.next = m.next := by
  rw [Machine.next, h.xai]
  rfl

theorem stdio_byteScan (hflush : env.lFlush ≠ 0) {b b' : ByteWorld}
    (hstdio : b.buffer.core.capture.stdio = []) (h : b.scan env = some b') :
    b'.buffer.core.capture.stdio = [] := by
  unfold ByteWorld.scan at h
  dsimp only at h
  split at h
  · split at h
    · obtain rfl := Option.some.inj h
      dsimp only [Buffered.refill]
      split_ifs
      · exact stdio_writeLob hflush _
      · exact hstdio
      · exact hstdio
      · exact hstdio
    · split at h
      · cases h
      · next htake =>
        obtain rfl := Option.some.inj h
        obtain ⟨⟨core, hh⟩, htaken, he⟩ := bind_eq_ok_iff.mp htake
        obtain ⟨handled, -, hcore⟩ := bind_eq_ok_iff.mp htaken
        cases hcore
        cases he
        exact stdio_writeLine hflush _
  · cases h

/-- A listener that flushes every write holds nothing back between its steps. -/
theorem stdio_byteStep (hflush : env.lFlush ≠ 0) {b b' : ByteWorld} {t : Turn × ℕ}
    (hstdio : b.buffer.core.capture.stdio = []) (h : b.step env dates t = some b') :
    b'.buffer.core.capture.stdio = [] := by
  obtain ⟨turn, n⟩ := t
  cases turn with
  | listener =>
    unfold ByteWorld.step ByteWorld.listenerStep ByteWorld.read at h
    cases hpending : b.world.pending with
    | cons op ops =>
      rw [hpending] at h
      obtain rfl := Option.some.inj h
      exact hstdio
    | nil =>
      rw [hpending] at h
      dsimp only at h
      split at h
      · exact stdio_byteScan hflush hstdio h
      · split at h
        · obtain rfl := Option.some.inj h
          exact hstdio
        · cases h
  | _ =>
    obtain ⟨v, -, rfl⟩ := Option.map_eq_some_iff.mp h
    exact hstdio

/-- A process over bytes is one over lines. -/
theorem ByteMachine.Shows.process (henv : 2 * iLenBufferOut ≤ env.iMaxBufferLine) (h : m.Shows l)
    (hm : m.Flushes env dates m') : ∃ l', l.Flushes env.lFlush dates l' ∧ m'.Shows l' := by
  obtain ⟨ending, hflush, hm⟩ := hm
  cases hm with
  | @ends b₀ b rs hbegins hfiles hseq hxai hstdio hrun hsaved =>
  have hleft : b.buffer.core.capture.left ending = b.buffer.core.capture.listened := by
    apply left_eq_listened
    intro hkilled
    exact hrun.invariant (fun b => b.buffer.core.capture.stdio = [])
      (fun _ _ _ hs _ hst => stdio_byteStep (hflush hkilled) hs hst) hstdio
  have hcond : ∀ v w : World, ∀ turn : Turn, v.files = w.files → v.Plain ∧ v.Short →
      w.Plain ∧ w.Short := by
    rintro v w turn heq ⟨hplain, hshort⟩
    refine ⟨plain_of_files v w turn heq hplain, ?_⟩
    unfold World.Short at hshort ⊢
    rwa [← heq]
  obtain ⟨w, hw, hrel⟩ :=
    Simulates.run (simulates_lines henv hcond) (hbegins.represents henv) hrun
  have hshared := hrel.shared_eq
  have horigin : w.origin = b.world.origin := by
    rw [hrel.world]
    rfl
  rw [← h.files] at hfiles
  rw [← h.next] at hseq
  rw [← hshared] at hsaved
  refine ⟨_, ⟨ending, hflush, .ends hbegins.world hfiles hseq hxai hw hsaved
    ⟨List.prefix_rfl, fun _ => rfl⟩⟩, ?_⟩
  constructor
  · exact hrel.files_eq
  · rw [h.xai]
  · rw [h.next, horigin, h.origin]
  · have hcapture := hrel.capture
    rw [List.nil_append] at hcapture
    rw [hleft]
    exact h.lines.append ⟨hcapture.symm, hrel.line⟩

theorem ByteMachine.Shows.capturesAll (h : m.Shows l) (hl : l.Complete) : m.CapturesAll := by
  intro f hf e he hmarker hfrom hto
  have hcovers := hl.covers
  rw [h.files, h.origin, h.next] at hcovers
  obtain ⟨x, hx, -, -, hfirst⟩ := hcovers f hf e he hmarker hfrom hto
  refine ⟨x.ulIndex, x.text, ?_, hfirst⟩
  rw [h.lines.completeLines_eq]
  exact List.mem_map_of_mem hx

end Bytes

section Statement

/-- A process that begins in the only binlog at this offset. -/
def ByteWorld.startAt (f : BinlogFile) (ulPosition : ℕ) : ByteWorld :=
  { ByteWorld.start f with world := .startAt f ulPosition }

theorem ByteWorld.begins_startAt (f : BinlogFile) (hf : f.name ≠ []) (ulPosition : ℕ) :
    (ByteWorld.startAt f ulPosition).Begins where
  world := BinlogCapture.begins_startAt f hf ulPosition
  pipe := rfl
  scanning := rfl
  buffer := (ByteWorld.begins_start f hf).buffer

/-- A process over the statement that begins at one position and leaves another one. -/
theorem byteProcess_statement {m : ByteMachine}
    (hfiles : m.files = [statementFile "drop table t".toList]) (ending : Ending) {pos pos' : ℕ}
    {steps : List (Turn × ℕ)} (hpos' : pos' < 256 ^ 4) (hnext : m.next = ⟨firstName, pos, 0⟩)
    (hexec : ((execIf (ByteWorld.step .flushing fun _ => someDate)
      (Goes .flushing fun _ => someDate) (.startAt (statementFile "drop table t".toList) pos)
      steps).map fun b => b.world.shared.xai) = some [⟨firstName, pos', 0⟩]) :
    ∃ m', m.Process .flushing (fun _ => someDate) ending m' ∧ m'.files = m.files ∧
      m'.next = ⟨firstName, pos', 0⟩ := by
  obtain ⟨b, hb, hxai⟩ := Option.map_eq_some_iff.mp hexec
  have hstay : ∀ (b : ByteWorld) (t : Turn × ℕ) (b' : ByteWorld),
      b.world.files = [statementFile "drop table t".toList] →
      Goes .flushing (fun _ => someDate) b t →
      ByteWorld.step .flushing (fun _ => someDate) b t = some b' →
      b'.world.files = [statementFile "drop table t".toList] :=
    fun b t b' hfiles hgoes hstep => (files_byteStep hgoes.1 hstep).trans hfiles
  have hfilesEnd : b.world.files = [statementFile "drop table t".toList] :=
    (Run.execIf .start hb).invariant
      (fun b => b.world.files = [statementFile "drop table t".toList]) hstay rfl
  have hrun : Run (ByteWorld.step .flushing fun _ => someDate)
      (fun b t => (b.world.Plain ∧ b.world.Short) ∧
        b.world.PrintsLines .flushing (fun _ => someDate) t.1)
      (.startAt (statementFile "drop table t".toList) pos) b := by
    apply Run.strengthen (fun b => b.world.files = [statementFile "drop table t".toList]) hstay _
      rfl (Run.execIf .start hb)
    intro b t hfiles hgoes
    refine ⟨?_, hgoes.2⟩
    rw [World.Plain, World.Short, hfiles]
    exact ⟨plain_statementFile (by decide) (by decide),
      List.forall_mem_singleton.mpr (by decide)⟩
  have hsaved : b.world.shared.xai = [firstRecord pos' hpos'].map SequenceRecord.toSequence := by
    rw [hxai, List.map_singleton, toSequence_firstRecord hpos']
  refine ⟨_, .ends (ByteWorld.begins_startAt _ (by decide) pos) hfiles.symm hnext.symm rfl rfl hrun
    hsaved, hfilesEnd.trans hfiles.symm, ?_⟩
  refine (toSequence_initParam m.xai _ hsaved).trans ?_
  rw [Shared.persisted, hxai]
  rfl

theorem execIf_startAt_header : ((execIf (ByteWorld.step .flushing fun _ => someDate)
    (Goes .flushing fun _ => someDate) (.startAt (statementFile "drop table t".toList) 4)
    byteSteps).map fun b => b.world.shared.xai) = some [⟨firstName, 300, 0⟩] := by
  decide +kernel

/-- The end of the transaction is printed, and read in pieces of 100 bytes. -/
def endSteps : List (Turn × ℕ) :=
  List.replicate 8 (.journal, 0) ++ List.replicate 22 (.listener, 100)

theorem execIf_startAt_end : ((execIf (ByteWorld.step .flushing fun _ => someDate)
    (Goes .flushing fun _ => someDate) (.startAt (statementFile "drop table t".toList) 300)
    endSteps).map fun b => b.world.shared.xai) = some [⟨firstName, 331, 0⟩] := by
  decide +kernel

end Statement

end BinlogCapture
