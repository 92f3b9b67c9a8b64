import BinlogCapture.Capture
import BinlogCapture.Lib.LineFeed

/-! `listenBinLogThread`: reads from the pipe into one buffer, the cutting into lines, the
handling of each line, and the refill of the buffer with its separate path for long lines. -/
namespace BinlogCapture
open CString Fallible

/-- `g_iLenBufferOut`: the largest read. -/
def iLenBufferOut : ℕ := 2048

/-- What a line left behind: the line dispatched, the flags and the position after it, the
values given to `SaveInDisk` and what the capture file then still held back. -/
structure LineRecord where
  line : Text
  bStartOfStmt : Bool
  bQueryInProgress : Bool
  bDataColumnInProgress : Bool
  fLob : Bool
  inProgess : BinLogSequence
  saved : List BinLogSequence
  unflushed : Text
  elapsed : Bool
  rotated : Bool
  deriving DecidableEq, Repr

/-- The state of the listener apart from its line buffer. -/
structure Listener where
  loc : Locals
  shared : Shared
  capture : Capture
  startFlush : ℤ
  clockReads : ℕ
  records : List LineRecord
  deriving DecidableEq, Repr

/-- Ten seconds have passed since the last flush of the timer. -/
def Listener.elapsed (env : Env) (s : Listener) : Bool :=
  env.systemTime s.clockReads - s.startFlush ≥ 10 * 10000000

def Listener.rotates (s : Listener) (entry : Text) : Bool :=
  (s.capture.ulCaptureSize + entry.length) % 2 ^ 32 > s.capture.ulCaptureMax

/-- A complete line goes to the capture file, which is flushed and rotated when it is time. -/
def Listener.writeLine (env : Env) (s : Listener) (entry : Text) : Listener :=
  let c := s.capture.write env entry
  let s' :=
    if s.elapsed env then
      { s with
        capture := c.fflush
        startFlush := env.systemTime (s.clockReads + 1)
        clockReads := s.clockReads + 2 }
    else { s with capture := c, clockReads := s.clockReads + 1 }
  if s.rotates entry then { s' with capture := changeJournal env s'.capture } else s'

/-- The record of a line: `s` is the state before it, `s'` the state when it is written. -/
def lineRecord (env : Env) (s s' : Listener) (entry line : Text) (fLob : Bool) (h : Handled) :
    LineRecord where
  line := line
  bStartOfStmt := h.loc.bStartOfStmt
  bQueryInProgress := h.loc.bQueryInProgress
  bDataColumnInProgress := h.loc.bDataColumnInProgress
  fLob := fLob && !h.column
  inProgess := (s.shared.execAll h.ops).stBinLogSeqInProgess
  saved := (s.shared.execAll h.ops).xai.drop s.shared.xai.length
  unflushed := s'.capture.stdio
  elapsed := s.elapsed env
  rotated := s.rotates entry

/-- A line feed: the bytes of the line in the buffer are written, the line is dispatched. -/
def Listener.lineEnd (env : Env) (s : Listener) (entry line : Text) (fLob : Bool) :
    Except Fault (Listener × Bool) := do
  let s' := s.writeLine env entry
  let h ← handleLine s'.shared.stBinLogSeq s'.loc line
  return ({ s' with
      loc := h.loc
      shared := s'.shared.execAll h.ops
      records := s'.records ++ [lineRecord env s s' entry line fLob h] }, h.column)

/-- The part of a column line that fills the buffer is written before the line is complete. -/
def Listener.writeLob (env : Env) (s : Listener) (entry : Text) : Listener :=
  { s with capture := s.capture.write env entry }

structure Buffered where
  core : Listener
  szBufferStdOut : Text
  bufferStart : ℕ
  startLine : ℕ
  work : ℕ
  szLine : Text
  szSavedLine : Text
  fLob : Bool
  deriving DecidableEq, Repr

def slice (mem : Text) (i j : ℕ) : Text := (mem.drop i).take (j - i)

/-- The body of the loop over the bytes when `work` is at a line feed, and the step past it. -/
def Buffered.lineFeed (env : Env) (s : Buffered) : Except Fault Buffered := do
  let entry := slice s.szBufferStdOut s.startLine (s.work + 1)
  let saved := if s.fLob then strAt s.szBufferStdOut (s.work + 1) else s.szSavedLine
  let buf := if s.fLob then strcpy s.szBufferStdOut 0 s.szLine else s.szBufferStdOut
  let work := if s.fLob then s.szLine.length else s.work
  let buf := poke buf work [nul]
  let (core, column) ← s.core.lineEnd env entry (strAt buf s.startLine) s.fLob
  let restore := column && s.fLob
  let next := if restore then 0 else work + 1
  return { s with
    core
    szBufferStdOut := if restore then strcpy buf 0 saved else buf
    szSavedLine := saved
    work := next
    startLine := next
    fLob := s.fLob && !column }

/-- The string from `work` on has its terminator in the buffer. -/
def Buffered.Terminated (s : Buffered) : Prop := nul ∈ s.szBufferStdOut.drop s.work

instance (s : Buffered) : Decidable s.Terminated :=
  inferInstanceAs (Decidable (nul ∈ s.szBufferStdOut.drop s.work))

/-- The loop over the bytes up to the terminating NUL, with fuel for the lines it completes. Without
a NUL it runs out of the buffer. -/
def Buffered.scan (env : Env) : ℕ → Buffered → Except Fault Buffered
  | 0, _ => .error .endless
  | fuel + 1, s =>
    if s.Terminated then
      let t := strAt s.szBufferStdOut s.work
      match strchr '\n' t with
      | none => .ok { s with work := s.work + t.length }
      | some (seg, _) => do
        let s' ← Buffered.lineFeed env { s with work := s.work + seg.length }
        Buffered.scan env fuel s'
    else .error .overrun

section Scan
variable {env : Env} {s s' : Buffered}

theorem terminated_of_eq {p t u : Text} (h : s.szBufferStdOut = p ++ (t ++ nul :: u))
    (hwork : s.work = p.length) : s.Terminated := by
  rw [Buffered.Terminated, h, hwork, List.drop_left]
  exact List.mem_append_right _ List.mem_cons_self

theorem scan_some {r : Text × Text} (h : s.Terminated)
    (hr : strchr '\n' (strAt s.szBufferStdOut s.work) = some r) (fuel : ℕ) :
    s.scan env (fuel + 1) =
      Buffered.lineFeed env { s with work := s.work + r.1.length } >>= Buffered.scan env fuel := by
  simp only [Buffered.scan, if_pos h, hr]

theorem scan_none (h : s.Terminated) (hr : strchr '\n' (strAt s.szBufferStdOut s.work) = none)
    (fuel : ℕ) : s.scan env (fuel + 1) =
      .ok { s with work := s.work + (strAt s.szBufferStdOut s.work).length } := by
  simp only [Buffered.scan, if_pos h, hr]

theorem scan_overrun (h : ¬s.Terminated) (fuel : ℕ) :
    s.scan env (fuel + 1) = .error .overrun := by
  rw [Buffered.scan, if_neg h]

theorem terminated_of_scan {fuel : ℕ} (h : s.scan env fuel = .ok s') : s.Terminated := by
  cases fuel with
  | zero => cases h
  | succ fuel =>
    by_contra hterm
    rw [scan_overrun hterm] at h
    cases h

end Scan

/-- After a read: where the next read goes, and what is done when it may not fit. -/
def Buffered.refill (env : Env) (s : Buffered) : Buffered :=
  if s.work + iLenBufferOut > env.iMaxBufferLine then
    if s.startLine < iLenBufferOut then
      if s.core.loc.bDataColumnInProgress then
        let entry := slice s.szBufferStdOut s.startLine s.work
        { s with
          core := s.core.writeLob env entry
          szLine := strAt entry 0
          fLob := true
          bufferStart := 0
          startLine := 0 }
      else { s with bufferStart := 0, startLine := 0 }
    else
      { s with
        szBufferStdOut := strcpy s.szBufferStdOut 0 (strAt s.szBufferStdOut s.startLine)
        bufferStart := s.work - s.startLine
        startLine := 0 }
  else { s with bufferStart := s.work }

/-- `GetBuffer` and the handling of what it read. -/
def Buffered.read (env : Env) (fuel : ℕ) (s : Buffered) (chunk : Text) : Except Fault Buffered :=
  (Buffered.scan env fuel { s with
    szBufferStdOut := poke s.szBufferStdOut s.bufferStart (chunk ++ [nul])
    work := s.bufferStart }).map (Buffered.refill env)

/-- The byte at which a stream in text mode ends. -/
def ctrlZ : Char := '\x1a'

/-- What `_read` delivers of a text in the pipe, which is open in text mode: from a byte 0x1A on it
finds the end of the pipe, at every later read too. -/
def piped (t : Text) : Text := t.takeWhile (· ≠ ctrlZ)

theorem piped_isPrefix (t : Text) : piped t <+: t := List.takeWhile_prefix _

theorem piped_of_not_mem {t : Text} (h : ctrlZ ∉ t) : piped t = t :=
  List.takeWhile_eq_self_iff.mpr fun c hc => by simpa using fun he : c = ctrlZ => h (he ▸ hc)

theorem piped_append {t : Text} (h : ctrlZ ∉ t) (u : Text) : piped (t ++ u) = t ++ piped u :=
  List.takeWhile_append_of_pos fun c hc => by simpa using fun he : c = ctrlZ => h (he ▸ hc)

/-- A byte 0x1A hides everything behind it. -/
theorem piped_append_of_mem {t : Text} (h : ctrlZ ∈ t) (u : Text) : piped (t ++ u) = piped t := by
  obtain ⟨a, b, rfl, ha⟩ := List.eq_append_cons_of_mem h
  rw [List.append_assoc, piped_append ha, piped_append ha]
  simp [piped]

/-- `listenBinLogThread` over the reads it makes. -/
def listen (env : Env) (fuel : ℕ) (s : Buffered) (chunks : List Text) : Except Fault Buffered :=
  chunks.foldlM (Buffered.read env fuel) s

theorem listen_append (env : Env) (fuel : ℕ) (s : Buffered) (chunks chunks' : List Text) :
    listen env fuel s (chunks ++ chunks') =
      listen env fuel s chunks >>= fun s' => listen env fuel s' chunks' := by
  rw [listen, List.foldlM_append]
  rfl

theorem listen_singleton (env : Env) (fuel : ℕ) (s : Buffered) (chunk : Text) :
    listen env fuel s [chunk] = s.read env fuel chunk := by
  rw [listen, List.foldlM_cons]
  cases s.read env fuel chunk <;> rfl

/-- The state in which the thread enters its loop. -/
def Buffered.start (core : Listener) (mem : Text) : Buffered :=
  { core, szBufferStdOut := mem, bufferStart := 0, startLine := 0, work := 0, szLine := []
    szSavedLine := [], fLob := false }

/-- A listener whose line buffer has no bound handles a line when it is complete. -/
def refLine (env : Env) (s : Listener) (line : Text) : Except Fault Listener :=
  (s.lineEnd env (line ++ ['\n']) line false).map Prod.fst

/-- The default settings, with a clock that stands still. -/
def Env.default : Env where
  lFlush := 0
  lCaptureAndProcess := 0
  iMaxBufferLine := 33 * 1024
  szPath := "C:\\journal".toList
  szJrn := "jrn".toList
  systemTime := fun _ => 0
  dateTime := fun _ => "2020-01-01 00:00:00.000".toList
  dateTime_line := fun _ => by decide

/-- The global variables of a process that finds an empty XAI file. -/
def Shared.initial : Shared where
  stBinLogSeq := .zero
  stBinLogSeqInProgess := .zero
  stBinLogInfoFirst := .zero
  stBinLogInfoLast := .zero
  fStartBinlog := false
  fEndBinlog := false
  fFirstBinlog := false
  fLastBinlog := false
  hEventEndOfBinlog := false
  xai := []

/-- No capture file yet. -/
def Capture.empty : Capture := ⟨[], [], [], 0, 0, 0, 0, []⟩

def Listener.initial (env : Env) : Listener where
  loc := {}
  shared := .initial
  capture := newCapture env { Capture.empty with ulCaptureNum := 1 }
  startFlush := env.systemTime 0
  clockReads := 1
  records := []

section LineEnd
variable (env : Env) (s : Listener)

theorem loc_writeLine (entry : Text) : (s.writeLine env entry).loc = s.loc := by
  unfold Listener.writeLine
  split_ifs <;> rfl

theorem shared_writeLine (entry : Text) : (s.writeLine env entry).shared = s.shared := by
  unfold Listener.writeLine
  split_ifs <;> rfl

theorem records_writeLine (entry : Text) : (s.writeLine env entry).records = s.records := by
  unfold Listener.writeLine
  split_ifs <;> rfl

theorem listened_writeLine (entry : Text) :
    (s.writeLine env entry).capture.listened = s.capture.listened ++ entry := by
  unfold Listener.writeLine
  split_ifs <;> simp

theorem rotates_writeLob (t u : Text) : (s.writeLob env t).rotates u = s.rotates (t ++ u) := by
  simp [Listener.rotates, Listener.writeLob, Nat.add_assoc]

/-- A line whose first part is already written is written to its end. -/
theorem writeLine_writeLob (t u : Text) :
    (s.writeLob env t).writeLine env u = s.writeLine env (t ++ u) := by
  have he : (s.writeLob env t).elapsed env = s.elapsed env := rfl
  simp only [Listener.writeLine, he, rotates_writeLob]
  simp only [Listener.writeLob, Capture.write_write]

theorem writeLob_writeLob (t u : Text) :
    (s.writeLob env t).writeLob env u = s.writeLob env (t ++ u) := by
  simp only [Listener.writeLob, Capture.write_write]

theorem lineEnd_eq (entry line : Text) (fLob : Bool) :
    s.lineEnd env entry line fLob =
      (handleLine s.shared.stBinLogSeq s.loc line).map fun h =>
        ({ s.writeLine env entry with
            loc := h.loc
            shared := s.shared.execAll h.ops
            records := s.records ++
              [lineRecord env s (s.writeLine env entry) entry line fLob h] }, h.column) := by
  unfold Listener.lineEnd
  simp only [shared_writeLine, loc_writeLine, records_writeLine]
  cases handleLine s.shared.stBinLogSeq s.loc line with
  | error e => rfl
  | ok h => rfl

theorem lineEnd_ok_iff (entry line : Text) (fLob : Bool) :
    (∃ r, s.lineEnd env entry line fLob = .ok r) ↔
      Separated (endOfDataColumn s.loc line).1 line := by
  rw [lineEnd_eq, ← handleLine_ok_iff]
  simp only [map_eq_ok_iff]
  exact ⟨fun ⟨_, h, hh, _⟩ => ⟨h, hh⟩, fun ⟨h, hh⟩ => ⟨_, h, hh, rfl⟩⟩

variable {env s} {s' : Listener} {line : Text}

/-- The unbounded listener writes the line, dispatches it, and is never inside a long line. -/
theorem refLine_effect (h : refLine env s line = .ok s') :
    s'.capture.listened = s.capture.listened ++ (line ++ ['\n']) ∧
      ∃ r : LineRecord, s'.records = s.records ++ [r] ∧ r.line = line ∧ r.fLob = false := by
  unfold refLine at h
  rw [lineEnd_eq] at h
  obtain ⟨p, hp, rfl⟩ := map_eq_ok_iff.mp h
  obtain ⟨hh, -, rfl⟩ := map_eq_ok_iff.mp hp
  exact ⟨listened_writeLine env s _, _, rfl, rfl, rfl⟩

theorem refLine_ok_iff : (∃ s', refLine env s line = .ok s') ↔
    Separated (endOfDataColumn s.loc line).1 line := by
  rw [← lineEnd_ok_iff env s (line ++ ['\n']) line false]
  simp only [refLine, map_eq_ok_iff]
  exact ⟨fun ⟨_, r, hr, _⟩ => ⟨r, hr⟩, fun ⟨r, hr⟩ => ⟨_, r, hr, rfl⟩⟩

end LineEnd

end BinlogCapture
