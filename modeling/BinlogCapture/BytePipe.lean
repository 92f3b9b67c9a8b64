import BinlogCapture.Threads
import BinlogCapture.Listener

/-! The two threads over a pipe of bytes: `ReadJournal` writes texts, and the listener reads up to
2048 bytes of them at a time into its line buffer. -/
namespace BinlogCapture
open CString Fallible LineFeed

/-- `Listener.lineEnd` up to the accesses to the shared variables, which are left to do. -/
def Listener.lineTaken (env : Env) (s : Listener) (entry line : Text) :
    Except Fault (Listener × Handled) := do
  let s' := s.writeLine env entry
  let h ← handleLine s'.shared.stBinLogSeq s'.loc line
  return ({ s' with loc := h.loc }, h)

/-- The body of the loop over the bytes, as in `Buffered.lineFeed` (`lineFeed_eq_takeLine`). -/
def Buffered.takeLine (env : Env) (s : Buffered) : Except Fault (Buffered × List SharedOp) := do
  let entry := slice s.szBufferStdOut s.startLine (s.work + 1)
  let saved := if s.fLob then strAt s.szBufferStdOut (s.work + 1) else s.szSavedLine
  let buf := if s.fLob then strcpy s.szBufferStdOut 0 s.szLine else s.szBufferStdOut
  let work := if s.fLob then s.szLine.length else s.work
  let buf := poke buf work [nul]
  let (core, h) ← s.core.lineTaken env entry (strAt buf s.startLine)
  let restore := h.column && s.fLob
  let next := if restore then 0 else work + 1
  return ({ s with
    core
    szBufferStdOut := if restore then strcpy buf 0 saved else buf
    szSavedLine := saved
    work := next
    startLine := next
    fLob := s.fLob && !h.column }, h.ops)

/-- The two threads with their pipe. In `world` the fields of the pipe and of the listener are not
used, but for its accesses that are left to do. -/
structure ByteWorld where
  world : World
  pipe : Text
  buffer : Buffered
  /-- The listener is in the loop over the bytes it has read. -/
  scanning : Bool

/-- What `ReadJournal` prints at its next step. -/
def World.printed (dates : ℕ → DateText) (w : World) : Text :=
  match w.pc with
  | .named seq _ =>
    passLine firstBinlogTag seq.szBinLogName (w.ulIndex + 1) (dates (2 * (w.ulIndex + 1)))
  | .opening name pos _ =>
    match w.file name with
    | none => []
    | some f =>
      fileLine startBinlogTag f.name w.ulIndex ++ unlines '\n' startLines ++
        (printEvents w.ulIndex { annotateEvent := w.annotateEvent } (f.resent pos)).2
  | .reading info name offset _ =>
    match w.file name with
    | none => []
    | some f =>
      match f.eventsAt.find? (·.1 = offset) with
      | some (pos, ev) => (printEvent w.ulIndex info pos ev).2
      | none => unlines '\n' endLines ++ fileLine endBinlogTag f.name w.ulIndex
  | .closing name => passLine lastBinlogTag name w.ulIndex (dates (2 * w.ulIndex + 1))
  | _ => []

/-- `GetBuffer`, when `n` bytes are in the pipe for it. -/
def ByteWorld.read (b : ByteWorld) (n : ℕ) : Option ByteWorld :=
  let chunk := piped (b.pipe.take n)
  if n ≤ iLenBufferOut ∧ chunk ≠ [] then
    some { b with
      pipe := b.pipe.drop chunk.length
      buffer := { b.buffer with
        szBufferStdOut := poke b.buffer.szBufferStdOut b.buffer.bufferStart (chunk ++ [nul])
        work := b.buffer.bufferStart }
      scanning := true }
  else none

/-- The loop over the bytes goes on to the next line feed, or to the end of the bytes. -/
def ByteWorld.scan (env : Env) (b : ByteWorld) : Option ByteWorld :=
  let s := b.buffer
  if s.Terminated then
    let t := strAt s.szBufferStdOut s.work
    match strchr '\n' t with
    | none => some { b with
        buffer := Buffered.refill env { s with work := s.work + t.length }
        scanning := false }
    | some (seg, _) =>
      match Buffered.takeLine env { s with
        core := { s.core with shared := b.world.shared }
        work := s.work + seg.length } with
      | .error _ => none
      | .ok (s', ops) => some { b with
          world := { b.world with pending := ops.map .op }
          buffer := s' }
  else none

/-- One step of the listener. `n` is the number of bytes it is given when it reads. -/
def ByteWorld.listenerStep (env : Env) (b : ByteWorld) (n : ℕ) : Option ByteWorld :=
  match b.world.pending with
  | op :: ops =>
    let (g, more) := op.exec b.world.shared
    some { b with world := { b.world with shared := g, pending := more ++ ops } }
  | [] => if b.scanning then b.scan env else b.read n

/-- A step, and the number of bytes of a read. -/
def ByteWorld.step (env : Env) (dates : ℕ → DateText) (b : ByteWorld) : Turn × ℕ → Option ByteWorld
  | (.listener, n) => b.listenerStep env n
  | (turn, _) => (b.world.step dates turn).map fun w => { b with
      world := { w with pipe := [] }
      pipe := b.pipe ++ match turn with
        | .journal => b.world.printed dates
        | _ => [] }

end BinlogCapture
