import BinlogCapture.LineHandler

/-! The capture files: `OpenCapture`, `ChangeJournal`, and the writes of the listener through
the buffer of the C library, which reaches the file at `fflush` or `fclose`. -/
namespace BinlogCapture
open CString Fallible

/-- Directory and name of a journal. -/
structure Journal where
  szPath : Text
  szJrn : Text
  deriving DecidableEq, Repr

/-- Settings, and what the environment answers in the order it is asked: readings of the system
time in units of 100 ns, and results of `GetDateTime`. -/
structure Env extends Journal where
  lFlush : ℤ
  lCaptureAndProcess : ℤ
  iMaxBufferLine : ℕ
  systemTime : ℕ → ℤ
  dateTime : ℕ → Text
  dateTime_line : ∀ n, '\n' ∉ dateTime n

structure CaptureFile where
  szFileName : Text
  contents : Text
  deriving DecidableEq, Repr

structure Capture where
  /-- Files `<journal>_capture_*.jrn` on the disk, in the order in which they are enumerated. -/
  files : List CaptureFile
  szFileName : Text
  /-- Bytes written to the open file that are still in the buffer of the C library. -/
  stdio : Text
  ulCaptureNum : ℕ
  ulCaptureSize : ℕ
  ulCaptureMax : ℕ
  dates : ℕ
  /-- All bytes the listener has written, without the frame lines of the files. -/
  listened : Text
  deriving DecidableEq, Repr

def appendFile (name t : Text) : List CaptureFile → List CaptureFile
  | [] => [⟨name, t⟩]
  | f :: fs =>
    if f.szFileName = name then { f with contents := f.contents ++ t } :: fs
    else f :: appendFile name t fs

def Capture.fwrite (c : Capture) (t : Text) : Capture := { c with stdio := c.stdio ++ t }

def Capture.fflush (c : Capture) : Capture :=
  { c with files := appendFile c.szFileName c.stdio c.files, stdio := [] }

def captureTag : Text := "_capture_".toList

def captureFileName (j : Journal) (num : ℕ) : Text :=
  j.szJrn ++ captureTag ++ decimal010 num ++ ".jrn".toList

def fullName (j : Journal) (name : Text) : Text := j.szPath ++ '\\' :: name

/-- A line `*!SOF!path!num!date!*` or `*!EOF!path!num!date!*`. -/
def frameLine (tag path : Text) (num : ℕ) (date : Text) : Text :=
  "*!".toList ++ tag ++ '!' :: path ++ '!' :: decimal num ++ '!' :: date ++ "!*\n".toList

def sofLine : Text → ℕ → Text → Text := frameLine "SOF".toList
def eofLine : Text → ℕ → Text → Text := frameLine "EOF".toList

/-- `g_ulCaptureMax`, with the product of two 32-bit numbers. -/
def captureMax (env : Env) : ℕ :=
  if env.lCaptureAndProcess > 1 then toULong (1024 * 1000 * env.lCaptureAndProcess)
  else 1024 * 1000 * 1000

/-- The number in the name of a capture file, as `BuildCaptureList` reads it. -/
def captureNum (name : Text) : Except Fault ℕ :=
  match strstr captureTag name with
  | none => .error .separator
  | some t =>
    match strchr '.' t with
    | none => .error .separator
    | some (szNum, _) => .ok (toULong (atol szNum))

/-- `BuildCaptureList`: the enumerated files with their numbers. -/
def buildCaptureList (files : List CaptureFile) : Except Fault (List (Text × ℕ)) :=
  files.mapM fun f => (captureNum f.szFileName).map fun n => (f.szFileName, n)

/-- `OpenCapture(false)` up to the opening of the new file: mark the end of the last file. -/
def restartCapture (env : Env) (c : Capture) : Except Fault Capture := do
  let list ← buildCaptureList c.files
  match list.getLast? with
  | none => return { c with ulCaptureNum := 1 }
  | some (name, ulNum) =>
    let num := (ulNum + 1) % 2 ^ 32
    let eof := eofLine (fullName env.toJournal name) num (env.dateTime c.dates)
    return { c with
      ulCaptureNum := num
      files := appendFile name eof c.files
      dates := c.dates + 1 }

/-- `OpenCapture(true)` up to the opening of the new file. -/
def changeCapture (env : Env) (c : Capture) : Capture :=
  let num := (c.ulCaptureNum + 1) % 2 ^ 32
  let eof := eofLine (fullName env.toJournal c.szFileName) num (env.dateTime c.dates)
  ({ c with ulCaptureNum := num, dates := c.dates + 1 }.fwrite eof).fflush

/-- The opening of the file of the current number, with its first line. -/
def newCapture (env : Env) (c : Capture) : Capture :=
  let name := captureFileName env.toJournal c.ulCaptureNum
  let sof := sofLine (fullName env.toJournal name) c.ulCaptureNum (env.dateTime c.dates)
  ({ c with
      szFileName := name
      ulCaptureSize := sof.length
      ulCaptureMax := captureMax env
      dates := c.dates + 1 }.fwrite sof).fflush

def openCapture (env : Env) (c : Capture) (fChange : Bool) : Except Fault Capture :=
  if fChange then .ok (newCapture env (changeCapture env c))
  else (restartCapture env c).map (newCapture env)

/-- `ChangeJournal`: flush, then `OpenCapture(true)`. -/
def changeJournal (env : Env) (c : Capture) : Capture :=
  newCapture env (changeCapture env c.fflush)

theorem openCapture_change (env : Env) (c : Capture) :
    openCapture env c.fflush true = .ok (changeJournal env c) := rfl

/-- A write of the listener: `fwrite`, `fflush` when it is configured, and the new size. -/
def Capture.write (env : Env) (c : Capture) (t : Text) : Capture :=
  let c := { c.fwrite t with listened := c.listened ++ t }
  let c := if env.lFlush ≠ 0 then c.fflush else c
  { c with ulCaptureSize := (c.ulCaptureSize + t.length) % 2 ^ 32 }

theorem appendFile_appendFile (name t u : Text) (fs : List CaptureFile) :
    appendFile name u (appendFile name t fs) = appendFile name (t ++ u) fs := by
  induction fs with
  | nil => simp [appendFile]
  | cons f fs ih =>
    by_cases hf : f.szFileName = name
    · simp [appendFile, hf]
    · simp [appendFile, hf, ih]

section Write
variable (env : Env) (c : Capture) (t u : Text)

@[simp] theorem Capture.listened_fwrite : (c.fwrite t).listened = c.listened := rfl
@[simp] theorem Capture.listened_fflush : c.fflush.listened = c.listened := rfl
@[simp] theorem Capture.stdio_fflush : c.fflush.stdio = [] := rfl
@[simp] theorem Capture.ulCaptureSize_fflush : c.fflush.ulCaptureSize = c.ulCaptureSize := rfl
@[simp] theorem Capture.ulCaptureMax_fflush : c.fflush.ulCaptureMax = c.ulCaptureMax := rfl

@[simp] theorem Capture.listened_write : (c.write env t).listened = c.listened ++ t := by
  unfold Capture.write
  split <;> rfl

@[simp] theorem Capture.ulCaptureSize_write :
    (c.write env t).ulCaptureSize = (c.ulCaptureSize + t.length) % 2 ^ 32 := by
  unfold Capture.write
  split <;> rfl

@[simp] theorem Capture.ulCaptureMax_write : (c.write env t).ulCaptureMax = c.ulCaptureMax := by
  unfold Capture.write
  split <;> rfl

/-- A line written in two parts is the line written at once. -/
theorem Capture.write_write : (c.write env t).write env u = c.write env (t ++ u) := by
  by_cases h : env.lFlush = 0
  · simp [Capture.write, Capture.fwrite, h, Nat.add_assoc]
  · simp [Capture.write, Capture.fwrite, Capture.fflush, h, Nat.add_assoc, appendFile_appendFile]

@[simp] theorem listened_changeJournal : (changeJournal env c).listened = c.listened := rfl

@[simp] theorem stdio_changeJournal : (changeJournal env c).stdio = [] := rfl

end Write

end BinlogCapture
