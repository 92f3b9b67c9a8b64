import BinlogCapture.Lib.CString

/-! Global variables that the listener thread and `ReadJournal` share, and the operations
that the line handlers of the listener perform on them. -/
namespace BinlogCapture
open CString

structure BinLogSequence where
  szBinLogName : Text
  ulPosition : ℕ
  ulIndex : ℕ
  deriving DecidableEq, Repr

/-- `memset` of a sequence to zero. -/
def BinLogSequence.zero : BinLogSequence := ⟨[], 0, 0⟩

structure BinLogInfo where
  szBinLogName : Text
  ulPosition : ℕ
  deriving DecidableEq, Repr

def BinLogInfo.zero : BinLogInfo := ⟨[], 0⟩

/-- `BIN_LOG_HEADER_SIZE`: the offset of the first event of a binlog file. -/
def binLogHeaderSize : ℕ := 4

structure Shared where
  stBinLogSeq : BinLogSequence
  stBinLogSeqInProgess : BinLogSequence
  stBinLogInfoFirst : BinLogInfo
  stBinLogInfoLast : BinLogInfo
  fStartBinlog : Bool
  fEndBinlog : Bool
  fFirstBinlog : Bool
  fLastBinlog : Bool
  /-- The auto-reset event `g_hEventEndOfBinlog` is signalled. -/
  hEventEndOfBinlog : Bool
  /-- Records written and flushed to the XAI file by `SaveInDisk`, each over the one before. -/
  xai : List BinLogSequence
  deriving DecidableEq, Repr

def Shared.saveInDisk (g : Shared) (seq : BinLogSequence) : Shared :=
  { g with xai := g.xai ++ [seq] }

/-- The position a new process finds in the XAI file. -/
def Shared.persisted (g : Shared) : Option BinLogSequence := g.xai.getLast?

/-- What a line handler does to the shared variables, in program order. -/
inductive SharedOp where
  | setInProgess (seq : BinLogSequence)
  | saveInDisk (idx : ℕ)
  | startBinlog
  | endBinlog
  | firstBinlog
  | lastBinlog
  /-- `START_BINLOG`: restart at the header unless the file is the first of the pass. -/
  | resetUnlessFirst (szBinLogName : Text)
  /-- `LAST_BINLOG`: publish the position and signal, if the file is the last of the pass. -/
  | publishIfLast (szBinLogName : Text)
  deriving DecidableEq, Repr

def Shared.exec (g : Shared) : SharedOp → Shared
  | .setInProgess seq => { g with stBinLogSeqInProgess := seq }
  | .saveInDisk _ => g.saveInDisk g.stBinLogSeqInProgess
  | .startBinlog => { g with fStartBinlog := true, fEndBinlog := false }
  | .endBinlog => { g with fStartBinlog := false, fEndBinlog := true }
  | .firstBinlog => { g with fFirstBinlog := true, fLastBinlog := false }
  | .lastBinlog => { g with fFirstBinlog := false, fLastBinlog := true }
  | .resetUnlessFirst name =>
    if name ≠ g.stBinLogInfoFirst.szBinLogName then
      { g with stBinLogSeqInProgess := ⟨name, binLogHeaderSize, 0⟩ }
    else g
  | .publishIfLast name =>
    if name = g.stBinLogInfoLast.szBinLogName then
      { g with stBinLogSeq := g.stBinLogSeqInProgess, hEventEndOfBinlog := true }
    else g

def Shared.execAll (g : Shared) (ops : List SharedOp) : Shared := ops.foldl Shared.exec g

@[simp] theorem Shared.execAll_nil (g : Shared) : g.execAll [] = g := rfl

@[simp] theorem Shared.execAll_cons (g : Shared) (op : SharedOp) (ops : List SharedOp) :
    g.execAll (op :: ops) = (g.exec op).execAll ops := rfl

@[simp] theorem Shared.execAll_append (g : Shared) (ops ops' : List SharedOp) :
    g.execAll (ops ++ ops') = (g.execAll ops).execAll ops' := by
  simp [Shared.execAll]

end BinlogCapture
