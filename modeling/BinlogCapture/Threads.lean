import BinlogCapture.Pass
import BinlogCapture.Lib.Runs

/-! `ReadJournal` and the listener as two threads: they share the sequences and the event, and the
lines printed by the one reach the other through the pipe. The server appends to its binlog at any
moment. Every access to a shared variable is a step of its own. -/
namespace BinlogCapture
open CString Fallible LineFeed Runs

/-- Where a line of the pipe comes from. No step reads this: it says what the line is about. -/
inductive Source where
  /-- The first line of a pass that begins at this offset. -/
  | first (pos : ℕ)
  | start
  /-- The first line of an event at this offset. -/
  | event (pos : ℕ) (ev : LogEvent)
  | marker (pos : ℕ) (ev : LogEvent)
  | text
  | end_
  | last
  deriving DecidableEq, Repr

structure PrintedLine where
  ulIndex : ℕ
  szBinLogName : Text
  source : Source
  text : Text
  deriving DecidableEq, Repr

/-- What is left of the line that the listener handles. -/
inductive ThreadOp where
  | op (op : SharedOp)
  /-- `SaveInDisk` has read this sequence. -/
  | writeXai (seq : BinLogSequence)
  /-- The copy of `LAST_BINLOG`, before and behind its reading. -/
  | copySeq
  | writeSeq (seq : BinLogSequence)
  | signal
  deriving DecidableEq, Repr

/-- One access of the listener to the shared variables, and what is left to do behind it. The
accesses of a line, one after the other, are what its handler does at once (`finishes_execAll`). -/
def ThreadOp.exec (g : Shared) : ThreadOp → Shared × List ThreadOp
  | .op (.setInProgess seq) => (g.exec (.setInProgess seq), [])
  | .op (.saveInDisk _) => (g, [.writeXai g.stBinLogSeqInProgess])
  | .op .startBinlog => (g.exec .startBinlog, [])
  | .op .endBinlog => (g.exec .endBinlog, [])
  | .op .firstBinlog => (g.exec .firstBinlog, [])
  | .op .lastBinlog => (g.exec .lastBinlog, [])
  | .op (.resetUnlessFirst name) =>
    (g, if name ≠ g.stBinLogInfoFirst.szBinLogName then
        [.op (.setInProgess ⟨name, binLogHeaderSize, 0⟩)] else [])
  | .op (.publishIfLast name) =>
    (g, if name = g.stBinLogInfoLast.szBinLogName then [.copySeq, .signal] else [])
  | .writeXai seq => (g.saveInDisk seq, [])
  | .copySeq => (g, [.writeSeq g.stBinLogSeqInProgess])
  | .writeSeq seq => ({ g with stBinLogSeq := seq }, [])
  | .signal => ({ g with hEventEndOfBinlog := true }, [])

/-- The listener alone: what is left, up to its end. -/
inductive Finishes : Shared → List ThreadOp → Shared → Prop where
  | done (g : Shared) : Finishes g [] g
  | step {g g' : Shared} {op : ThreadOp} {ops : List ThreadOp}
      (h : Finishes (op.exec g).1 ((op.exec g).2 ++ ops) g') : Finishes g (op :: ops) g'

/-- Without a step of the other thread, the accesses do what the handler does at once. -/
theorem finishes_execAll (ops : List SharedOp) : ∀ g : Shared,
    Finishes g (ops.map .op) (g.execAll ops) := by
  induction ops with
  | nil => exact fun g => .done g
  | cons op ops ih =>
    intro g
    rw [List.map_cons, Shared.execAll_cons]
    have hrest := ih (g.exec op)
    cases op with
    | saveInDisk idx => exact .step (.step hrest)
    | resetUnlessFirst name =>
      by_cases hname : name ≠ g.stBinLogInfoFirst.szBinLogName
      · simp only [Shared.exec, if_pos hname] at hrest ⊢
        refine .step ?_
        simp only [ThreadOp.exec, if_pos hname]
        exact .step hrest
      · simp only [Shared.exec, if_neg hname] at hrest ⊢
        refine .step ?_
        simp only [ThreadOp.exec, if_neg hname]
        exact hrest
    | publishIfLast name =>
      by_cases hname : name = g.stBinLogInfoLast.szBinLogName
      · simp only [Shared.exec, if_pos hname] at hrest ⊢
        refine .step ?_
        simp only [ThreadOp.exec, if_pos hname]
        exact .step (.step (.step hrest))
      · simp only [Shared.exec, if_neg hname] at hrest ⊢
        refine .step ?_
        simp only [ThreadOp.exec, if_neg hname]
        exact hrest
    | _ => exact .step hrest

/-- Where `ReadJournal` stands. `more` are the names of the list of binlogs behind the current one.
-/
inductive JournalPc where
  | top
  /-- The list of binlogs is loaded. -/
  | loaded (names : List Text)
  /-- `LoadMasterStatus` has answered. -/
  | status (seq : BinLogSequence)
  | saving
  | found (seq : BinLogSequence) (more : List Text)
  /-- The first and the last file of the pass are cleared. -/
  | cleared (seq : BinLogSequence) (more : List Text)
  | named (seq : BinLogSequence) (more : List Text)
  /-- `FIRST_BINLOG` is printed. -/
  | begun (seq : BinLogSequence) (more : List Text)
  | opening (szBinLogName : Text) (ulPosition : ℕ) (more : List Text)
  | reading (info : PrintInfo) (szBinLogName : Text) (offset : ℕ) (more : List Text)
  /-- The loop over the files has ended. -/
  | ended (szBinLogName : Text)
  | closing (szBinLogName : Text)
  | waiting
  | gaveUp
  /-- The position in progress is read for the copy. -/
  | copying (seq : BinLogSequence)
  | stopped
  deriving DecidableEq

/-- The two threads, the pipe between them, and the server. -/
structure World where
  files : List BinlogFile
  shared : Shared
  pc : JournalPc
  ulIndex : ℕ
  annotateEvent : Option (Header × Text)
  pipe : List PrintedLine
  loc : Locals
  /-- What the listener has still to do for the line it handles. -/
  pending : List ThreadOp
  /-- The lines the listener has taken from the pipe; each is written to the capture when it is
  taken. -/
  taken : List PrintedLine
  /-- Where the capture has begun. -/
  origin : BinLogSequence
  /-- The last wait has ended with the event, and the position is not that of the server. -/
  signalled : Bool

def World.names (w : World) : List Text := w.files.map BinlogFile.name

/-- The events of a file at their offsets. -/
def BinlogFile.eventsAt (f : BinlogFile) : List (ℕ × LogEvent) := offsets binLogHeaderSize f.stored

def BinlogFile.size (f : BinlogFile) : ℕ := endOffset binLogHeaderSize f.stored

def World.file (w : World) (name : Text) : Option BinlogFile := w.files.find? (·.name = name)

/-- The lines of a text that carry no marker of an event. -/
def plainLines (ulIndex : ℕ) (name t : Text) : List PrintedLine :=
  (completeLines t).map fun l => ⟨ulIndex, name, .text, l⟩

/-- The first line carries the source. -/
def headLines (ulIndex : ℕ) (name : Text) (source : Source) (t : Text) : List PrintedLine :=
  match completeLines t with
  | [] => []
  | l :: ls => ⟨ulIndex, name, source, l⟩ :: ls.map fun l => ⟨ulIndex, name, .text, l⟩

/-- The lines of a printed event. -/
def eventLines (ulIndex : ℕ) (name : Text) (info : PrintInfo) (pos : ℕ) (ev : LogEvent) :
    List PrintedLine :=
  let (info, before) := printBefore info ev
  headLines ulIndex name (.event pos ev) (printAt pos) ++ plainLines ulIndex name before ++
    headLines ulIndex name (.marker pos ev) ((ev.marker pos ulIndex).getD []) ++
    plainLines ulIndex name (printAfter info ev).2

/-- The `Format_description` event that the server sends again for a later offset. -/
def BinlogFile.resent (f : BinlogFile) (pos : ℕ) : List (ℕ × LogEvent) :=
  if pos = binLogHeaderSize then [] else [(pos, f.description.1)]

/-- The entry of a file of the pass: `ReadJournal` has set the position of its first file. -/
def World.entry (w : World) (name : Text) : BinLogInfo where
  szBinLogName := name
  ulPosition :=
    if name = w.shared.stBinLogInfoFirst.szBinLogName then w.shared.stBinLogInfoFirst.ulPosition
    else binLogHeaderSize

section Journal
variable (dates : ℕ → DateText)

/-- The beginning of a pass: where the position is found in the list of binlogs, or the position of
the server when there is none. -/
def World.select (w : World) (names : List Text) : World :=
  let seq := w.shared.stBinLogSeq
  if seq.szBinLogName = [] then
    match w.files.getLast? with
    | none => { w with pc := .top }
    | some f => { w with pc := .status ⟨f.name, f.size, 0⟩ }
  else
    match names.dropWhile (· ≠ seq.szBinLogName) with
    | [] => { w with pc := .stopped }
    | _ :: more => { w with pc := .found seq more }

def World.printFirst (w : World) (seq : BinLogSequence) (more : List Text) : World :=
  let ulIndex := w.ulIndex + 1
  { w with
    ulIndex := ulIndex
    pipe := w.pipe ++ headLines ulIndex seq.szBinLogName (.first seq.ulPosition)
      (passLine firstBinlogTag seq.szBinLogName ulIndex (dates (2 * ulIndex)))
    pc := .begun seq more }

/-- The beginning of `StartReadBinLog`, up to the first event of the file. -/
def World.openFile (w : World) (f : BinlogFile) (pos : ℕ) (more : List Text) : World :=
  let info : PrintInfo := { annotateEvent := w.annotateEvent }
  let (info, text) := printEvents w.ulIndex info (f.resent pos)
  { w with
    pipe := w.pipe ++ headLines w.ulIndex f.name .start
        (fileLine startBinlogTag f.name w.ulIndex) ++
      plainLines w.ulIndex f.name (unlines '\n' startLines) ++ plainLines w.ulIndex f.name text
    pc := .reading info f.name pos more }

/-- The event at the offset is printed, or the file ends there. -/
def World.readEvent (w : World) (f : BinlogFile) (info : PrintInfo) (offset : ℕ)
    (more : List Text) : Option World :=
  match f.eventsAt.find? (·.1 = offset) with
  | some (pos, ev) => some { w with
      pipe := w.pipe ++ eventLines w.ulIndex f.name info pos ev
      pc := .reading (printEvent w.ulIndex info pos ev).1 f.name ev.logPos more }
  | none =>
    if offset = f.size then some { w with
      pipe := w.pipe ++ plainLines w.ulIndex f.name (unlines '\n' endLines) ++
        headLines w.ulIndex f.name .end_ (fileLine endBinlogTag f.name w.ulIndex)
      annotateEvent := info.annotateEvent
      pc := match more with
        | [] => .ended f.name
        | name :: more => .opening name binLogHeaderSize more }
    else none

/-- One step of `ReadJournal`. -/
def World.journalStep (w : World) : Option World :=
  match w.pc with
  | .top => some { w with
      shared := { w.shared with
        fStartBinlog := false
        fEndBinlog := false
        fFirstBinlog := false
        fLastBinlog := false }
      pc := .loaded w.names }
  | .loaded names => some (w.select names)
  | .status seq => some { w with
      shared := { w.shared with stBinLogSeq := seq }
      origin := seq
      signalled := false
      pc := .saving }
  | .saving => some { w with shared := w.shared.saveInDisk w.shared.stBinLogSeq, pc := .top }
  | .found seq more => some { w with
      shared := { w.shared with stBinLogInfoFirst := .zero, stBinLogInfoLast := .zero }
      pc := .cleared seq more }
  | .cleared seq more => some { w with
      shared := { w.shared with stBinLogInfoFirst := ⟨seq.szBinLogName, seq.ulPosition⟩ }
      pc := .named seq more }
  | .named seq more => some (w.printFirst dates seq more)
  | .begun seq more => some { w with
      shared := { w.shared with
        stBinLogSeqInProgess := ⟨seq.szBinLogName, seq.ulPosition, 0⟩ }
      pc := .opening seq.szBinLogName seq.ulPosition more }
  | .opening name pos more => (w.file name).map fun f => w.openFile f pos more
  | .reading info name offset more => (w.file name).bind fun f => w.readEvent f info offset more
  | .ended name => some { w with
      shared := { w.shared with stBinLogInfoLast := w.entry name }
      pc := .closing name }
  | .closing name => some { w with
      pipe := w.pipe ++ headLines w.ulIndex name .last
        (passLine lastBinlogTag name w.ulIndex (dates (2 * w.ulIndex + 1)))
      pc := .waiting }
  | .waiting =>
    if w.shared.hEventEndOfBinlog then some { w with
      shared := { w.shared with hEventEndOfBinlog := false }
      signalled := true
      pc := .top }
    else none
  | .gaveUp => some { w with pc := .copying w.shared.stBinLogSeqInProgess }
  | .copying seq => some { w with shared := { w.shared with stBinLogSeq := seq }, pc := .top }
  | .stopped => none

end Journal

/-- One step of the listener: an access that is left, or the next line. -/
def World.listenerStep (w : World) : Option World :=
  match w.pending with
  | op :: ops =>
    let (g, more) := op.exec w.shared
    some { w with shared := g, pending := more ++ ops }
  | [] =>
    match w.pipe with
    | [] => none
    | line :: pipe =>
      match handleLine w.shared.stBinLogSeq w.loc line.text with
      | .error _ => none
      | .ok h => some { w with
          pipe := pipe
          loc := h.loc
          pending := h.ops.map .op
          taken := w.taken ++ [line] }

/-- The steps of the system: the server writes to its last file or begins another one, a thread goes
on, or `ReadJournal` gives up its wait, which the event does not end. -/
inductive Turn where
  | appendEvents (f : BinlogFile)
  | appendFile (f : BinlogFile)
  | journal
  | giveUp
  | listener

def World.step (dates : ℕ → DateText) (w : World) : Turn → Option World
  | .appendEvents f =>
    w.files.getLast?.bind fun g =>
      if f.name = g.name ∧ f.description = g.description ∧ g.events <+: f.events then
        some { w with files := w.files.dropLast ++ [f] }
      else none
  | .appendFile f =>
    if f.name ≠ [] ∧ f.name ∉ w.names then some { w with files := w.files ++ [f] } else none
  | .journal => w.journalStep dates
  | .giveUp =>
    if w.pc = .waiting ∧ w.shared.hEventEndOfBinlog = false then
      some { w with signalled := false, pc := .gaveUp }
    else none
  | .listener => w.listenerStep

/-- What a read has done: the event at the offset is printed, or the file ends there. -/
inductive World.ReadOn (w : World) (f : BinlogFile) (info : PrintInfo) (offset : ℕ)
    (more : List Text) : World → Prop where
  | event {ev : LogEvent} (he : (offset, ev) ∈ f.eventsAt) : w.ReadOn f info offset more { w with
      pipe := w.pipe ++ eventLines w.ulIndex f.name info offset ev
      pc := .reading (printEvent w.ulIndex info offset ev).1 f.name ev.logPos more }
  | fileEnd (hsize : offset = f.size) : w.ReadOn f info offset more { w with
      pipe := w.pipe ++ plainLines w.ulIndex f.name (unlines '\n' endLines) ++
        headLines w.ulIndex f.name .end_ (fileLine endBinlogTag f.name w.ulIndex)
      annotateEvent := info.annotateEvent
      pc := match more with
        | [] => .ended f.name
        | name :: more => .opening name binLogHeaderSize more }

/-- What a step has done. -/
inductive World.Stepped (dates : ℕ → DateText) (w : World) : Turn → World → Prop where
  | appendEvents {f g : BinlogFile} (hlast : w.files.getLast? = some g) (hname : f.name = g.name)
      (hdescription : f.description = g.description) (hevents : g.events <+: f.events) :
      w.Stepped dates (.appendEvents f) { w with files := w.files.dropLast ++ [f] }
  | appendFile {f : BinlogFile} (hname : f.name ≠ []) (hnew : f.name ∉ w.names) :
      w.Stepped dates (.appendFile f) { w with files := w.files ++ [f] }
  | journal {w' : World} (hw : w.journalStep dates = some w') : w.Stepped dates .journal w'
  | giveUp (hpc : w.pc = .waiting) (hevent : w.shared.hEventEndOfBinlog = false) :
      w.Stepped dates .giveUp { w with signalled := false, pc := .gaveUp }
  | access {op : ThreadOp} {ops : List ThreadOp} (hpending : w.pending = op :: ops) :
      w.Stepped dates .listener { w with
        shared := (op.exec w.shared).1, pending := (op.exec w.shared).2 ++ ops }
  | take {x : PrintedLine} {pipe : List PrintedLine} {hh : Handled} (hpending : w.pending = [])
      (hpipe : w.pipe = x :: pipe) (hline : handleLine w.shared.stBinLogSeq w.loc x.text = .ok hh) :
      w.Stepped dates .listener { w with
        pipe := pipe, loc := hh.loc, pending := hh.ops.map .op, taken := w.taken ++ [x] }

section Inversion
variable {w w' : World}

theorem World.readOn {f : BinlogFile} {info : PrintInfo} {offset : ℕ} {more : List Text}
    (hw : w.readEvent f info offset more = some w') : w.ReadOn f info offset more w' := by
  unfold World.readEvent at hw
  cases hfind : f.eventsAt.find? (·.1 = offset) with
  | some e =>
    obtain ⟨pos, ev⟩ := e
    have he := List.mem_of_find?_eq_some hfind
    obtain rfl : pos = offset := by simpa using List.find?_some hfind
    rw [hfind] at hw
    obtain rfl := Option.some.inj hw
    exact .event he
  | none =>
    rw [hfind] at hw
    dsimp only at hw
    split at hw
    case isFalse => cases hw
    case isTrue hsize =>
      obtain rfl := Option.some.inj hw
      exact .fileEnd hsize

theorem World.stepped {dates : ℕ → DateText} {turn : Turn}
    (hw : World.step dates w turn = some w') : w.Stepped dates turn w' := by
  cases turn with
  | appendEvents f =>
    obtain ⟨g, hlast, hw⟩ := Option.bind_eq_some_iff.mp hw
    split at hw
    case isFalse => cases hw
    case isTrue hf =>
      obtain rfl := Option.some.inj hw
      exact .appendEvents hlast hf.1 hf.2.1 hf.2.2
  | appendFile f =>
    simp only [World.step] at hw
    split at hw
    case isFalse => cases hw
    case isTrue hf =>
      obtain rfl := Option.some.inj hw
      exact .appendFile hf.1 hf.2
  | journal => exact .journal hw
  | giveUp =>
    simp only [World.step] at hw
    split at hw
    case isFalse => cases hw
    case isTrue hpc =>
      obtain rfl := Option.some.inj hw
      exact .giveUp hpc.1 hpc.2
  | listener =>
    simp only [World.step, World.listenerStep] at hw
    split at hw
    case h_1 op ops hpending =>
      obtain rfl := Option.some.inj hw
      exact .access hpending
    case h_2 hpending =>
      split at hw
      case h_1 => cases hw
      case h_2 x pipe hpipe =>
        split at hw
        case h_1 => cases hw
        case h_2 hh hline =>
          obtain rfl := Option.some.inj hw
          exact .take hpending hpipe hline

end Inversion

end BinlogCapture
