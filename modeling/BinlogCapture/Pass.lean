import BinlogCapture.MarkerPositions
import BinlogCapture.BinlogName

/-! The text of one pass of `ReadJournal`: its frame, the text of `StartReadBinLog` for each file,
and what the whole and each beginning of it make the listener do. -/
namespace BinlogCapture
open CString Fallible LineFeed Trail

/-- The text of events that are printed one after the other. -/
def printEvents (ulIndex : ℕ) : PrintInfo → List (ℕ × LogEvent) → PrintInfo × Text
  | info, [] => (info, [])
  | info, (pos, ev) :: es =>
    let (info, text) := printEvent ulIndex info pos ev
    let (info, rest) := printEvents ulIndex info es
    (info, text ++ rest)

theorem printEvents_append (ulIndex : ℕ) (info : PrintInfo) (es fs : List (ℕ × LogEvent)) :
    printEvents ulIndex info (es ++ fs) =
      ((printEvents ulIndex (printEvents ulIndex info es).1 fs).1,
        (printEvents ulIndex info es).2 ++
          (printEvents ulIndex (printEvents ulIndex info es).1 fs).2) := by
  induction es generalizing info with
  | nil => rfl
  | cons e es ih =>
    obtain ⟨pos, ev⟩ := e
    simp only [List.cons_append, printEvents, ih, List.append_assoc]

/-- What is printed is the text of the printed events. -/
def Printed.Prints (ulIndex : ℕ) (info : PrintInfo) (r : Printed) : Prop :=
  printEvents ulIndex info r.events = (r.info, r.text)

theorem processEvent_prints (ulIndex : ℕ) (info : PrintInfo) (ev : LogEvent) (pos : ℕ) :
    (processEvent ulIndex info ev pos).Prints ulIndex info := by
  unfold processEvent Printed.Prints
  split_ifs
  · rfl
  · simp only [printEvents, List.append_nil]
  · rfl

theorem handleEventTextMode_prints (ulIndex : ℕ) (logname : Text) (info : PrintInfo)
    (oldOff : ℕ) (ev : LogEvent) (len : ℕ) :
    (handleEventTextMode ulIndex logname info oldOff ev len).1.Prints ulIndex info := by
  unfold handleEventTextMode
  cases ev.data with
  | rotate ident lines =>
    dsimp only
    split
    · rfl
    · exact processEvent_prints ulIndex info ev oldOff
  | _ => exact processEvent_prints ulIndex info ev oldOff

theorem dump_prints (ulIndex : ℕ) (logname : Text) (packets : List Packet) :
    ∀ (info : PrintInfo) (oldOff : ℕ),
      (dumpRemoteLogEntries ulIndex logname packets info oldOff).Prints ulIndex info := by
  induction packets with
  | nil => exact fun _ _ => rfl
  | cons packet packets ih =>
    intro info oldOff
    cases packet with
    | event ev size =>
      have hr := handleEventTextMode_prints ulIndex logname info oldOff ev (size + 1)
      unfold dumpRemoteLogEntries
      generalize handleEventTextMode ulIndex logname info oldOff ev (size + 1) = handled at hr ⊢
      obtain ⟨r, len⟩ := handled
      dsimp only at hr ⊢
      cases hs : r.status with
      | okContinue =>
        have hrest := ih r.info (oldOff + (len - 1))
        simp only [Printed.Prints, Printed.append] at hr hrest ⊢
        rw [printEvents_append, hr, hrest]
      | okEof => exact hr
      | okStop => exact hr
      | errorStop => exact hr
    | endOfData => rfl
    | failed => rfl
    | exitApp => rfl

/-- What one call of `StartReadBinLog` prints: the events, each with its position, and whether an
error ended it. -/
structure FileRead where
  szBinLogName : Text
  annotateEvent : Option (Header × Text)
  events : List (ℕ × LogEvent)
  errorStop : Bool
  deriving DecidableEq, Repr

/-- The text up to the events. -/
def FileRead.head (ulIndex : ℕ) (f : FileRead) : Text :=
  fileLine startBinlogTag f.szBinLogName ulIndex ++ unlines '\n' startLines

/-- The text of the first events. -/
def FileRead.body (ulIndex : ℕ) (f : FileRead) (es : List (ℕ × LogEvent)) : Text :=
  (printEvents ulIndex { annotateEvent := f.annotateEvent } es).2

/-- The text behind the events. -/
def FileRead.tail (ulIndex : ℕ) (f : FileRead) : Text :=
  (if f.errorStop then [] else unlines '\n' endLines) ++
    fileLine endBinlogTag f.szBinLogName ulIndex

/-- All that `StartReadBinLog` prints (`startReadBinLog_text`). -/
def FileRead.text (ulIndex : ℕ) (f : FileRead) : Text :=
  f.head ulIndex ++ f.body ulIndex f.events ++ f.tail ulIndex

theorem startReadBinLog_text (ulIndex : ℕ) (logname : Text) (start : ℕ) (packets : List Packet)
    (annotateEvent : Option (Header × Text)) :
    (startReadBinLog ulIndex logname start packets annotateEvent).text =
      FileRead.text ulIndex ⟨logname, annotateEvent,
        (startReadBinLog ulIndex logname start packets annotateEvent).events,
        (startReadBinLog ulIndex logname start packets annotateEvent).status = .errorStop⟩ := by
  have hp := dump_prints ulIndex logname packets { annotateEvent } start
  simp only [Printed.Prints] at hp
  simp only [startReadBinLog, FileRead.text, FileRead.head, FileRead.body, FileRead.tail, hp,
    List.append_assoc, decide_eq_true_eq]

/-- One pass: the reads from the first file on, which begins at `ulPosition`. -/
structure Pass where
  ulIndex : ℕ
  date : DateText
  date' : DateText
  ulPosition : ℕ
  first : FileRead
  more : List FileRead
  deriving DecidableEq

def Pass.files (p : Pass) : List FileRead := p.first :: p.more

/-- `g_StBinLogInfoLast` behind the files. -/
def Pass.last (p : Pass) : FileRead := p.files.getLast (List.cons_ne_nil _ _)

/-- The text in front of a file. -/
def Pass.before (p : Pass) (files : List FileRead) : Text :=
  passLine firstBinlogTag p.first.szBinLogName p.ulIndex p.date ++
    files.flatMap (FileRead.text p.ulIndex)

/-- The text up to some events of a file. -/
def Pass.upTo (p : Pass) (files : List FileRead) (f : FileRead) (es : List (ℕ × LogEvent)) :
    Text :=
  p.before files ++ f.head p.ulIndex ++ f.body p.ulIndex es

def Pass.text (p : Pass) : Text :=
  p.before p.files ++ passLine lastBinlogTag p.last.szBinLogName p.ulIndex p.date'

theorem body_isPrefix (ulIndex : ℕ) (f : FileRead) {es : List (ℕ × LogEvent)}
    (hes : es <+: f.events) : f.body ulIndex es <+: f.body ulIndex f.events := by
  obtain ⟨fs, hfs⟩ := hes
  rw [FileRead.body, FileRead.body, ← hfs, printEvents_append]
  exact List.prefix_append _ _

theorem upTo_isPrefix (p : Pass) {before after : List FileRead} {f : FileRead}
    (hfiles : p.files = before ++ f :: after) {es : List (ℕ × LogEvent)} (hes : es <+: f.events) :
    p.upTo before f es <+: p.text := by
  obtain ⟨rest, hrest⟩ := body_isPrefix p.ulIndex f hes
  rw [Pass.text, hfiles, Pass.before, List.flatMap_append, List.flatMap_cons, FileRead.text,
    ← hrest]
  simp only [Pass.upTo, Pass.before, List.append_assoc]
  simp only [List.prefix_append_right_inj]
  exact List.prefix_append _ _

/-- The lines make the listener do `as`, apart from lines that make it do nothing. -/
def LinesTell (lines : List Text) (as : List Action) : Prop :=
  ∃ bs, LinesAct lines bs ∧ bs.filter (· ≠ .skip) = as

theorem LinesTell.of_isPrefix {lines pre : List Text} {as : List Action} (h : LinesTell lines as)
    (hpre : pre <+: lines) : ∃ as', as' <+: as ∧ LinesTell pre as' := by
  obtain ⟨bs, hbs, rfl⟩ := h
  obtain ⟨bs', hpre', hacts⟩ := LinesAct.of_isPrefix hbs hpre
  exact ⟨_, hpre'.filter _, bs', hacts, rfl⟩

theorem targets_filter (first : Text) (bs : List Action) : ∀ name : Text,
    targets first name (bs.filter (· ≠ .skip)) = targets first name bs ∧
      nameAfter name (bs.filter (· ≠ .skip)) = nameAfter name bs := by
  induction bs with
  | nil => exact fun _ => ⟨rfl, rfl⟩
  | cons b bs ih =>
    intro name
    by_cases hb : b = .skip
    · subst hb
      exact ih name
    · obtain ⟨ht, hn⟩ := ih (b.szBinLogName name)
      rw [List.filter_cons_of_pos (by simpa using hb), targets, targets, ht]
      exact ⟨rfl, hn⟩

/-- A run over lines that tell `as`: it has no fault, and the position in progress moves as
they say. -/
theorem decode_linesTell {lines : List Text} {as : List Action} (h : LinesTell lines as)
    (s : Locals × Shared) :
    ∃ s', lines.foldlM decodeLine s = .ok s' ∧
      s'.1.szBinLogName = nameAfter s.1.szBinLogName as ∧
      Drives s.2 (targets s.2.stBinLogInfoFirst.szBinLogName s.1.szBinLogName as) s'.2 := by
  obtain ⟨bs, hbs, rfl⟩ := h
  obtain ⟨ht, hn⟩ := targets_filter s.2.stBinLogInfoFirst.szBinLogName bs s.1.szBinLogName
  rw [ht, hn]
  exact decode_actions hbs s

/-- The text ends with a line and makes the listener do `as`. -/
structure Tells (t : Text) (as : List Action) : Prop where
  whole : Whole t
  lines : LinesTell (completeLines t) as

theorem Tells.nil : Tells [] [] := ⟨rfl, [], .nil, rfl⟩

theorem Tells.append {t u : Text} {as bs : List Action} (h : Tells t as) (h' : Tells u bs) :
    Tells (t ++ u) (as ++ bs) := by
  obtain ⟨hw, cs, hcs, hfilter⟩ := h
  obtain ⟨hw', ds, hds, hfilter'⟩ := h'
  refine ⟨hw.append hw', cs ++ ds, ?_, ?_⟩
  · rw [completeLines_append hw]
    exact List.rel_append hcs hds
  · rw [List.filter_append, hfilter, hfilter']

theorem completeLines_of_isPrefix {t u : Text} (h : t <+: u) :
    completeLines t <+: completeLines u := by
  obtain ⟨v, rfl⟩ := h
  rw [completeLines, completeLines, split_append]
  exact List.prefix_append _ _

theorem tells_plain {t : Text} (h : Plain [] t []) : Tells t [] := by
  refine ⟨h.whole, _, linesAct_unmarked h.unmarked, ?_⟩
  simp

/-- A line with a marker of its own. -/
theorem tells_line {l : Text} {a : Action} (hl : '\n' ∉ l) (h : Acts l a) (ha : a ≠ .skip) :
    Tells (textLine l) [a] := by
  refine ⟨whole_textLine l, [a], ?_, by simp [ha]⟩
  rw [completeLines_textLine hl]
  exact .cons h .nil

theorem filter_replicate_skip (n : ℕ) :
    (List.replicate n Action.skip).filter (· ≠ .skip) = [] := by
  simp

theorem LogEvent.actions_ne_skip (ev : LogEvent) (pos : ℕ) : .skip ∉ ev.actions pos := by
  unfold LogEvent.actions
  cases ev.data <;> simp

/-- The text of a printed event tells what its marker says. -/
theorem printEvent_tells {info : PrintInfo} (h : InfoPlain info) {ulIndex : ℕ} {ev : LogEvent}
    (hev : ev.TextPlain ulIndex) (pos : ℕ) :
    InfoPlain (printEvent ulIndex info pos ev).1 ∧
      Tells (printEvent ulIndex info pos ev).2 (ev.actions pos) := by
  obtain ⟨hinfo, hwhole, -⟩ := printEvent_lines h hev pos
  obtain ⟨m, n, hacts⟩ := printEvent_acts h hev pos
  refine ⟨hinfo, hwhole, _, hacts, ?_⟩
  have hself : (ev.actions pos).filter (· ≠ .skip) = ev.actions pos := by
    rw [List.filter_eq_self]
    intro a ha
    simpa using fun he : a = .skip => ev.actions_ne_skip pos (he ▸ ha)
  rw [List.filter_append, List.filter_append, filter_replicate_skip, filter_replicate_skip, hself,
    List.append_nil, List.nil_append]

/-- What the markers of printed events make the listener do. -/
def eventActions (es : List (ℕ × LogEvent)) : List Action := es.flatMap fun e => e.2.actions e.1

theorem printEvents_tells {ulIndex : ℕ} (es : List (ℕ × LogEvent)) : ∀ {info : PrintInfo},
    InfoPlain info → (∀ e ∈ es, e.2.TextPlain ulIndex) →
    InfoPlain (printEvents ulIndex info es).1 ∧
      Tells (printEvents ulIndex info es).2 (eventActions es) := by
  induction es with
  | nil => exact fun h _ => ⟨h, .nil⟩
  | cons e es ih =>
    intro info h hes
    rw [List.forall_mem_cons] at hes
    obtain ⟨hinfo, htells⟩ := printEvent_tells h hes.1 e.1
    obtain ⟨hinfo', htells'⟩ := ih hinfo hes.2
    exact ⟨hinfo', htells.append htells'⟩

theorem plain_startLines : Plain [] (unlines '\n' startLines) [] :=
  plain_unlines (by decide)

theorem plain_endLines : Plain [] (unlines '\n' endLines) [] :=
  plain_unlines (by decide)

/-- A binlog name that the lines of a pass and the records of the positions carry. -/
def NamePrints (name : Text) : Prop :=
  '\n' ∉ name ∧ '!' ∉ name ∧ '%' ∉ name ∧ name.length < lenBinLogName

instance (name : Text) : Decidable (NamePrints name) := inferInstanceAs (Decidable (_ ∧ _))

section Frame
variable {name : Text}

theorem newline_not_mem_fileLine {tag : Text} (htag : '\n' ∉ tag) (hname : '\n' ∉ name)
    (ulIndex : ℕ) : '\n' ∉ tag ++ (name ++ '!' :: (decimal ulIndex ++ "!*".toList)) := by
  simp only [List.mem_append, List.mem_cons, not_or]
  exact ⟨htag, hname, by decide, newline_not_mem_decimal ulIndex, by decide⟩

theorem newline_not_mem_passLine {tag : Text} (htag : '\n' ∉ tag) (hname : '\n' ∉ name)
    (ulIndex : ℕ) (date : DateText) :
    '\n' ∉ tag ++ (name ++ '!' :: (decimal ulIndex ++ '!' :: (date.text ++ "!*".toList))) := by
  simp only [List.mem_append, List.mem_cons, not_or]
  exact ⟨htag, hname, by decide, newline_not_mem_decimal ulIndex, by decide,
    newline_not_mem_date date, by decide⟩

theorem tells_startBinlog (h : NamePrints name) (ulIndex : ℕ) :
    Tells (fileLine startBinlogTag name ulIndex) [.startBinlog name] :=
  tells_line (newline_not_mem_fileLine (by decide) h.1 ulIndex) (acts_startBinlog h.2.1 _) (by simp)

theorem tells_endBinlog (h : NamePrints name) (ulIndex : ℕ) :
    Tells (fileLine endBinlogTag name ulIndex) [.endBinlog] :=
  tells_line (newline_not_mem_fileLine (by decide) h.1 ulIndex) (acts_endBinlog _) (by simp)

theorem tells_firstBinlog (h : NamePrints name) (ulIndex : ℕ) (date : DateText) :
    Tells (passLine firstBinlogTag name ulIndex date) [.firstBinlog name] :=
  tells_line (newline_not_mem_passLine (by decide) h.1 ulIndex date) (acts_firstBinlog h.2.1 _)
    (by simp)

theorem tells_lastBinlog (h : NamePrints name) (ulIndex : ℕ) (date : DateText) :
    Tells (passLine lastBinlogTag name ulIndex date) [.lastBinlog] :=
  tells_line (newline_not_mem_passLine (by decide) h.1 ulIndex date) (acts_lastBinlog _) (by simp)

end Frame

/-- The binlog names are carried by their lines, and no other text of the pass looks like a
marker. -/
structure Pass.Plain (p : Pass) : Prop where
  names : ∀ f ∈ p.files, NamePrints f.szBinLogName
  texts : ∀ f ∈ p.files, ∀ e ∈ f.events, e.2.TextPlain p.ulIndex

/-- What the text of a file makes the listener do. -/
def FileRead.actions (f : FileRead) : List Action :=
  .startBinlog f.szBinLogName :: (eventActions f.events ++ [.endBinlog])

section Tells
variable {p : Pass} {f : FileRead} {ulIndex : ℕ}

theorem head_tells (h : NamePrints f.szBinLogName) (ulIndex : ℕ) :
    Tells (f.head ulIndex) [.startBinlog f.szBinLogName] := by
  have ht := (tells_startBinlog h ulIndex).append (tells_plain plain_startLines)
  rwa [List.append_nil] at ht

theorem body_tells {es : List (ℕ × LogEvent)} (h : ∀ e ∈ es, e.2.TextPlain ulIndex) :
    Tells (f.body ulIndex es) (eventActions es) :=
  (printEvents_tells es (infoPlain_start f.annotateEvent) h).2

theorem tail_tells (h : NamePrints f.szBinLogName) (ulIndex : ℕ) :
    Tells (f.tail ulIndex) [.endBinlog] := by
  have hplain : Tells (if f.errorStop then [] else unlines '\n' endLines) [] := by
    split
    · exact .nil
    · exact tells_plain plain_endLines
  exact hplain.append (tells_endBinlog h ulIndex)

theorem file_tells (hname : NamePrints f.szBinLogName)
    (htexts : ∀ e ∈ f.events, e.2.TextPlain ulIndex) : Tells (f.text ulIndex) f.actions :=
  ((head_tells hname ulIndex).append (body_tells htexts)).append (tail_tells hname ulIndex)

theorem before_tells (h : p.Plain) {files : List FileRead} (hfiles : ∀ f ∈ files, f ∈ p.files) :
    Tells (p.before files)
      (.firstBinlog p.first.szBinLogName :: files.flatMap FileRead.actions) := by
  have hall : Tells (files.flatMap (FileRead.text p.ulIndex)) (files.flatMap FileRead.actions) := by
    induction files with
    | nil => exact .nil
    | cons f files ih =>
      rw [List.forall_mem_cons] at hfiles
      exact (file_tells (h.names f hfiles.1) (h.texts f hfiles.1)).append (ih hfiles.2)
  exact (tells_firstBinlog (h.names _ List.mem_cons_self) p.ulIndex p.date).append hall

theorem upTo_tells (h : p.Plain) {before after : List FileRead}
    (hfiles : p.files = before ++ f :: after) {es : List (ℕ × LogEvent)} (hes : es <+: f.events) :
    Tells (p.upTo before f es)
      (.firstBinlog p.first.szBinLogName :: (before.flatMap FileRead.actions ++
        (.startBinlog f.szBinLogName :: eventActions es))) := by
  have hf : f ∈ p.files := by
    rw [hfiles]
    exact List.mem_append_right _ List.mem_cons_self
  have hb := before_tells h fun g hg => by
    rw [hfiles]
    exact List.mem_append_left _ hg
  have ht := (hb.append (head_tells (h.names f hf) p.ulIndex)).append
    (body_tells (f := f) fun e he => h.texts f hf e (hes.subset he))
  simpa [Pass.upTo] using ht

theorem pass_tells (h : p.Plain) : Tells p.text
    (.firstBinlog p.first.szBinLogName :: (p.files.flatMap FileRead.actions ++ [.lastBinlog])) :=
  (before_tells h fun _ hf => hf).append
    (tells_lastBinlog (h.names _ (List.getLast_mem _)) p.ulIndex p.date')

end Tells

end BinlogCapture
