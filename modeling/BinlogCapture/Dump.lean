import BinlogCapture.LogEvent

/-! `dump_remote_log_entries` over the packets of the server, `StartReadBinLog` around it, and the
markers of a file that is read from one of its event boundaries. -/
namespace BinlogCapture
open CString LineFeed

/-- What the loop over the packets meets: an event of `size` bytes, the end of the data, a packet
that cannot be read or holds no event, or the exit flag. -/
inductive Packet where
  | event (ev : LogEvent) (size : ℕ)
  | endOfData
  | failed
  | exitApp
  deriving DecidableEq, Repr

/-- `handle_event_text_mode`, with the length by which it lets the loop advance. -/
def handleEventTextMode (ulIndex : ℕ) (logname : Text) (info : PrintInfo) (oldOff : ℕ)
    (ev : LogEvent) (len : ℕ) : Printed × ℕ :=
  match ev.data with
  | .rotate newLogIdent _ =>
    if ev.when = 0 then (⟨if newLogIdent ≠ logname then .okEof else .okContinue, info, [], []⟩, 1)
    else (processEvent ulIndex info ev oldOff, len)
  | .formatDescription _ =>
    (processEvent ulIndex info ev oldOff, if oldOff ≠ binLogHeaderSize then 1 else len)
  | _ => (processEvent ulIndex info ev oldOff, len)

def Printed.append (r s : Printed) : Printed :=
  { s with text := r.text ++ s.text, events := r.events ++ s.events }

/-- The markers in the printed text, each with the position given to `process_event`. -/
def Printed.markers (ulIndex : ℕ) (r : Printed) : List (ℕ × Text) :=
  r.events.filterMap fun p => (p.2.marker p.1 ulIndex).map fun t => (p.1, t)

def dumpRemoteLogEntries (ulIndex : ℕ) (logname : Text) :
    List Packet → PrintInfo → ℕ → Printed
  | [], info, _ => ⟨.errorStop, info, [], []⟩
  | .failed :: _, info, _ => ⟨.errorStop, info, [], []⟩
  | .exitApp :: _, info, _ => ⟨.okStop, info, [], []⟩
  | .endOfData :: _, info, _ => ⟨.okContinue, info, [], []⟩
  | .event ev size :: packets, info, oldOff =>
    let (r, len) := handleEventTextMode ulIndex logname info oldOff ev (size + 1)
    match r.status with
    | .okContinue =>
      r.append (dumpRemoteLogEntries ulIndex logname packets r.info (oldOff + (len - 1)))
    | .okEof => { r with status := .okContinue }
    | .okStop | .errorStop => r

/-- The lines printed in front of the events of a file, behind its `START_BINLOG`. -/
def startLines : List Text :=
  ["/*!50530 SET @@SESSION.PSEUDO_SLAVE_MODE=1*/;".toList,
    "/*!40019 SET @@session.max_insert_delayed_threads=0*/;".toList,
    "/*!50003 SET @OLD_COMPLETION_TYPE=@@COMPLETION_TYPE,COMPLETION_TYPE=0*/;".toList,
    "DELIMITER /*!*/;".toList]

/-- The lines printed behind the events when they were not cut off by an error. -/
def endLines : List Text :=
  ["DELIMITER ;".toList,
    "# End of log file".toList,
    "ROLLBACK /* added by mysqlbinlog */;".toList,
    "/*!50003 SET COMPLETION_TYPE=@OLD_COMPLETION_TYPE*/;".toList,
    "/*!50530 SET @@SESSION.PSEUDO_SLAVE_MODE=0*/;".toList]

/-- A line `*!TAG!name!index!*`. -/
def fileLine (tag name : Text) (ulIndex : ℕ) : Text :=
  textLine (tag ++ (name ++ '!' :: (decimal ulIndex ++ "!*".toList)))

/-- `StartReadBinLog`. Of `PRINT_EVENT_INFO` only the kept annotate event outlives a file. -/
def startReadBinLog (ulIndex : ℕ) (logname : Text) (start : ℕ) (packets : List Packet)
    (annotateEvent : Option (Header × Text)) : Printed :=
  let r := dumpRemoteLogEntries ulIndex logname packets { annotateEvent } start
  { r with
    text := fileLine startBinlogTag logname ulIndex ++ unlines '\n' startLines ++ r.text ++
      (if r.status = .errorStop then [] else unlines '\n' endLines) ++
      fileLine endBinlogTag logname ulIndex }

/-- Events with their sizes. -/
abbrev Stored := List (LogEvent × ℕ)

def endOffset (start : ℕ) (es : Stored) : ℕ := start + (es.map Prod.snd).sum

/-- The events at their offsets. -/
def offsets : ℕ → Stored → List (ℕ × LogEvent)
  | _, [] => []
  | pos, (ev, size) :: es => (pos, ev) :: offsets (pos + size) es

/-- Events that follow each other without a gap, each with its end as `log_pos`. -/
def Contiguous : ℕ → Stored → Prop
  | _, [] => True
  | pos, (ev, size) :: es =>
    0 < size ∧ ev.logPos = pos + size ∧ pos + size < 2 ^ 32 ∧ Contiguous (pos + size) es

def LogEvent.IsArtificialRotate (ev : LogEvent) : Prop :=
  ev.when = 0 ∧ ∃ ident lines, ev.data = .rotate ident lines

/-- A binlog file: its `Format_description` event and the events behind it. -/
structure BinlogFile where
  name : Text
  description : LogEvent × ℕ
  events : Stored
  description_type : description.1.isFormatDescription = true
  events_type : ∀ e ∈ events, e.1.isFormatDescription = false
  events_real : ∀ e ∈ events, ¬e.1.IsArtificialRotate
  contiguous : Contiguous binLogHeaderSize (description :: events)

def BinlogFile.stored (f : BinlogFile) : Stored := f.description :: f.events

def packets (es : Stored) : List Packet := es.map fun e => .event e.1 e.2

/-- The end of the data, or an artificial `Rotate` that names another file. -/
def EndsFile (name : Text) (p : Packet) : Prop :=
  p = .endOfData ∨ ∃ ev n other lines, p = .event ev n ∧ ev.when = 0 ∧ other ≠ name ∧
    ev.data = .rotate other lines

def LogEvent.NamesFile (ev : LogEvent) (name : Text) : Prop :=
  ev.when = 0 ∧ ∃ lines, ev.data = .rotate name lines

/-- What the server sends when the file is requested from the offset `p`: an artificial `Rotate`,
a `Format_description`, which is the one of the file if `p` is its offset, and the events. -/
inductive Reply (f : BinlogFile) (p : ℕ) (ps : List Packet) : Prop
  | start {rotate : LogEvent} {n : ℕ} {last : Packet} {more : List Packet}
      (hp : p = binLogHeaderSize) (hrotate : rotate.NamesFile f.name)
      (hlast : EndsFile f.name last)
      (hps : ps = .event rotate n :: (packets f.stored ++ last :: more)) : Reply f p ps
  | resume {rotate description : LogEvent} {n m : ℕ} {before after : Stored} {last : Packet}
      {more : List Packet} (hp : p = endOffset binLogHeaderSize (f.description :: before))
      (hsplit : f.events = before ++ after) (hrotate : rotate.NamesFile f.name)
      (htype : description.isFormatDescription = true)
      (hwhen : description.when = f.description.1.when) (hlast : EndsFile f.name last)
      (hps : ps = .event rotate n :: .event description m :: (packets after ++ last :: more)) :
      Reply f p ps

/-- The run from `p` prints the markers that the run from the first event prints from `p` on,
each with the offset of its event. -/
def ResumesAt (ulIndex : ℕ) (f : BinlogFile) (p : ℕ) (run₄ run : Printed) : Prop :=
  run.markers ulIndex = (run₄.markers ulIndex).filter (fun m => p ≤ m.1) ∧
    ∀ m ∈ run.markers ulIndex, ∃ ev, (m.1, ev) ∈ offsets binLogHeaderSize f.stored ∧
      ev.marker m.1 ulIndex = some m.2

/-- The time stamp is the one that `stop_datetime` has without the option. -/
def LogEvent.Stops (ev : LogEvent) : Prop := stopDatetime ≤ ev.when

instance (ev : LogEvent) : Decidable ev.Stops := inferInstanceAs (Decidable (_ ≤ _))

theorem LogEvent.Stops.nonneg {ev : LogEvent} (h : ev.Stops) : 0 ≤ ev.when :=
  Int.le_trans (by decide : (0 : ℤ) ≤ stopDatetime) h

/-- The event is printed with a marker when it is reached. -/
def LogEvent.PrintsMarker (ev : LogEvent) : Prop :=
  0 ≤ ev.when ∧ ¬ev.Stops ∧ (ev.marker 0 0).isSome = true

/-- Behind an event that ends the reading there is no event with a marker. -/
def BinlogFile.Uncut (f : BinlogFile) : Prop :=
  f.description.1.Stops ∨ ∀ before stop after, f.events = before ++ stop :: after →
    stop.1.Stops → ∀ e ∈ after, ¬e.1.PrintsMarker

/-- The events from `pos` that are printed, up to the first that ends the reading. -/
def printedEvents : ℕ → Stored → List (ℕ × LogEvent)
  | _, [] => []
  | pos, (ev, size) :: es =>
    if ev.Stops then []
    else (if 0 ≤ ev.when ∨ ev.isFormatDescription then [(pos, ev)] else []) ++
      printedEvents (pos + size) es

/-- Their markers. -/
def printedMarkers (ulIndex pos : ℕ) (es : Stored) : List (ℕ × Text) :=
  (printedEvents pos es).filterMap fun p => (p.2.marker p.1 ulIndex).map fun t => (p.1, t)

theorem isSome_marker (ev : LogEvent) (pos pos' i i' : ℕ) :
    (ev.marker pos i).isSome = (ev.marker pos' i').isSome := by
  unfold LogEvent.marker
  cases ev.data with
  | rows e =>
    dsimp only
    split <;> rfl
  | _ => rfl

theorem marker_formatDescription {ev : LogEvent} (h : ev.isFormatDescription = true)
    (pos ulIndex : ℕ) : ev.marker pos ulIndex = none := by
  unfold LogEvent.isFormatDescription at h
  unfold LogEvent.marker
  cases hd : ev.data with
  | formatDescription lines => rfl
  | _ => simp [hd] at h

theorem endOffset_append (pos : ℕ) (es fs : Stored) :
    endOffset pos (es ++ fs) = endOffset (endOffset pos es) fs := by
  simp [endOffset, Nat.add_assoc]

theorem endOffset_cons (pos : ℕ) (e : LogEvent × ℕ) (es : Stored) :
    endOffset pos (e :: es) = endOffset (pos + e.2) es := by
  simp [endOffset, Nat.add_assoc]

theorem offsets_append (pos : ℕ) (es fs : Stored) :
    offsets pos (es ++ fs) = offsets pos es ++ offsets (endOffset pos es) fs := by
  induction es generalizing pos with
  | nil => simp [offsets, endOffset]
  | cons e es ih => rw [List.cons_append, offsets, offsets, ih, endOffset_cons, List.cons_append]

theorem Contiguous.append {pos : ℕ} {es fs : Stored} (h : Contiguous pos (es ++ fs)) :
    Contiguous pos es ∧ Contiguous (endOffset pos es) fs := by
  induction es generalizing pos with
  | nil => exact ⟨trivial, h⟩
  | cons e es ih =>
    obtain ⟨hsize, hpos, hlt, h⟩ := h
    rw [endOffset_cons]
    exact ⟨⟨hsize, hpos, hlt, (ih h).1⟩, (ih h).2⟩

theorem lt_endOffset_of_mem_offsets {pos : ℕ} {es : Stored} (h : Contiguous pos es)
    {p : ℕ × LogEvent} (hp : p ∈ offsets pos es) : p.1 < endOffset pos es := by
  induction es generalizing pos with
  | nil => cases hp
  | cons e es ih =>
    obtain ⟨hsize, -, -, h⟩ := h
    rw [endOffset_cons]
    rw [offsets, List.mem_cons] at hp
    rcases hp with rfl | hp
    · have : pos + e.2 ≤ endOffset (pos + e.2) es := Nat.le_add_right _ _
      show pos < _
      omega
    · exact ih h hp

theorem endOffset_lt {pos : ℕ} {es : Stored} (h : Contiguous pos es) (hpos : pos < 2 ^ 32) :
    endOffset pos es < 2 ^ 32 := by
  induction es generalizing pos with
  | nil => exact hpos
  | cons e es ih =>
    obtain ⟨-, -, hlt, h⟩ := h
    rw [endOffset_cons]
    exact ih h hlt

section Dump
variable {ulIndex : ℕ} {name : Text} {info : PrintInfo} {ev : LogEvent} {pos : ℕ}

/-- An event of the file goes to `process_event` with its offset. -/
theorem handle_real (len : ℕ) (hreal : ¬ev.IsArtificialRotate)
    (htype : ev.isFormatDescription = true → pos = binLogHeaderSize) :
    handleEventTextMode ulIndex name info pos ev len = (processEvent ulIndex info ev pos, len) := by
  unfold handleEventTextMode
  unfold LogEvent.isFormatDescription at htype
  cases hd : ev.data with
  | rotate ident lines =>
    have hwhen : ev.when ≠ 0 := fun h => hreal ⟨h, ident, lines, hd⟩
    simp [hwhen]
  | formatDescription lines =>
    rw [hd] at htype
    simp [htype rfl]
  | _ => rfl

theorem handle_rotate (h : ev.NamesFile name) (len : ℕ) :
    handleEventTextMode ulIndex name info pos ev len = (⟨.okContinue, info, [], []⟩, 1) := by
  obtain ⟨hwhen, lines, hd⟩ := h
  simp [handleEventTextMode, hd, hwhen]

/-- A `Format_description` that is sent for a later offset does not move the offset. -/
theorem handle_description (htype : ev.isFormatDescription = true) (hpos : pos ≠ binLogHeaderSize)
    (len : ℕ) :
    handleEventTextMode ulIndex name info pos ev len = (processEvent ulIndex info ev pos, 1) := by
  unfold LogEvent.isFormatDescription at htype
  unfold handleEventTextMode
  cases hd : ev.data with
  | formatDescription lines => simp [hpos]
  | _ => rw [hd] at htype; cases htype

theorem not_past (hs : ¬ev.Stops) (hpos : pos < stopPosition) :
    ¬(ev.when ≥ stopDatetime ∨ pos ≥ stopPosition) :=
  fun h => h.elim hs (Nat.not_le.mpr hpos)

variable (ulIndex info ev) in
theorem processEvent_status (hpos : pos < stopPosition) :
    (processEvent ulIndex info ev pos).status = if ev.Stops then .okStop else .okContinue := by
  unfold processEvent
  by_cases hs : ev.Stops
  · have hge : ev.when ≥ stopDatetime := hs
    simp [hs, hge, hs.nonneg]
  · have hlt := not_past hs hpos
    by_cases hw : 0 ≤ ev.when ∨ ev.isFormatDescription = true
    · simp [hs, hlt, hw]
    · simp [hs, hw]

variable (ulIndex info ev) in
theorem processEvent_events (hpos : pos < stopPosition) :
    (processEvent ulIndex info ev pos).events =
      if ev.Stops then [] else
        if 0 ≤ ev.when ∨ ev.isFormatDescription then [(pos, ev)] else [] := by
  unfold processEvent
  by_cases hs : ev.Stops
  · have hge : ev.when ≥ stopDatetime := hs
    simp [hs, hge, hs.nonneg]
  · have hlt := not_past hs hpos
    by_cases hw : 0 ≤ ev.when ∨ ev.isFormatDescription = true
    · simp [hs, hlt, hw]
    · simp [hs, hw]

/-- The loop over events of the file prints them, up to one that ends the reading. -/
theorem dump_events {es : Stored} {last : Packet} (hlast : EndsFile name last)
    (more : List Packet) (hreal : ∀ e ∈ es, ¬e.1.IsArtificialRotate)
    (htype : ∀ p ∈ offsets pos es, p.2.isFormatDescription = true → p.1 = binLogHeaderSize)
    (hpos : pos < 2 ^ 32) (hcont : Contiguous pos es) :
    (dumpRemoteLogEntries ulIndex name (packets es ++ last :: more) info pos).events =
      printedEvents pos es := by
  induction es generalizing pos info with
  | nil =>
    rcases hlast with rfl | ⟨ev, n, other, lines, rfl, hwhen, hne, hd⟩
    · rfl
    · simp [packets, dumpRemoteLogEntries, handleEventTextMode, hd, hwhen, hne, printedEvents]
  | cons e es ih =>
    obtain ⟨ev, size⟩ := e
    obtain ⟨hsize, -, hlt, hcont⟩ := hcont
    rw [List.forall_mem_cons] at hreal
    rw [offsets, List.forall_mem_cons] at htype
    have hstop : pos < stopPosition := lt_trans hpos (by decide)
    have hevents := processEvent_events ulIndex info ev hstop
    have hstatus := processEvent_status ulIndex info ev hstop
    rw [packets, List.map_cons, List.cons_append, dumpRemoteLogEntries,
      handle_real (size + 1) hreal.1 htype.1, printedEvents]
    by_cases hs : ev.Stops
    · rw [if_pos hs] at hevents hstatus ⊢
      simp only [hstatus, hevents]
    · rw [if_neg hs] at hevents hstatus ⊢
      simp only [hstatus, Printed.append, hevents]
      exact congrArg _ (ih hreal.2 htype.2 hlt hcont)

end Dump

section Resume
variable {ulIndex : ℕ} {f : BinlogFile}

theorem BinlogFile.header_lt (f : BinlogFile) :
    binLogHeaderSize + f.description.2 < 2 ^ 32 ∧ 0 < f.description.2 := by
  obtain ⟨hsize, -, hlt, -⟩ := f.contiguous
  exact ⟨hlt, hsize⟩

theorem BinlogFile.description_real (f : BinlogFile) : ¬f.description.1.IsArtificialRotate := by
  rintro ⟨-, ident, lines, hd⟩
  have htype := f.description_type
  rw [LogEvent.isFormatDescription, hd] at htype
  cases htype

theorem lt_of_mem_offsets {pos : ℕ} {es : Stored} {p : ℕ × LogEvent} (h : p ∈ offsets pos es) :
    pos ≤ p.1 := by
  induction es generalizing pos with
  | nil => cases h
  | cons e es ih =>
    rw [offsets, List.mem_cons] at h
    rcases h with rfl | h
    · exact le_rfl
    · exact (Nat.le_add_right _ _).trans (ih h)

theorem mem_of_mem_offsets {pos : ℕ} {es : Stored} {p : ℕ × LogEvent} (h : p ∈ offsets pos es) :
    ∃ e ∈ es, e.1 = p.2 := by
  induction es generalizing pos with
  | nil => cases h
  | cons e es ih =>
    rw [offsets, List.mem_cons] at h
    rcases h with rfl | h
    · exact ⟨e, List.mem_cons_self, rfl⟩
    · obtain ⟨e', he, hp⟩ := ih h
      exact ⟨e', List.mem_cons_of_mem _ he, hp⟩

theorem BinlogFile.type_of_mem_offsets (f : BinlogFile) {pos : ℕ} {es : Stored}
    (hes : ∀ e ∈ es, e ∈ f.events) :
    ∀ p ∈ offsets pos es, p.2.isFormatDescription = true → p.1 = binLogHeaderSize := by
  intro p hp htype
  obtain ⟨e, he, hev⟩ := mem_of_mem_offsets hp
  rw [← hev, f.events_type e (hes e he)] at htype
  exact absurd htype Bool.false_ne_true

/-- The run from the first event. -/
theorem events_of_start {p : ℕ} {ps : List Packet} (hreply : Reply f p ps)
    (hp : p = binLogHeaderSize) (info : PrintInfo) :
    (dumpRemoteLogEntries ulIndex f.name ps info p).events =
      printedEvents binLogHeaderSize f.stored := by
  subst hp
  have hhead := f.header_lt
  rcases hreply with ⟨-, hrotate, hlast, rfl⟩ | ⟨hp, -, -, -, -, -, -⟩
  · rw [dumpRemoteLogEntries, handle_rotate hrotate]
    refine dump_events hlast _ ?_ ?_ (by decide) f.contiguous
    · intro e he
      rcases List.mem_cons.mp he with rfl | he
      · exact f.description_real
      · exact f.events_real e he
    · intro p hp
      rw [BinlogFile.stored, offsets, List.mem_cons] at hp
      rcases hp with rfl | hp
      · exact fun _ => rfl
      · exact f.type_of_mem_offsets (fun e he => he) p hp
  · rw [endOffset_cons, endOffset] at hp
    omega

theorem markers_of_start {p : ℕ} {ps : List Packet} (hreply : Reply f p ps)
    (hp : p = binLogHeaderSize) (info : PrintInfo) :
    (dumpRemoteLogEntries ulIndex f.name ps info p).markers ulIndex =
      printedMarkers ulIndex binLogHeaderSize f.stored := by
  rw [Printed.markers, events_of_start hreply hp, printedMarkers]

/-- The run from a later offset. -/
theorem events_of_resume {before after : Stored} (hsplit : f.events = before ++ after)
    {rotate description : LogEvent} (hrotate : rotate.NamesFile f.name)
    (htype : description.isFormatDescription = true)
    (hwhen : description.when = f.description.1.when) {last : Packet}
    (hlast : EndsFile f.name last) (n m : ℕ) (more : List Packet) (info : PrintInfo) :
    (dumpRemoteLogEntries ulIndex f.name
        (.event rotate n :: .event description m :: (packets after ++ last :: more)) info
        (endOffset binLogHeaderSize (f.description :: before))).events =
      if f.description.1.Stops then [] else
        (endOffset binLogHeaderSize (f.description :: before), description) ::
          printedEvents (endOffset binLogHeaderSize (f.description :: before)) after := by
  have hstored := f.contiguous
  rw [hsplit, ← List.cons_append] at hstored
  have hhead := f.header_lt
  have hne : endOffset binLogHeaderSize (f.description :: before) ≠ binLogHeaderSize := by
    rw [endOffset_cons, endOffset]
    omega
  have hlt : endOffset binLogHeaderSize (f.description :: before) < 2 ^ 32 :=
    endOffset_lt hstored.append.1 (by decide)
  have hcont := hstored.append.2
  revert hne hlt hcont
  generalize endOffset binLogHeaderSize (f.description :: before) = p
  intro hne hlt hcont
  have hstop : p < stopPosition := lt_trans hlt (by decide)
  have hstatus := processEvent_status ulIndex info description hstop
  have hevents := processEvent_events ulIndex info description hstop
  have hstops : description.Stops ↔ f.description.1.Stops := by
    rw [LogEvent.Stops, LogEvent.Stops, hwhen]
  rw [dumpRemoteLogEntries, handle_rotate hrotate]
  dsimp only
  rw [Nat.sub_self, Nat.add_zero, dumpRemoteLogEntries, handle_description htype hne]
  by_cases hs : f.description.1.Stops
  · rw [if_pos (hstops.mpr hs)] at hstatus hevents
    simp only [hstatus, hevents, Printed.append, hs, if_true, List.append_nil]
  · rw [if_neg (mt hstops.mp hs)] at hstatus hevents
    rw [if_pos (.inr htype)] at hevents
    simp only [hstatus, hevents, Printed.append, hs, if_false, List.nil_append,
      List.singleton_append]
    refine congrArg _ (dump_events hlast more ?_ ?_ hlt hcont)
    · exact fun e he => f.events_real e (by rw [hsplit]; exact List.mem_append_right _ he)
    · exact f.type_of_mem_offsets
        (fun e he => by rw [hsplit]; exact List.mem_append_right _ he)

theorem markers_of_resume {before after : Stored} (hsplit : f.events = before ++ after)
    {rotate description : LogEvent} (hrotate : rotate.NamesFile f.name)
    (htype : description.isFormatDescription = true)
    (hwhen : description.when = f.description.1.when) {last : Packet}
    (hlast : EndsFile f.name last) (n m : ℕ) (more : List Packet) (info : PrintInfo) :
    (dumpRemoteLogEntries ulIndex f.name
        (.event rotate n :: .event description m :: (packets after ++ last :: more)) info
        (endOffset binLogHeaderSize (f.description :: before))).markers ulIndex =
      if f.description.1.Stops then [] else
        printedMarkers ulIndex (endOffset binLogHeaderSize (f.description :: before)) after := by
  rw [Printed.markers, events_of_resume hsplit hrotate htype hwhen hlast]
  split
  · rfl
  · rw [List.filterMap_cons_none]
    · rfl
    · rw [marker_formatDescription htype]
      rfl

theorem mem_printedEvents {pos : ℕ} {es : Stored} {p : ℕ × LogEvent}
    (h : p ∈ printedEvents pos es) : p ∈ offsets pos es := by
  induction es generalizing pos with
  | nil => cases h
  | cons e es ih =>
    rw [printedEvents] at h
    by_cases hs : e.1.Stops
    · rw [if_pos hs] at h
      cases h
    · rw [if_neg hs, List.mem_append] at h
      rcases h with h | h
      · split at h
        · rw [List.mem_singleton.mp h]
          exact List.mem_cons_self
        · cases h
      · exact List.mem_cons_of_mem _ (ih h)

theorem mem_printedMarkers {pos : ℕ} {es : Stored} {m : ℕ × Text}
    (h : m ∈ printedMarkers ulIndex pos es) :
    ∃ ev, (m.1, ev) ∈ offsets pos es ∧ ev.marker m.1 ulIndex = some m.2 := by
  obtain ⟨p, hp, hm⟩ := List.mem_filterMap.mp h
  obtain ⟨t, ht, rfl⟩ := Option.map_eq_some_iff.mp hm
  exact ⟨p.2, mem_printedEvents hp, ht⟩

theorem printedEvents_append (pos : ℕ) (es fs : Stored) :
    printedEvents pos (es ++ fs) = printedEvents pos es ++
      if es.any fun e => e.1.Stops then [] else printedEvents (endOffset pos es) fs := by
  induction es generalizing pos with
  | nil => simp [printedEvents, endOffset]
  | cons e es ih =>
    rw [List.cons_append, printedEvents, printedEvents, ih, endOffset_cons]
    by_cases hs : e.1.Stops
    · simp [hs]
    · rw [if_neg hs, if_neg hs, List.append_assoc, List.any_cons, decide_eq_false hs, Bool.false_or]

theorem printedMarkers_append (pos : ℕ) (es fs : Stored) :
    printedMarkers ulIndex pos (es ++ fs) = printedMarkers ulIndex pos es ++
      if es.any fun e => e.1.Stops then [] else printedMarkers ulIndex (endOffset pos es) fs := by
  rw [printedMarkers, printedEvents_append, List.filterMap_append]
  split <;> rfl

theorem printedMarkers_eq_nil {pos : ℕ} {es : Stored} (h : ∀ e ∈ es, ¬e.1.PrintsMarker) :
    printedMarkers ulIndex pos es = [] := by
  induction es generalizing pos with
  | nil => rfl
  | cons e es ih =>
    rw [List.forall_mem_cons] at h
    have htail : printedMarkers ulIndex (pos + e.2) es = [] := ih h.2
    rw [printedMarkers] at htail ⊢
    rw [printedEvents]
    by_cases hs : e.1.Stops
    · rw [if_pos hs]
      rfl
    · rw [if_neg hs, List.filterMap_append, htail, List.append_nil]
      split
      · rename_i hw
        have hnone : e.1.marker pos ulIndex = none := by
          rcases hw with hw | htype
          · by_contra hm
            refine h.1 ⟨hw, hs, ?_⟩
            rw [← isSome_marker e.1 pos 0 ulIndex 0]
            exact Option.isSome_iff_ne_none.mpr hm
          · exact marker_formatDescription htype pos ulIndex
        rw [List.filterMap_cons_none]
        · rfl
        · rw [hnone]
          rfl
      · rfl

theorem markers_le {pos : ℕ} {es : Stored} {m : ℕ × Text} (h : m ∈ printedMarkers ulIndex pos es) :
    pos ≤ m.1 := by
  obtain ⟨ev, hev, -⟩ := mem_printedMarkers h
  exact lt_of_mem_offsets hev

theorem markers_lt {pos : ℕ} {es : Stored} (hc : Contiguous pos es) {m : ℕ × Text}
    (h : m ∈ printedMarkers ulIndex pos es) : m.1 < endOffset pos es := by
  obtain ⟨ev, hev, -⟩ := mem_printedMarkers h
  exact lt_endOffset_of_mem_offsets hc hev

/-- Of the markers of the file, those from a boundary on are the ones behind it, unless an event
in front of it ends the reading. -/
theorem filter_printedMarkers (before after : Stored)
    (hc : Contiguous binLogHeaderSize (before ++ after)) :
    (printedMarkers ulIndex binLogHeaderSize (before ++ after)).filter
        (fun m => endOffset binLogHeaderSize before ≤ m.1) =
      if before.any fun e => e.1.Stops then []
      else printedMarkers ulIndex (endOffset binLogHeaderSize before) after := by
  rw [printedMarkers_append, List.filter_append]
  have hbefore : (printedMarkers ulIndex binLogHeaderSize before).filter
      (fun m => endOffset binLogHeaderSize before ≤ m.1) = [] := by
    rw [List.filter_eq_nil_iff]
    intro m hm
    simpa using markers_lt hc.append.1 hm
  rw [hbefore, List.nil_append]
  split
  · rfl
  · rw [List.filter_eq_self]
    intro m hm
    simpa using markers_le hm

def defaultHeader : Header := ⟨⟨"700101  0:00:00 server id 1".toList, by decide⟩, by decide⟩

theorem isFormatDescription_default : LogEvent.isFormatDescription
    ⟨1, 256, false, defaultHeader, .formatDescription []⟩ = true := rfl

theorem newline_not_mem_querySummary : '\n' ∉ "\tQuery".toList := by decide

theorem newline_not_mem_gtidSummary : '\n' ∉ "0-1-1".toList := by decide

/-- The artificial `Rotate` that names the file. -/
def BinlogFile.rotate (f : BinlogFile) : LogEvent :=
  ⟨0, 0, false, defaultHeader, .rotate f.name []⟩

theorem BinlogFile.names_rotate (f : BinlogFile) : f.rotate.NamesFile f.name := ⟨rfl, [], rfl⟩

def BinlogFile.replyStart (f : BinlogFile) : List Packet :=
  .event f.rotate 0 :: (packets f.stored ++ [.endOfData])

def BinlogFile.replyFrom (f : BinlogFile) (after : Stored) : List Packet :=
  .event f.rotate 0 :: .event f.description.1 0 :: (packets after ++ [.endOfData])

theorem BinlogFile.reply_start (f : BinlogFile) : Reply f binLogHeaderSize f.replyStart :=
  .start rfl f.names_rotate (.inl rfl) rfl

theorem BinlogFile.reply_resume (f : BinlogFile) {before after : Stored}
    (hsplit : f.events = before ++ after) :
    Reply f (endOffset binLogHeaderSize (f.description :: before)) (f.replyFrom after) :=
  .resume rfl hsplit f.names_rotate f.description_type rfl (.inl rfl) rfl

/-- Reading from every boundary resumes the reading from the first event. -/
def BinlogFile.Resumes (ulIndex : ℕ) (f : BinlogFile) : Prop :=
  ∀ p ps₄ ps info₄ info, Reply f binLogHeaderSize ps₄ → Reply f p ps →
    ResumesAt ulIndex f p (dumpRemoteLogEntries ulIndex f.name ps₄ info₄ binLogHeaderSize)
      (dumpRemoteLogEntries ulIndex f.name ps info p)

theorem uncut_of_resumes (h : f.Resumes ulIndex) : f.Uncut := by
  by_cases hd : f.description.1.Stops
  · exact .inl hd
  refine .inr fun before stop after hsplit hs e he hm => ?_
  obtain ⟨skipped, rest, rfl⟩ := List.append_of_mem he
  -- the run from the offset of the event with a marker prints it, the one from 4 does not
  have hsplit' : f.events = (before ++ stop :: skipped) ++ e :: rest := by simp [hsplit]
  have hstored : f.stored = (f.description :: (before ++ stop :: skipped)) ++ e :: rest := by
    rw [BinlogFile.stored, hsplit', List.cons_append]
  have hall := (h _ _ _ {} {} f.reply_start (f.reply_resume hsplit')).1
  rw [markers_of_start f.reply_start rfl, hstored,
    filter_printedMarkers _ _ (hstored ▸ f.contiguous)] at hall
  have hstop : (f.description :: (before ++ stop :: skipped)).any (fun e => e.1.Stops) = true := by
    simp [hs]
  rw [if_pos hstop, BinlogFile.replyFrom, markers_of_resume hsplit' f.names_rotate
    f.description_type rfl (.inl rfl), if_neg hd, printedMarkers, printedEvents, if_neg hm.2.1,
    if_pos (.inl hm.1), List.filterMap_append, List.append_eq_nil_iff] at hall
  obtain ⟨t, ht⟩ := Option.isSome_iff_exists.mp ((isSome_marker e.1 _ 0 ulIndex 0).trans hm.2.2)
  rw [List.filterMap_cons_some (by rw [ht]; rfl)] at hall
  exact absurd hall.1 (List.cons_ne_nil _ _)

theorem resumes_of_uncut (huncut : f.Uncut) : f.Resumes ulIndex := by
  intro p ps₄ ps info₄ info h₄ hp
  rw [ResumesAt, markers_of_start h₄ rfl]
  rcases hp with ⟨hp, hrotate, hlast, hps⟩ | ⟨rfl, hsplit, hrotate, htype, hwhen, hlast, rfl⟩
  · rw [markers_of_start (.start hp hrotate hlast hps) hp]
    refine ⟨?_, fun m hm => mem_printedMarkers hm⟩
    rw [eq_comm, List.filter_eq_self]
    intro m hm
    simpa [hp] using markers_le hm
  · rename_i rotate description n m before after last more
    have hstored : f.stored = (f.description :: before) ++ after := by
      rw [BinlogFile.stored, hsplit, List.cons_append]
    rw [markers_of_resume hsplit hrotate htype hwhen hlast, hstored,
      filter_printedMarkers _ _ (hstored ▸ f.contiguous)]
    constructor
    · rcases huncut with hd | huncut
      · rw [if_pos hd, if_pos (by simp [hd])]
      · by_cases hd : f.description.1.Stops
        · rw [if_pos hd, if_pos (by simp [hd])]
        · rw [if_neg hd]
          by_cases hs : before.any (fun e => e.1.Stops) = true
          · rw [if_pos (by simp [hs])]
            obtain ⟨stop, hstop, hdec⟩ := List.any_eq_true.mp hs
            obtain ⟨a, b, rfl⟩ := List.append_of_mem hstop
            refine printedMarkers_eq_nil fun e he => huncut a stop (b ++ after) ?_ ?_ e ?_
            · simp [hsplit]
            · simpa using hdec
            · exact List.mem_append_right _ he
          · rw [if_neg (by simpa [hd] using hs)]
    · intro m hm
      by_cases hd : f.description.1.Stops
      · rw [if_pos hd] at hm
        cases hm
      · rw [if_neg hd] at hm
        obtain ⟨ev, hev, ht⟩ := mem_printedMarkers hm
        rw [offsets_append]
        exact ⟨ev, List.mem_append_right _ hev, ht⟩


/-- Reading a file from any of its event boundaries resumes the reading from its first event,
exactly when no event with a marker stands behind an event that ends the reading. -/
theorem resumes_iff_uncut (ulIndex : ℕ) (f : BinlogFile) : f.Resumes ulIndex ↔ f.Uncut :=
  ⟨uncut_of_resumes, resumes_of_uncut⟩

/-- A transaction with the time stamp 2147483647, and one behind it. -/
def lastSecond : BinlogFile where
  name := "mysql-bin.000001".toList
  description := (⟨1, 256, false, defaultHeader, .formatDescription []⟩, 252)
  events :=
    [(⟨2147483647, 298, false, defaultHeader, .gtid 1 ⟨[], by decide⟩ [] false⟩, 42),
      (⟨1, 329, false, defaultHeader, .xid 7⟩, 31)]
  description_type := isFormatDescription_default
  events_type := by decide
  events_real := by
    intro e he
    rcases List.mem_pair.mp he with rfl | rfl
    all_goals exact fun ⟨_, _, _, h⟩ => by cases h
  contiguous := by simp [Contiguous, binLogHeaderSize]

theorem not_resumes_lastSecond : ¬∀ (ulIndex : ℕ) (f : BinlogFile), f.Resumes ulIndex := by
  intro h
  rcases uncut_of_resumes (h 1 lastSecond) with hd | huncut
  · exact absurd hd (by decide)
  · refine huncut [] _ _ rfl (by decide) _ (List.mem_singleton_self _) ⟨by decide, by decide, rfl⟩

end Resume

end BinlogCapture
