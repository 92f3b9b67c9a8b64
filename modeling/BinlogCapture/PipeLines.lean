import BinlogCapture.Threads
import BinlogCapture.Lib.Histories

/-! The lines that `ReadJournal` prints into the pipe: what each of them makes the listener do, when
no text of a binlog looks like a marker. -/
namespace BinlogCapture
open CString Fallible LineFeed Runs Histories

/-- What the line is printed for. -/
def PrintedLine.action (x : PrintedLine) : Action :=
  match x.source with
  | .first _ => .firstBinlog x.szBinLogName
  | .start => .startBinlog x.szBinLogName
  | .marker pos ev => (ev.actions pos).headD .skip
  | .end_ => .endBinlog
  | .last => .lastBinlog
  | .event _ _ | .text => .skip

/-- The file the listener is in behind the lines. -/
def nameOf (lines : List PrintedLine) : Text := nameAfter [] (lines.map PrintedLine.action)

theorem nameOf_append (lines lines' : List PrintedLine) :
    nameOf (lines ++ lines') = nameAfter (nameOf lines) (lines'.map PrintedLine.action) := by
  rw [nameOf, List.map_append, nameAfter_append]
  rfl

/-- No name and no text of the binlogs looks like a marker. -/
def World.Plain (w : World) : Prop :=
  ∀ f ∈ w.files, '\n' ∉ f.name ∧ '!' ∉ f.name ∧ ∀ e ∈ f.eventsAt, ∀ i, e.2.TextPlain i

/-- The lines carry text alone. -/
def Quiet (lines : List PrintedLine) : Prop :=
  ∀ x ∈ lines, x.source = .text ∧ Acts x.text x.action

theorem Quiet.append {lines lines' : List PrintedLine} (h : Quiet lines) (h' : Quiet lines') :
    Quiet (lines ++ lines') := List.forall_mem_append.mpr ⟨h, h'⟩

section Quiet
variable {lines : List PrintedLine}

theorem Quiet.action (h : Quiet lines) {x : PrintedLine} (hx : x ∈ lines) : x.action = .skip := by
  rw [PrintedLine.action, (h x hx).1]

theorem Quiet.actions (h : Quiet lines) :
    lines.map PrintedLine.action = List.replicate lines.length .skip := by
  rw [List.eq_replicate_iff, List.length_map]
  refine ⟨rfl, fun a ha => ?_⟩
  obtain ⟨x, hx, rfl⟩ := List.mem_map.mp ha
  exact h.action hx

theorem Quiet.nameAfter (h : Quiet lines) (name : Text) :
    nameAfter name (lines.map PrintedLine.action) = name := by
  rw [h.actions]
  exact (targets_skip [] name _).2

theorem Quiet.targets (h : Quiet lines) (first name : Text) :
    targets first name (lines.map PrintedLine.action) = [] := by
  rw [h.actions]
  exact (targets_skip first name _).1

end Quiet

section Printed
variable {ulIndex : ℕ} {name : Text}

theorem quiet_text {ls : List Text} (h : ∀ l ∈ ls, Acts l .skip) :
    Quiet (ls.map fun l => ⟨ulIndex, name, .text, l⟩) := by
  intro x hx
  obtain ⟨l, hl, rfl⟩ := List.mem_map.mp hx
  exact ⟨rfl, h l hl⟩

theorem quiet_plain {t : Text} (h : Plain [] t []) : Quiet (plainLines ulIndex name t) :=
  quiet_text fun l hl => acts_unmarked (h.unmarked l hl)

theorem acts_skip_of_linesAct {ls : List Text} {bs : List Action} (h : LinesAct ls bs)
    (hskip : ∀ b ∈ bs, b = .skip) : ∀ l ∈ ls, Acts l .skip := by
  induction h with
  | nil => exact List.forall_mem_nil _
  | cons hl _ ih =>
    rw [List.forall_mem_cons] at hskip
    exact List.forall_mem_cons.mpr ⟨hskip.1 ▸ hl, ih hskip.2⟩

/-- A text that tells nothing. -/
theorem quiet_tells {t : Text} (h : Tells t []) : Quiet (plainLines ulIndex name t) := by
  obtain ⟨bs, hbs, hfilter⟩ := h.lines
  apply quiet_text
  apply acts_skip_of_linesAct hbs
  rw [List.filter_eq_nil_iff] at hfilter
  intro b hb
  simpa using hfilter b hb

theorem ulIndex_of_mem_plainLines {t : Text} : ∀ x ∈ plainLines ulIndex name t,
    x.ulIndex = ulIndex := by
  intro x hx
  obtain ⟨l, -, rfl⟩ := List.mem_map.mp hx
  rfl

theorem mem_headLines {source : Source} {t : Text} : ∀ x ∈ headLines ulIndex name source t,
    x.ulIndex = ulIndex ∧ x.szBinLogName = name ∧ (x.source = source ∨ x.source = .text) := by
  intro x hx
  unfold headLines at hx
  split at hx
  · cases hx
  · rcases List.mem_cons.mp hx with rfl | hx
    · exact ⟨rfl, rfl, .inl rfl⟩
    · obtain ⟨l, -, rfl⟩ := List.mem_map.mp hx
      exact ⟨rfl, rfl, .inr rfl⟩

/-- What the lines of an event are about. -/
theorem mem_eventLines {info : PrintInfo} {pos : ℕ} {ev : LogEvent} :
    ∀ x ∈ eventLines ulIndex name info pos ev, x.ulIndex = ulIndex ∧ x.szBinLogName = name ∧
      (x.source = .event pos ev ∨ x.source = .marker pos ev ∨ x.source = .text) := by
  intro x hx
  unfold eventLines at hx
  dsimp only at hx
  rw [List.mem_append, List.mem_append, List.mem_append] at hx
  rcases hx with ((hx | hx) | hx) | hx
  · obtain ⟨hindex, hname, hsource⟩ := mem_headLines x hx
    exact ⟨hindex, hname, hsource.imp_right .inr⟩
  · obtain ⟨l, -, rfl⟩ := List.mem_map.mp hx
    exact ⟨rfl, rfl, .inr (.inr rfl)⟩
  · obtain ⟨hindex, hname, hsource⟩ := mem_headLines x hx
    exact ⟨hindex, hname, .inr hsource⟩
  · obtain ⟨l, -, rfl⟩ := List.mem_map.mp hx
    exact ⟨rfl, rfl, .inr (.inr rfl)⟩

theorem mem_of_file {w : World} {f : BinlogFile} (h : w.file name = some f) :
    f ∈ w.files ∧ f.name = name :=
  ⟨List.mem_of_find?_eq_some h, by simpa using List.find?_some h⟩

/-- A text of one line. -/
theorem headLines_textLine {l : Text} (h : '\n' ∉ l) (source : Source) :
    headLines ulIndex name source (textLine l) = [⟨ulIndex, name, source, l⟩] := by
  rw [headLines, completeLines_textLine h]
  rfl

theorem headLines_fileLine {tag : Text} (htag : '\n' ∉ tag) (hname : '\n' ∉ name)
    (source : Source) : headLines ulIndex name source (fileLine tag name ulIndex) =
      [⟨ulIndex, name, source, tag ++ (name ++ '!' :: (decimal ulIndex ++ "!*".toList))⟩] :=
  headLines_textLine (newline_not_mem_fileLine htag hname ulIndex) source

theorem headLines_passLine {tag : Text} (htag : '\n' ∉ tag) (hname : '\n' ∉ name)
    (source : Source) (date : DateText) :
    headLines ulIndex name source (passLine tag name ulIndex date) =
      [⟨ulIndex, name, source,
        tag ++ (name ++ '!' :: (decimal ulIndex ++ '!' :: (date.text ++ "!*".toList)))⟩] :=
  headLines_textLine (newline_not_mem_passLine htag hname ulIndex date) source

theorem headLines_printAt (ulIndex : ℕ) (name : Text) (pos : ℕ) (source : Source) :
    headLines ulIndex name source (printAt pos) =
      [⟨ulIndex, name, source, "# at ".toList ++ decimal pos⟩] := by
  apply headLines_textLine
  rw [List.mem_append, not_or]
  exact ⟨by decide, newline_not_mem_decimal pos⟩

/-- An event begins with one line that says so. -/
theorem eventLines_cons (ulIndex : ℕ) (name : Text) (info : PrintInfo) (pos : ℕ) (ev : LogEvent) :
    ∃ first rest, eventLines ulIndex name info pos ev = first :: rest ∧
      first.source = .event pos ev ∧ ∀ x ∈ rest, ∀ pos ev, x.source ≠ .event pos ev := by
  unfold eventLines
  dsimp only
  rw [headLines_printAt, List.append_assoc, List.append_assoc, List.singleton_append]
  refine ⟨_, _, rfl, rfl, ?_⟩
  intro x hx pos' ev'
  rw [List.mem_append, List.mem_append] at hx
  rcases hx with hx | hx | hx
  · obtain ⟨l, -, rfl⟩ := List.mem_map.mp hx
    exact Source.noConfusion
  · rcases (mem_headLines x hx).2.2 with heq | heq
    · rw [heq]
      exact Source.noConfusion
    · rw [heq]
      exact Source.noConfusion
  · obtain ⟨l, -, rfl⟩ := List.mem_map.mp hx
    exact Source.noConfusion

theorem lines_ne_nil {t : Text} (hwhole : Whole t) (ht : t ≠ []) : completeLines t ≠ [] := by
  intro hnil
  have hsplit := unlines_split '\n' [] t
  rw [completeLines] at hnil
  rw [hnil, show (split '\n' [] t).2 = [] from hwhole] at hsplit
  exact ht hsplit.symm

theorem lines_textLine_ne_nil (t : Text) : completeLines (textLine t) ≠ [] :=
  lines_ne_nil (whole_textLine t) (by simp [textLine])

/-- A marker is made of lines. -/
theorem marker_lines_ne_nil {ev : LogEvent} {pos : ℕ} {t : Text}
    (h : ev.marker pos ulIndex = some t) : completeLines t ≠ [] := by
  have hwhole := whole_marker ev pos ulIndex
  rw [h, Option.getD_some] at hwhole
  apply lines_ne_nil hwhole
  rintro rfl
  unfold LogEvent.marker at h
  cases hd : ev.data with
  | rows e =>
    rw [hd] at h
    dsimp only at h
    split at h <;> cases h
  | _ =>
    rw [hd] at h
    cases h

/-- The line is the first line of the marker of the event. -/
def PrintedLine.IsMarker (x : PrintedLine) (name : Text) (e : ℕ × LogEvent) : Prop :=
  x.szBinLogName = name ∧ x.source = .marker e.1 e.2 ∧
    (completeLines ((e.2.marker e.1 x.ulIndex).getD [])).head? = some x.text

/-- The lines of an event: the one that begins it, its marker if it has one, and text. -/
theorem eventLines_shape (name : Text) {info : PrintInfo} (hinfo : InfoPlain info) {ev : LogEvent}
    (hev : ev.TextPlain ulIndex) (pos : ℕ) :
    ∃ first front marker back,
      eventLines ulIndex name info pos ev = first :: front ++ marker ++ back ∧
      (first.ulIndex = ulIndex ∧ first.szBinLogName = name ∧ first.source = .event pos ev ∧
        Acts first.text first.action) ∧ Quiet front ∧ Quiet back ∧
      ((ev.marker pos ulIndex = none ∧ marker = []) ∨
        ∃ x, marker = [x] ∧ x.ulIndex = ulIndex ∧ x.IsMarker name (pos, ev) ∧
          Acts x.text x.action) := by
  obtain ⟨hinfo', hbefore⟩ := printBefore_plain hinfo ev
  obtain ⟨-, hafter⟩ := printAfter_plain hinfo' hev
  have hacts : Acts ("# at ".toList ++ decimal pos) .skip := by
    apply acts_unmarked
    have hat := (plain_printAt pos).unmarked
    apply hat
    rw [printAt, completeLines_textLine]
    · exact List.mem_singleton_self _
    · rw [List.mem_append, not_or]
      exact ⟨by decide, newline_not_mem_decimal pos⟩
  have hfront : Quiet (plainLines ulIndex name (printBefore info ev).2) := quiet_plain hbefore
  have hback : Quiet (plainLines ulIndex name (printAfter (printBefore info ev).1 ev).2) :=
    quiet_plain hafter
  unfold eventLines
  dsimp only
  rw [headLines_printAt]
  rcases eventMarker_lines hev pos with ⟨hnil, -⟩ | ⟨l, ls, a, hcons, hl, hact, hls⟩
  · have hmarker :
        headLines ulIndex name (.marker pos ev) ((ev.marker pos ulIndex).getD []) = [] := by
      rw [headLines, hnil]
    rw [hmarker]
    refine ⟨⟨ulIndex, name, .event pos ev, _⟩, _, [], _, rfl, ⟨rfl, rfl, rfl, hacts⟩, hfront,
      hback, .inl ⟨?_, rfl⟩⟩
    by_contra hsome
    obtain ⟨t, ht⟩ := Option.ne_none_iff_exists'.mp hsome
    rw [ht] at hnil
    exact marker_lines_ne_nil ht hnil
  · have hmarker : headLines ulIndex name (.marker pos ev) ((ev.marker pos ulIndex).getD []) =
        [⟨ulIndex, name, .marker pos ev, l⟩] ++
          ls.map fun l => ⟨ulIndex, name, .text, l⟩ := by
      rw [headLines, hcons]
      rfl
    have htail : Quiet (ls.map fun l => ⟨ulIndex, name, .text, l⟩) :=
      quiet_text fun l hl => acts_unmarked (hls l hl)
    have hself : (PrintedLine.mk ulIndex name (.marker pos ev) l).action = a := by
      rcases hact with hact | ⟨hact, rfl⟩ <;> simp only [PrintedLine.action, hact] <;> rfl
    rw [hmarker]
    refine ⟨⟨ulIndex, name, .event pos ev, _⟩, _, [⟨ulIndex, name, .marker pos ev, l⟩], _, ?_,
      ⟨rfl, rfl, rfl, hacts⟩, hfront, htail.append hback, .inr ⟨_, rfl, rfl, ⟨rfl, rfl, ?_⟩, ?_⟩⟩
    · simp only [List.append_assoc, List.cons_append, List.nil_append]
    · rw [hcons]
      rfl
    · rw [hself]
      exact hl

/-- The lines between the start of a file and its first event. -/
theorem quiet_openFile (ulIndex : ℕ) (name : Text) (annotateEvent : Option (Header × Text))
    {f : BinlogFile} (hf : ∀ e ∈ f.eventsAt, ∀ i, e.2.TextPlain i) (pos : ℕ) :
    InfoPlain (printEvents ulIndex { annotateEvent } (f.resent pos)).1 ∧
      Quiet (plainLines ulIndex name (unlines '\n' startLines) ++
        plainLines ulIndex name (printEvents ulIndex { annotateEvent } (f.resent pos)).2) := by
  have hresent : ∀ e ∈ f.resent pos, e.2.TextPlain ulIndex ∧ e.2.actions e.1 = [] := by
    unfold BinlogFile.resent
    split
    · exact List.forall_mem_nil _
    · refine List.forall_mem_singleton.mpr ⟨hf _ List.mem_cons_self _, ?_⟩
      have htype := f.description_type
      unfold LogEvent.isFormatDescription at htype
      unfold LogEvent.actions
      cases hd : f.description.1.data with
      | formatDescription lines => rfl
      | _ => simp [hd] at htype
  obtain ⟨hinfo, htells⟩ := printEvents_tells (f.resent pos) (infoPlain_start annotateEvent)
    fun e he => (hresent e he).1
  have hnil : eventActions (f.resent pos) = [] :=
    List.flatMap_eq_nil_iff.mpr fun e he => (hresent e he).2
  rw [hnil] at htells
  exact ⟨hinfo, (quiet_plain plain_startLines).append (quiet_tells htells)⟩

theorem action_of_marker {x : PrintedLine} {e : ℕ × LogEvent} (h : x.IsMarker name e) :
    x.action = (e.2.actions e.1).headD .skip := by
  rw [PrintedLine.action, h.2.1]

/-- Behind the marker of an event the listener is in the same file. -/
theorem action_keeps_name {x : PrintedLine} {e : ℕ × LogEvent} (h : x.IsMarker name e) (n : Text) :
    x.action.szBinLogName n = n := by
  rw [action_of_marker h, LogEvent.actions]
  cases e.2.data <;> rfl

end Printed

end BinlogCapture
