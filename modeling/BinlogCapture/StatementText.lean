import BinlogCapture.Persisted

/-! The text of a statement against the lines of the protocol: two runs over events that differ in
their statement texts only. -/
namespace BinlogCapture
open CString Fallible LineFeed

/-- The tags of the row headers, which the listener looks for in an open statement. -/
def headerTags : List Text := [insertPrefix, updatePrefix, deletePrefix]

/-- The tags of the images and columns, which it looks for in an open row. -/
def imageTags : List Text := [wherePrefix, setPrefix, columnPrefix]

/-- The listener takes the line for one of its own. -/
def Forges (loc : Locals) (line : Text) : Prop :=
  (∃ tag ∈ markerTags, tag <+: line) ∨
    loc.bStartOfStmt = true ∧ ((∃ tag ∈ headerTags, tag <+: line) ∨
      loc.bQueryInProgress = true ∧ ∃ tag ∈ imageTags, tag <+: line)

/-- The effect of a line that is none of the listener's own: it ends an open row. -/
def closeRow (s : Locals × Shared) : Locals × Shared :=
  ((endOfDataColumn s.1 []).1, s.2.execAll (endOfDataColumn s.1 []).2)

section Line
variable {s : Locals × Shared} {loc : Locals} {line : Text}

theorem closeRow_closed : (closeRow s).1.bDataColumnInProgress = false := by
  unfold closeRow endOfDataColumn
  cases h : s.1.bDataColumnInProgress with
  | false => simp [h]
  | true => rw [if_pos (by decide)]

theorem closeRow_of_closed (h : s.1.bDataColumnInProgress = false) : closeRow s = s := by
  unfold closeRow endOfDataColumn
  simp [h]

theorem forges_closeRow (h : Forges (closeRow s).1 line) : Forges s.1 line := by
  have hflags : (closeRow s).1.bStartOfStmt = s.1.bStartOfStmt ∧
      ((closeRow s).1.bQueryInProgress = true → s.1.bQueryInProgress = true) := by
    unfold closeRow endOfDataColumn
    split
    · exact ⟨rfl, fun hq => (Bool.and_eq_true_iff.mp hq).1⟩
    · exact ⟨rfl, id⟩
  rcases h with h | ⟨hs, h⟩
  · exact .inl h
  · rw [hflags.1] at hs
    exact .inr ⟨hs, h.imp_right fun h => ⟨hflags.2 h.1, h.2⟩⟩

theorem rowLine_not_forged (hheader : ¬∃ tag ∈ headerTags, tag <+: line)
    (himage : ¬(loc.bQueryInProgress = true ∧ ∃ tag ∈ imageTags, tag <+: line))
    (seq : BinLogSequence) : rowLine seq loc line = .ok ⟨loc, [], false⟩ := by
  have hno : ∀ tag ∈ headerTags, startsWith line tag = false := fun tag htag =>
    Bool.eq_false_iff.mpr fun hs => hheader ⟨tag, htag, startsWith_iff.mp hs⟩
  have hno' : ∀ tag ∈ imageTags, (loc.bQueryInProgress && startsWith line tag) = false := by
    intro tag htag
    rw [Bool.eq_false_iff]
    intro hs
    obtain ⟨hq, hs⟩ := Bool.and_eq_true_iff.mp hs
    exact himage ⟨hq, tag, htag, startsWith_iff.mp hs⟩
  simp only [headerTags, List.forall_mem_cons] at hno
  simp only [imageTags, List.forall_mem_cons] at hno'
  obtain ⟨h₁, h₂, h₃, -⟩ := hno
  obtain ⟨h₄, h₅, h₆, -⟩ := hno'
  simp only [rowLine, h₁, h₂, h₃, h₄, h₅, h₆, Bool.false_eq_true, if_false]

/-- A line that forges nothing is passed over. -/
theorem dispatch_not_forged (h : ¬Forges loc line) (seq : BinLogSequence) :
    dispatch seq loc line = .ok ⟨loc, [], false⟩ := by
  rw [Forges, not_or, not_and] at h
  rw [dispatch_untagged fun tag htag hp => h.1 ⟨tag, htag, hp⟩]
  split
  · rename_i hrow
    obtain ⟨hheader, himage⟩ := not_or.mp (h.2 (Bool.and_eq_true_iff.mp hrow).1)
    exact rowLine_not_forged hheader himage seq
  · rfl

theorem endOfDataColumn_not_column (h : loc.bDataColumnInProgress = true → ¬columnPrefix <+: line) :
    endOfDataColumn loc line = endOfDataColumn loc [] := by
  unfold endOfDataColumn
  cases hd : loc.bDataColumnInProgress with
  | false => rfl
  | true =>
    have hno : startsWith line columnPrefix = false :=
      Bool.eq_false_iff.mpr fun hs => h hd (startsWith_iff.mp hs)
    rw [hno]
    rfl

theorem decodeLine_not_forged (hn : s.1.Nested) (h : ¬Forges s.1 line) :
    decodeLine s line = .ok (closeRow s) := by
  have hcolumn : s.1.bDataColumnInProgress = true → ¬columnPrefix <+: line := by
    intro hd hp
    obtain ⟨hq, hs⟩ := hn hd
    exact h (.inr ⟨hs, .inr ⟨hq, columnPrefix, by decide, hp⟩⟩)
  have hclosed : ¬Forges (closeRow s).1 line := fun hf => h (forges_closeRow hf)
  rw [decodeLine, handleLine, endOfDataColumn_not_column hcolumn]
  have hd := dispatch_not_forged hclosed s.2.stBinLogSeq
  unfold closeRow at hd ⊢
  rw [hd]
  simp only [Except.map, List.append_nil]

theorem closeRow_nested (hn : s.1.Nested) : (closeRow s).1.Nested := endOfDataColumn_nested hn []

/-- Lines that forge nothing do nothing when no row is open. -/
theorem foldlM_closed {lines : List Text} (hn : s.1.Nested)
    (hclosed : s.1.bDataColumnInProgress = false) (h : ∀ l ∈ lines, ¬Forges s.1 l) :
    lines.foldlM decodeLine s = .ok s := by
  induction lines with
  | nil => rfl
  | cons l ls ih =>
    rw [List.forall_mem_cons] at h
    rw [List.foldlM_cons, decodeLine_not_forged hn h.1, closeRow_of_closed hclosed, ok_bind]
    exact ih h.2

/-- Lines that forge nothing end an open row and do nothing more. -/
theorem foldlM_not_forged {lines : List Text} (hn : s.1.Nested)
    (h : ∀ l ∈ lines, ¬Forges s.1 l) (hne : lines ≠ []) :
    lines.foldlM decodeLine s = .ok (closeRow s) := by
  cases lines with
  | nil => exact absurd rfl hne
  | cons l ls =>
    rw [List.forall_mem_cons] at h
    rw [List.foldlM_cons, decodeLine_not_forged hn h.1, ok_bind]
    exact foldlM_closed (closeRow_nested hn) closeRow_closed fun l hl hf =>
      h.2 l hl (forges_closeRow hf)

theorem decodeLine_nested {s' : Locals × Shared} (hn : s.1.Nested)
    (h : decodeLine s line = .ok s') : s'.1.Nested := by
  obtain ⟨hh, hhandle, rfl⟩ := map_eq_ok_iff.mp h
  exact handleLine_nested hn hhandle

theorem decode_nested {s' : Locals × Shared} {t : Text} (hn : s.1.Nested)
    (h : decode s t = .ok s') : s'.1.Nested := by
  rw [decode] at h
  generalize completeLines t = lines at h
  induction lines generalizing s with
  | nil =>
    cases h
    exact hn
  | cons l ls ih =>
    rw [List.foldlM_cons] at h
    obtain ⟨s₁, hs₁, h⟩ := bind_eq_ok_iff.mp h
    exact ih (decodeLine_nested hn hs₁) h

end Line

section Marker
variable {s : Locals × Shared}

/-- What the first line of the marker of a statement does, whatever its text is. -/
def queryEffect (s : Locals × Shared) (pos logPos : ℕ) : Locals × Shared :=
  ({ (closeRow s).1 with ulPosition := clip pos, ulIndex := 0 },
    (closeRow s).2.execAll
      [.setInProgess ⟨(closeRow s).1.szBinLogName, clip logPos, 0⟩, .saveInDisk 3])

theorem decodeLine_query (s : Locals × Shared) (pos logPos : ℕ) (t : Text) :
    decodeLine s (queryTag ++ (markerPositions pos logPos ++ t)) =
      .ok (queryEffect s pos logPos) := by
  have hcolumn : ¬columnPrefix <+: queryTag ++ (markerPositions pos logPos ++ t) := by
    intro hp
    have hs := startsWith_apart (markerPositions pos logPos ++ t)
      (by decide : Apart queryTag columnPrefix)
    rw [startsWith_iff.mpr hp] at hs
    exact Bool.noConfusion hs
  have hdrop : (queryTag ++ (markerPositions pos logPos ++ t)).drop 8 =
      markerPositions pos logPos ++ t := rfl
  rw [decodeLine, handleLine, endOfDataColumn_not_column fun _ => hcolumn, dispatch_query,
    queryLine, hdrop, positions_markerPositions]
  simp only [ok_bind, Except.map, pure, Except.pure, Shared.execAll_append]
  rfl

theorem queryEffect_closed (pos logPos : ℕ) :
    (queryEffect s pos logPos).1.bDataColumnInProgress = false := closeRow_closed

/-- The marker of a statement whose further lines forge nothing has the effect of its first line. -/
theorem decode_queryMarker {pos logPos ulIndex : ℕ} {query : Text} (hn : s.1.Nested)
    (h : ∀ l ∈ (completeLines (queryMarker pos logPos query ulIndex)).tail,
      ¬Forges (queryEffect s pos logPos).1 l) :
    decode s (queryMarker pos logPos query ulIndex) = .ok (queryEffect s pos logPos) := by
  obtain ⟨u, hu⟩ := completeLines_queryMarker pos logPos (query ++ '!' :: decimal ulIndex ++ ['!'])
  have hline := decodeLine_query s pos logPos u
  rw [queryMarker, hu, List.tail_cons] at h
  rw [decode, queryMarker, hu, List.foldlM_cons, hline, ok_bind]
  exact foldlM_closed (decodeLine_nested hn hline) (queryEffect_closed pos logPos) h

theorem completeLines_textLine_ne_nil (t : Text) : completeLines (textLine t) ≠ [] := by
  intro h
  have hu := unlines_split '\n' [] (textLine t)
  rw [whole_textLine t, show (split '\n' [] (textLine t)).1 = [] from h] at hu
  simp [textLine] at hu

/-- A printed statement whose lines forge nothing ends an open row. -/
theorem decode_statement {query : Text} (hn : s.1.Nested)
    (h : ∀ l ∈ completeLines (textLine query), ¬Forges s.1 l) :
    decode s (textLine query) = .ok (closeRow s) :=
  foldlM_not_forged hn h (completeLines_textLine_ne_nil query)

end Marker

section Whole

/-- A line behind any text ends the text. -/
theorem whole_append_textLine (t l : Text) : Whole (t ++ textLine l) := by
  rw [Whole, textLine, ← List.append_assoc, split_append]
  simp [split]

theorem whole_flatMap {α : Type} {f : α → Text} (xs : List α) (h : ∀ x ∈ xs, Whole (f x)) :
    Whole (xs.flatMap f) := by
  induction xs with
  | nil => rfl
  | cons x xs ih =>
    rw [List.forall_mem_cons] at h
    exact h.1.append (ih h.2)

theorem whole_printLines (ls : List Line) : Whole (printLines ls) :=
  whole_flatMap ls fun l _ => whole_textLine l.text

theorem whole_printBefore (info : PrintInfo) (ev : LogEvent) : Whole (printBefore info ev).2 := by
  have hskip : Whole (printSkipReplication info ev) := by
    unfold printSkipReplication
    split
    · rfl
    · exact whole_textLine _
  unfold printBefore
  cases ev.data with
  | rows e =>
    dsimp only
    split <;> rfl
  | annotateRows => rfl
  | tableMap => rfl
  | formatDescription => rfl
  | _ => exact hskip

theorem whole_printQueryHeader (h : Header) (summary : Line) (useDb : Option Text)
    (settings : List Setting) : Whole (printQueryHeader h summary useDb settings) := by
  unfold printQueryHeader
  refine ((whole_textLine _).append ?_).append (whole_printLines _)
  cases useDb with
  | none => rfl
  | some db => exact whole_textLine _

/-- What an event prints behind its marker ends with a line, and so does what it keeps. -/
theorem whole_printAfter {info : PrintInfo} (h : Whole info.headCache) (ev : LogEvent) :
    Whole (printAfter info ev).1.headCache ∧ Whole (printAfter info ev).2 := by
  unfold printAfter
  cases ev.data with
  | query summary useDb settings query =>
    exact ⟨rfl, (whole_printQueryHeader _ _ _ _).append
      ((whole_textLine _).append (whole_textLine _))⟩
  | xid xid => exact ⟨rfl, (whole_textLine _).append (whole_textLine _)⟩
  | gtid seqNo summary settings standalone =>
    refine ⟨rfl, ((whole_textLine _).append (whole_printLines _)).append ?_⟩
    split
    · rfl
    · exact (whole_textLine _).append (whole_textLine _)
  | annotateRows queryTxt => exact ⟨h, rfl⟩
  | tableMap tableId db table hasTriggers => exact ⟨rfl, whole_append_textLine _ _⟩
  | rows e =>
    unfold printRowEvent
    dsimp only
    split
    · exact ⟨rfl, whole_append_textLine _ _⟩
    · exact ⟨whole_append_textLine _ _, rfl⟩
  | _ => exact ⟨rfl, whole_printLines _⟩

theorem whole_printEvent {info : PrintInfo} (h : Whole info.headCache) (ulIndex pos : ℕ)
    (ev : LogEvent) :
    Whole (printEvent ulIndex info pos ev).1.headCache ∧
      Whole (printEvent ulIndex info pos ev).2 := by
  have hhead : (printBefore info ev).1.headCache = info.headCache := by
    unfold printBefore
    cases ev.data with
    | rows e =>
      dsimp only
      split <;> rfl
    | _ => rfl
  obtain ⟨hcache, hafter⟩ := whole_printAfter (hhead ▸ h) ev
  exact ⟨hcache, (((whole_textLine _).append (whole_printBefore info ev)).append
    (whole_marker ev pos ulIndex)).append hafter⟩

end Whole

/-- The event with another statement text, if it has one. -/
def LogEvent.withStatement (ev : LogEvent) (text : Text) : LogEvent :=
  match ev.data with
  | .query summary useDb settings _ => { ev with data := .query summary useDb settings text }
  | _ => ev

/-- The events have the same positions and data apart from the text of a statement. -/
def SameButText (e e' : ℕ × LogEvent) : Prop := e'.1 = e.1 ∧ ∃ text, e'.2 = e.2.withStatement text

/-- What is printed between the two copies of a statement. -/
def queryHeader (ev : LogEvent) : Text :=
  match ev.data with
  | .query summary useDb settings _ => printQueryHeader ev.header summary useDb settings
  | _ => []

/-- What is printed of an event in front of its marker. -/
def queryFront (info : PrintInfo) (pos : ℕ) (ev : LogEvent) : Text :=
  printAt pos ++ (printBefore info ev).2

/-- No line of the statement is one that the listener takes for its own when it is read: in the
marker, and where the statement is printed. No byte of it ends the pipe. -/
def Inert (ulIndex : ℕ) (info : PrintInfo) (pos : ℕ) (ev : LogEvent) (s : Locals × Shared) : Prop :=
  ∀ query ∈ ev.statement, ctrlZ ∉ query ∧ ∀ s₁, decode s (queryFront info pos ev) = .ok s₁ →
    (∀ l ∈ (completeLines (queryMarker pos ev.logPos query ulIndex)).tail,
        ¬Forges (queryEffect s₁ pos ev.logPos).1 l) ∧
      ∀ s₂, decode (queryEffect s₁ pos ev.logPos) (queryHeader ev) = .ok s₂ →
        ∀ l ∈ completeLines (textLine query), ¬Forges s₂.1 l

/-- Every statement is inert in the state in which its event is read, as long as the pipe delivers
the events. -/
def InertRun (ulIndex : ℕ) :
    PrintInfo → Locals × Shared → List (ℕ × LogEvent) → Prop
  | _, _, [] => True
  | info, s, (pos, ev) :: es => Inert ulIndex info pos ev s ∧
      ∀ s', ctrlZ ∉ (printEvent ulIndex info pos ev).2 →
        decode s (printEvent ulIndex info pos ev).2 = .ok s' →
        InertRun ulIndex (printEvent ulIndex info pos ev).1 s' es

section Run
variable {ulIndex pos : ℕ} {info : PrintInfo} {ev : LogEvent} {s : Locals × Shared}

/-- Of two texts of which the first ends with a line, the pipe delivers the second only when it
delivers the first whole. -/
theorem decode_piped_append {t : Text} (ht : Whole t) (s : Locals × Shared) (u : Text) :
    decode s (piped (t ++ u)) =
      if ctrlZ ∈ t then decode s (piped t) else decode s t >>= fun s' => decode s' (piped u) := by
  split
  · rename_i h
    rw [piped_append_of_mem h]
  · rename_i h
    rw [piped_append h, decode_append ht]

theorem ctrlZ_not_mem_statement {query : Text} (hz : ctrlZ ∉ query) :
    ctrlZ ∉ textLine query ++ delimiterLine := by
  simp only [textLine, delimiterLine, List.mem_append, not_or]
  exact ⟨⟨hz, by decide⟩, by decide⟩

/-- What the pipe delivers of an event does, when its statement is inert, what is delivered of the
text around the statement does. -/
theorem decode_statementEvent {summary : Line} {useDb : Option Text} {settings : List Setting}
    {query : Text} (hd : ev.data = .query summary useDb settings query) (hn : s.1.Nested)
    (h : Inert ulIndex info pos ev s) :
    (ctrlZ ∈ (printEvent ulIndex info pos ev).2 ↔
        ctrlZ ∈ queryFront info pos ev ∨ ctrlZ ∈ queryHeader ev) ∧
      decode s (piped (printEvent ulIndex info pos ev).2) =
        if ctrlZ ∈ queryFront info pos ev then decode s (piped (queryFront info pos ev))
        else decode s (queryFront info pos ev) >>= fun s₁ =>
          if ctrlZ ∈ queryHeader ev then
            decode (queryEffect s₁ pos ev.logPos) (piped (queryHeader ev))
          else decode (queryEffect s₁ pos ev.logPos) (queryHeader ev) >>= fun s₂ =>
            decode (closeRow s₂) delimiterLine := by
  have htext : (printEvent ulIndex info pos ev).2 = queryFront info pos ev ++
      (queryMarker pos ev.logPos query ulIndex ++
        (queryHeader ev ++ (textLine query ++ delimiterLine))) := by
    simp only [printEvent, LogEvent.marker, printAfter, queryFront, queryHeader, hd,
      Option.getD_some, List.append_assoc]
  have hquery : query ∈ ev.statement := by
    simp only [LogEvent.statement, hd, Option.mem_def]
  obtain ⟨hz, h⟩ := h query hquery
  have hmark := ctrlZ_not_mem_queryMarker hz pos ev.logPos ulIndex
  have hstatement := ctrlZ_not_mem_statement hz
  have hwhole : Whole (queryHeader ev) := by
    simp only [queryHeader, hd]
    exact whole_printQueryHeader _ _ _ _
  have hfront : Whole (queryFront info pos ev) :=
    (whole_textLine _).append (whole_printBefore info ev)
  have hlines : Whole (queryMarker pos ev.logPos query ulIndex) := whole_textLine _
  rw [htext]
  constructor
  · rw [List.mem_append, List.mem_append, List.mem_append (s := queryHeader ev),
      or_iff_right hmark, or_iff_left hstatement]
  · rw [decode_piped_append hfront]
    refine if_congr Iff.rfl rfl ?_
    cases hs₁ : decode s (queryFront info pos ev) with
    | error e => rfl
    | ok s₁ =>
      obtain ⟨hmarker, hprinted⟩ := h s₁ hs₁
      have hn₁ := decode_nested hn hs₁
      have hs₂ := decode_queryMarker hn₁ hmarker
      have hn₂ := decode_nested hn₁ hs₂
      rw [ok_bind, ok_bind, decode_piped_append hlines, if_neg hmark, hs₂, ok_bind,
        decode_piped_append hwhole]
      refine if_congr Iff.rfl rfl ?_
      cases hs₃ : decode (queryEffect s₁ pos ev.logPos) (queryHeader ev) with
      | error e => rfl
      | ok s₃ =>
        have hs₄ := decode_statement (decode_nested hn₂ hs₃) (hprinted s₃ hs₃)
        rw [ok_bind, ok_bind, piped_of_not_mem hstatement, decode_append (whole_textLine _), hs₄,
          ok_bind]

theorem printBefore_withStatement (info : PrintInfo) (ev : LogEvent) (text : Text) :
    printBefore info (ev.withStatement text) = printBefore info ev := by
  unfold LogEvent.withStatement
  cases hd : ev.data with
  | query => simp only [printBefore, hd, printSkipReplication]
  | _ => rfl

/-- Two events that differ in inert statement texts leave the listener and the printer in the same
state, and either both or none of them end the pipe. -/
theorem decode_sameButText {e e' : ℕ × LogEvent} (h : SameButText e e') (hn : s.1.Nested)
    (hinert : Inert ulIndex info e.1 e.2 s) (hinert' : Inert ulIndex info e'.1 e'.2 s) :
    (printEvent ulIndex info e.1 e.2).1 = (printEvent ulIndex info e'.1 e'.2).1 ∧
      (ctrlZ ∈ (printEvent ulIndex info e.1 e.2).2 ↔
        ctrlZ ∈ (printEvent ulIndex info e'.1 e'.2).2) ∧
      decode s (piped (printEvent ulIndex info e.1 e.2).2) =
        decode s (piped (printEvent ulIndex info e'.1 e'.2).2) := by
  obtain ⟨pos, ev⟩ := e
  obtain ⟨pos', ev'⟩ := e'
  obtain ⟨rfl, text, rfl⟩ : pos' = pos ∧ ∃ text, ev' = ev.withStatement text := h
  dsimp only at hinert hinert' ⊢
  cases hd : ev.data with
  | query summary useDb settings query =>
    have hev : ev.withStatement text = { ev with data := .query summary useDb settings text } := by
      rw [LogEvent.withStatement, hd]
    have hbefore := printBefore_withStatement info ev text
    rw [hev] at hinert' hbefore ⊢
    obtain ⟨hmem, hdecode⟩ := decode_statementEvent hd hn hinert
    obtain ⟨hmem', hdecode'⟩ := decode_statementEvent rfl hn hinert'
    have hfront : queryFront info pos' { ev with data := .query summary useDb settings text } =
        queryFront info pos' ev := by
      rw [queryFront, hbefore, queryFront]
    have hheader : queryHeader { ev with data := .query summary useDb settings text } =
        queryHeader ev := by
      simp only [queryHeader, hd]
    rw [hfront, hheader] at hmem' hdecode'
    refine ⟨?_, hmem.trans hmem'.symm, hdecode.trans hdecode'.symm⟩
    simp only [printEvent, printAfter, hbefore, hd]
  | _ =>
    have hev : ev.withStatement text = ev := by rw [LogEvent.withStatement, hd]
    rw [hev]
    exact ⟨rfl, Iff.rfl, rfl⟩

/-- Over what the pipe delivers of events that differ in inert statement texts, the listener goes
through the same states. -/
theorem decode_inertRun {es es' : List (ℕ × LogEvent)} (h : List.Forall₂ SameButText es es') :
    ∀ {info : PrintInfo} {s : Locals × Shared}, Whole info.headCache → s.1.Nested →
      InertRun ulIndex info s es → InertRun ulIndex info s es' →
      decode s (piped (printEvents ulIndex info es).2) =
        decode s (piped (printEvents ulIndex info es').2) := by
  induction h with
  | nil => exact fun _ _ _ _ => rfl
  | @cons e e' es es' hsame _ ih =>
    obtain ⟨pos, ev⟩ := e
    obtain ⟨pos', ev'⟩ := e'
    rintro info s hwhole hn ⟨hinert, hrest⟩ ⟨hinert', hrest'⟩
    obtain ⟨hinfo, hmem, hdecode⟩ := decode_sameButText hsame hn hinert hinert'
    obtain ⟨hcache, htext⟩ := whole_printEvent hwhole ulIndex pos ev
    have htext' := (whole_printEvent hwhole ulIndex pos' ev').2
    simp only [printEvents]
    rw [decode_piped_append htext, decode_piped_append htext']
    dsimp only at hinfo hmem hdecode
    by_cases hz : ctrlZ ∈ (printEvent ulIndex info pos ev).2
    · rw [if_pos hz, if_pos (hmem.mp hz), hdecode]
    · have hz' := mt hmem.mpr hz
      rw [piped_of_not_mem hz, piped_of_not_mem hz'] at hdecode
      rw [if_neg hz, if_neg hz', ← hdecode]
      cases hs : decode s (printEvent ulIndex info pos ev).2 with
      | error e => rfl
      | ok s' =>
        rw [ok_bind, ok_bind]
        have hrun' := hrest' s' hz' (hdecode ▸ hs)
        rw [← hinfo] at hrun' ⊢
        exact ih hcache (decode_nested hn hs) (hrest s' hz hs) hrun'

theorem InertRun.take {es : List (ℕ × LogEvent)} : ∀ {info : PrintInfo} {s : Locals × Shared},
    InertRun ulIndex info s es → ∀ n, InertRun ulIndex info s (es.take n) := by
  induction es with
  | nil => exact fun {_ _} _ _ => by rw [List.take_nil]; trivial
  | cons e es ih =>
    obtain ⟨pos, ev⟩ := e
    rintro info s ⟨hinert, hrest⟩ n
    cases n with
    | zero => trivial
    | succ n => exact ⟨hinert, fun s' hz hs' => ih (hrest s' hz hs') n⟩

end Run

/-- Whatever reads deliver what the pipe lets through of the two texts, after each event the
listener has the same variables and the same positions saved, or the same fault. -/
def StatementsInvisible (env : Env) (ulIndex : ℕ) (annotateEvent : Option (Header × Text))
    (core : Listener) (es es' : List (ℕ × LogEvent)) : Prop :=
  ∀ (n fuel fuel' : ℕ) (mem mem' : Text) (chunks chunks' : List Text),
    iLenBufferOut < fuel → iLenBufferOut < fuel' →
    Cutting (piped (printEvents ulIndex { annotateEvent } (es.take n)).2) chunks →
    Cutting (piped (printEvents ulIndex { annotateEvent } (es'.take n)).2) chunks' →
    ShortLines env (printEvents ulIndex { annotateEvent } (es.take n)).2 →
    ShortLines env (printEvents ulIndex { annotateEvent } (es'.take n)).2 →
    (listen env fuel (.start core mem) chunks).map (fun s => (s.core.loc, s.core.shared)) =
      (listen env fuel' (.start core mem') chunks').map fun s => (s.core.loc, s.core.shared)

/-- No line of the statement begins with a tag of the listener, and no byte of it ends the pipe. -/
def LogEvent.Clean (ev : LogEvent) (ulIndex : ℕ) : Prop :=
  ∀ query ∈ ev.statement, ctrlZ ∉ query ∧
    ∀ l ∈ (completeLines (textLine (query ++ '!' :: decimal ulIndex ++ ['!']))).tail ++
      completeLines (textLine query), ∀ tag ∈ markerTags ++ headerTags ++ imageTags, ¬tag <+: l

instance (ev : LogEvent) (ulIndex : ℕ) : Decidable (ev.Clean ulIndex) :=
  inferInstanceAs (Decidable (∀ query ∈ ev.statement, _ ∧ ∀ l ∈ _, ∀ tag ∈ _, ¬tag <+: l))

theorem not_forges_of_no_tag {line : Text}
    (h : ∀ tag ∈ markerTags ++ headerTags ++ imageTags, ¬tag <+: line) (loc : Locals) :
    ¬Forges loc line := by
  simp only [List.mem_append] at h
  rintro (⟨tag, htag, hp⟩ | ⟨-, ⟨tag, htag, hp⟩ | ⟨-, tag, htag, hp⟩⟩)
  · exact h tag (.inl (.inl htag)) hp
  · exact h tag (.inl (.inr htag)) hp
  · exact h tag (.inr htag) hp

theorem LogEvent.Clean.inert {ev : LogEvent} {ulIndex : ℕ} (h : ev.Clean ulIndex)
    (info : PrintInfo) (pos : ℕ) (s : Locals × Shared) : Inert ulIndex info pos ev s := by
  intro query hquery
  obtain ⟨hz, hclean⟩ := h query hquery
  refine ⟨hz, fun s₁ _ => ?_⟩
  obtain ⟨u, hu⟩ :=
    completeLines_queryMarker pos ev.logPos (query ++ '!' :: decimal ulIndex ++ ['!'])
  rw [queryMarker, hu, List.tail_cons]
  exact ⟨fun l hl => not_forges_of_no_tag (hclean l (List.mem_append_left _ hl)) _,
    fun s₂ _ l hl => not_forges_of_no_tag (hclean l (List.mem_append_right _ hl)) _⟩

theorem inertRun_of_clean {ulIndex : ℕ} {es : List (ℕ × LogEvent)}
    (h : ∀ e ∈ es, e.2.Clean ulIndex) : ∀ (info : PrintInfo) (s : Locals × Shared),
    InertRun ulIndex info s es := by
  induction es with
  | nil => exact fun _ _ => trivial
  | cons e es ih =>
    rw [List.forall_mem_cons] at h
    exact fun info s => ⟨h.1.inert info e.1 s, fun s' _ _ => ih h.2 _ s'⟩

/-- A file with one statement. -/
def oneStatement (query : Text) : List (ℕ × LogEvent) :=
  [(4, ⟨0, 60, false, defaultHeader,
    .query ⟨"\tQuery".toList, newline_not_mem_querySummary⟩ none [] query⟩)]

theorem sameButText_oneStatement (query query' : Text) :
    List.Forall₂ SameButText (oneStatement query) (oneStatement query') :=
  .cons ⟨rfl, query', rfl⟩ .nil

theorem nested_passListener : passListener.loc.Nested := fun h => Bool.noConfusion h

/-- The second line of the statement is the marker of a `COMMIT`. -/
def forgingText : Text := "x\n*!COMMIT!1!99999!1!1!*".toList

theorem decode_forgingText (query : Text) (pos : ℕ)
    (hquery : query = "x".toList ∧ pos = 60 ∨ query = forgingText ∧ pos = 99999) :
    (decode (passListener.loc, passListener.shared)
      (printEvents 1 { annotateEvent := none } ((oneStatement query).take 1)).2).map
        (fun s => s.2.xai.getLast?) = .ok (some ⟨[], pos, 0⟩) := by
  rcases hquery with ⟨rfl, rfl⟩ | ⟨rfl, rfl⟩ <;> decide +kernel

end BinlogCapture
