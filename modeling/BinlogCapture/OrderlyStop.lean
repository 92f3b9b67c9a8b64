import BinlogCapture.Persisted

/-! The lines that the capture file has when the listener stops at the end of a read, against the
events that the saved position has passed. -/
namespace BinlogCapture
open CString Fallible LineFeed Trail

/-- The text up to the first line of the marker of the event `e`. -/
def Pass.upToMarker (p : Pass) (before : List FileRead) (f : FileRead) (es : List (ℕ × LogEvent))
    (e : ℕ × LogEvent) : Text :=
  let info := (printEvents p.ulIndex { annotateEvent := f.annotateEvent } es).1
  p.upTo before f es ++ (printAt e.1 ++ (printBefore info e.2).2 ++
    unlines '\n' (completeLines ((e.2.marker e.1 p.ulIndex).getD [])).head?.toList)

/-- The text ends behind the marker line of a statement or of the end of a transaction, and before
the end of the text of this event. -/
def Pass.StopsInside (p : Pass) (t : Text) : Prop :=
  ∃ before f after es e fs, p.files = before ++ f :: after ∧ f.events = es ++ e :: fs ∧
    e.2.canEnd = true ∧ p.upToMarker before f es e <+: t ∧ ¬p.upTo before f (es ++ [e]) <+: t

/-- When the listener stops behind `t`, all that is printed up to the end of an event that a saved
position has passed is in the capture file. -/
def Pass.CapturesSaved (env : Env) (p : Pass) (t : Text) : Prop :=
  ∀ (core core' : Listener) (written : Text) (saved : List BinLogSequence),
    p.Begins core.shared → Reads env t core core' →
    core'.capture.listened = core.capture.listened ++ written →
    core'.shared.xai = core.shared.xai ++ saved →
    ∀ q ∈ saved, ∀ before f after es e fs, p.files = before ++ f :: after →
      f.events = es ++ e :: fs → e.1 < e.2.logPos →
      p.Ascends ⟨f.szBinLogName, e.2.logPos, 0⟩ q → p.upTo before f (es ++ [e]) <+: written

section Stop
variable {p : Pass} {f : FileRead} {before after : List FileRead} {es fs : List (ℕ × LogEvent)}
  {e : ℕ × LogEvent}

theorem unlines_completeLines {t : Text} (h : Whole t) : unlines '\n' (completeLines t) = t := by
  have hu := unlines_split '\n' [] t
  rw [Whole] at h
  rwa [h, List.append_nil, List.nil_append] at hu

theorem unlines_isPrefix {ls ms : List Text} (h : ls <+: ms) :
    unlines '\n' ls <+: unlines '\n' ms := by
  obtain ⟨rest, rfl⟩ := h
  rw [unlines_append]
  exact List.prefix_append _ _

/-- A text that is in front of the end of a line completes lines in front of this line only. -/
theorem completeLines_of_prefix_line {t z l : Text} (hz : Whole z) (hl : '\n' ∉ l)
    (ht : t <+: z ++ textLine l) (hne : ¬z ++ textLine l <+: t) :
    completeLines t <+: completeLines z := by
  have hcut : t <+: z ++ l := by
    rw [textLine, ← List.append_assoc] at ht hne
    rcases List.prefix_concat_iff.mp ht with rfl | h
    · exact absurd List.prefix_rfl hne
    · exact h
  have hlines : completeLines (z ++ l) = completeLines z := by
    have hnil : completeLines l = [] := by rw [completeLines, split_of_not_mem '\n' hl]
    rw [completeLines_append hz, hnil, List.append_nil]
  rw [← hlines]
  exact completeLines_of_isPrefix hcut

theorem upTo_snoc (p : Pass) (before : List FileRead) (f : FileRead) (es : List (ℕ × LogEvent))
    (e : ℕ × LogEvent) : p.upTo before f (es ++ [e]) = p.upTo before f es ++
      (printEvent p.ulIndex (printEvents p.ulIndex { annotateEvent := f.annotateEvent } es).1
        e.1 e.2).2 := by
  obtain ⟨pos, ev⟩ := e
  simp only [Pass.upTo, FileRead.body, printEvents_append, printEvents, List.append_nil,
    List.append_assoc]

/-- A stop in the files up to `f` that does not stand in front of `f` is one of `f`. -/
theorem mem_stops_of_ascends (h : p.Ordered) (hfiles : p.files = before ++ f :: after)
    {q : BinLogSequence} (hq : q ∈ p.stopsUpTo before f es) {pos : ℕ}
    (hle : p.Ascends ⟨f.szBinLogName, pos, 0⟩ q) :
    q ∈ p.stops f es ∧ pos ≤ q.ulPosition := by
  have hfresh : ∀ g ∈ before, (p.files.map FileRead.szBinLogName).idxOf g.szBinLogName <
      (p.files.map FileRead.szBinLogName).idxOf f.szBinLogName := by
    have horder := nodup_pairwise_idxOf h.names
    rw [List.pairwise_map] at horder
    intro g hg
    rw [hfiles, List.pairwise_append] at horder
    rw [hfiles]
    exact horder.2.2 g hg f List.mem_cons_self
  rcases List.mem_append.mp hq with hq | hq
  · obtain ⟨g, hg, hq⟩ := List.mem_flatMap.mp hq
    have hname := (mem_stops List.prefix_rfl hq).1
    have hlt := hfresh g hg
    rcases hle with hbehind | ⟨hsame, -⟩
    · rw [hname] at hbehind
      dsimp only at hbehind
      omega
    · rw [← hname, ← hsame] at hlt
      exact absurd hlt (Nat.lt_irrefl _)
  · refine ⟨hq, ?_⟩
    rcases hle with hbehind | ⟨-, hle⟩
    · obtain ⟨c, -, rfl⟩ := List.mem_map.mp hq
      exact absurd hbehind (Nat.lt_irrefl _)
    · exact hle

theorem exists_marker_line (hend : e.2.canEnd = true) (ulIndex : ℕ) :
    ∃ l, (completeLines ((e.2.marker e.1 ulIndex).getD [])).head? = some l ∧ '\n' ∉ l := by
  obtain ⟨x, hx⟩ : ∃ x, (e.2.marker e.1 ulIndex).getD [] = textLine x := by
    unfold LogEvent.canEnd at hend
    unfold LogEvent.marker
    cases hd : e.2.data with
    | query => exact ⟨_, rfl⟩
    | xid => exact ⟨_, rfl⟩
    | _ => simp [hd] at hend
  rw [hx]
  cases hl : completeLines (textLine x) with
  | nil =>
    have hu := unlines_completeLines (whole_textLine x)
    rw [hl] at hu
    simp [textLine] at hu
  | cons l ls =>
    refine ⟨l, rfl, split_lines_not_mem '\n' List.not_mem_nil (textLine x) l ?_⟩
    rw [completeLines] at hl
    rw [hl]
    exact List.mem_cons_self

/-- What is printed of the event in front of its marker. -/
def Pass.front (p : Pass) (f : FileRead) (es : List (ℕ × LogEvent)) (e : ℕ × LogEvent) : Text :=
  printAt e.1 ++
    (printBefore (printEvents p.ulIndex { annotateEvent := f.annotateEvent } es).1 e.2).2

/-- The text up to the marker line is a line behind the text that is printed in front of it. -/
theorem upToMarker_eq (p : Pass) (before : List FileRead) (f : FileRead)
    (es : List (ℕ × LogEvent)) (hend : e.2.canEnd = true) : ∃ l, '\n' ∉ l ∧
      p.upToMarker before f es e = (p.upTo before f es ++ p.front f es e) ++ textLine l := by
  obtain ⟨l, hhead, hl⟩ := exists_marker_line hend p.ulIndex
  refine ⟨l, hl, ?_⟩
  simp only [Pass.upToMarker, Pass.front, hhead, Option.toList_some, unlines_cons, unlines_nil,
    textLine, List.append_assoc]

theorem upToMarker_isPrefix (p : Pass) (before : List FileRead) (f : FileRead)
    (es : List (ℕ × LogEvent)) (e : ℕ × LogEvent) :
    p.upToMarker before f es e <+: p.upTo before f (es ++ [e]) := by
  have hline : ∀ m : Text, Whole m → unlines '\n' (completeLines m).head?.toList <+: m := by
    intro m hm
    have hhead : (completeLines m).head?.toList <+: completeLines m := by
      cases completeLines m with
      | nil => exact List.prefix_rfl
      | cons l ls => exact List.prefix_append [l] ls
    have hpre := unlines_isPrefix hhead
    rwa [unlines_completeLines hm] at hpre
  rw [upTo_snoc, Pass.upToMarker, printEvent]
  simp only [List.append_assoc, List.prefix_append_right_inj]
  exact (hline _ (whole_marker e.2 e.1 p.ulIndex)).trans (List.prefix_append _ _)

theorem front_plain (hplain : p.Plain) (hfiles : p.files = before ++ f :: after)
    (hes : es <+: f.events) (e : ℕ × LogEvent) : BinlogCapture.Plain [] (p.front f es e) [] := by
  have hf : f ∈ p.files := hfiles ▸ List.mem_append_right _ List.mem_cons_self
  have hinfo := (printEvents_tells es (infoPlain_start f.annotateEvent) fun d hd =>
    hplain.texts f hf d (hes.subset hd)).1
  exact (plain_printAt e.1).append (printBefore_plain hinfo e.2).2

/-- An event that does not end a transaction adds a stop at its start at most. -/
theorem stopsUpTo_snoc (hend : e.2.canEnd = false) {q : BinLogSequence}
    (hq : q ∈ p.stopsUpTo before f (es ++ [e])) :
    q ∈ p.stopsUpTo before f es ∨ q = ⟨f.szBinLogName, e.1, 0⟩ := by
  rcases List.mem_append.mp hq with hq | hq
  · exact .inl (List.mem_append_left _ hq)
  rw [Pass.stops, checkpoints_append, ← List.cons_append, List.map_append, List.mem_append] at hq
  rcases hq with hq | hq
  · exact .inl (List.mem_append_right _ hq)
  · refine .inr ?_
    obtain ⟨c, hc, rfl⟩ := List.mem_map.mp hq
    rw [checkpoints_cons] at hc
    cases hgtid : e.2.isGtid with
    | false =>
      rw [checkpoint_none hgtid hend] at hc
      cases hc
    | true =>
      rw [checkpoint_gtid hgtid] at hc
      rw [List.mem_singleton.mp hc]

/-- The lines of a stop in front of the end of an event tell nothing behind the start of the
event, unless the stop is inside of a statement or of the end of a transaction. -/
theorem tells_before (h : p.Ordered) (hplain : p.Plain) {t : Text}
    (hfiles : p.files = before ++ f :: after) (hevents : f.events = es ++ e :: fs)
    (hbefore : t <+: p.upTo before f (es ++ [e])) (hin : ¬p.upTo before f (es ++ [e]) <+: t)
    (hstop : ¬p.StopsInside t) (name : Text) :
    ∃ lines as, LinesTell lines as ∧ completeLines t <+: lines ∧
      ∀ q ∈ ⟨p.first.szBinLogName, p.ulPosition, 0⟩ :: targets p.first.szBinLogName name as,
        q ∈ p.stopsUpTo before f es ∨ q = ⟨f.szBinLogName, e.1, 0⟩ := by
  have hes : es <+: f.events := hevents ▸ List.prefix_append _ _
  have hes' : es ++ [e] <+: f.events := ⟨fs, by rw [hevents, List.append_assoc]; rfl⟩
  cases hend : e.2.canEnd with
  | false =>
    refine ⟨_, _, (upTo_tells hplain hfiles hes').lines, completeLines_of_isPrefix hbefore, ?_⟩
    rw [← targets_stopsUpTo h hfiles hes' name]
    exact fun q hq => stopsUpTo_snoc hend hq
  | true =>
    obtain ⟨l, hl, heq⟩ := upToMarker_eq p before f es hend
    have hmarker := upToMarker_isPrefix p before f es e
    have hno : ¬p.upToMarker before f es e <+: t := fun hpre =>
      hstop ⟨before, f, after, es, e, fs, hfiles, hevents, hend, hpre, hin⟩
    have htm := (List.prefix_or_prefix_of_prefix hbefore hmarker).resolve_right hno
    have htells := (upTo_tells hplain hfiles hes).append
      (tells_plain (front_plain hplain hfiles hes e))
    rw [List.append_nil] at htells
    rw [heq] at htm hno
    refine ⟨_, _, htells.lines, completeLines_of_prefix_line htells.whole hl htm hno, ?_⟩
    rw [← targets_stopsUpTo h hfiles hes name]
    exact fun q hq => .inl hq

/-- No position that has passed an event is saved at a stop in front of the end of its text. -/
theorem not_saved_of_before {env : Env} (henv : 2 * iLenBufferOut ≤ env.iMaxBufferLine)
    (h : p.Ordered) (hplain : p.Plain) {t : Text} {core core' : Listener}
    (hbegins : p.Begins core.shared) (hreads : Reads env t core core')
    (hfiles : p.files = before ++ f :: after) (hevents : f.events = es ++ e :: fs)
    (hreal : e.1 < e.2.logPos) (hbefore : t <+: p.upTo before f (es ++ [e]))
    (hin : ¬p.upTo before f (es ++ [e]) <+: t) (hstop : ¬p.StopsInside t)
    {saved : List BinLogSequence} (hxai : core'.shared.xai = core.shared.xai ++ saved)
    {q : BinLogSequence} (hq : q ∈ saved) : ¬p.Ascends ⟨f.szBinLogName, e.2.logPos, 0⟩ q := by
  intro hpassed
  obtain ⟨lines, as, htell, ht, hall⟩ :=
    tells_before h hplain hfiles hevents hbefore hin hstop core.loc.szBinLogName
  obtain ⟨qs, hpre, hdrives⟩ := reads_tells henv hreads htell ht
  obtain ⟨log, hlog, hmem, -⟩ := hdrives.moves.log
  have hsame : core'.shared.xai = core.shared.xai ++ log := hlog
  rw [hxai, List.append_cancel_left_eq] at hsame
  have hstart : q ∈ core.shared.stBinLogSeqInProgess :: qs := hmem q (hsame ▸ hq)
  rw [hbegins.inProgess, hbegins.first] at *
  have hf : f ∈ p.files := hfiles ▸ List.mem_append_right _ List.mem_cons_self
  have horder := h.events f hf
  rw [hevents] at horder
  obtain ⟨mid, hmid, hle, hbound⟩ := horder.append
  have hfirst := hmid.1
  rcases hall q ((List.prefix_cons_inj _).mpr hpre |>.subset hstart) with hq | hq
  · obtain ⟨hq, hpos⟩ := mem_stops_of_ascends h hfiles hq hpassed
    obtain ⟨c, hc, rfl⟩ := List.mem_map.mp hq
    have hcm : c ≤ mid := by
      rcases List.mem_cons.mp hc with rfl | hc
      · exact hle
      · exact hbound c hc
    dsimp only at hpos
    omega
  · rw [hq] at hpassed
    rcases hpassed with hlt | ⟨-, hpos⟩
    · exact absurd hlt (Nat.lt_irrefl _)
    · exact absurd hpos (Nat.not_le_of_lt hreal)

/-- What is read of a text is in the capture file line by line. -/
theorem reads_listened {env : Env} (henv : 2 * iLenBufferOut ≤ env.iMaxBufferLine) {t : Text}
    {core core' : Listener} (hreads : Reads env t core core') :
    core'.capture.listened =
      core.capture.listened ++ unlines '\n' (completeLines t) := by
  obtain ⟨mem, fuel, chunks, s, hfuel, hcut, hshort, hs, rfl⟩ := hreads
  have hrun := listen_refLine henv hfuel core mem hshort hcut
  rw [hs] at hrun
  exact (refLine_delivers _ _ _ hrun.symm).capture

end Stop

/-- A stop between two events of the only file of a pass is inside of none. -/
theorem not_stopsInside_upTo {events es : List (ℕ × LogEvent)} (hes : es <+: events) :
    ¬(onePass events).StopsInside ((onePass events).upTo [] (onePass events).first es) := by
  have hmono : ∀ {ds : List (ℕ × LogEvent)}, ds <+: es →
      (onePass events).upTo [] (onePass events).first ds <+:
        (onePass events).upTo [] (onePass events).first es := by
    rintro ds ⟨rest, rfl⟩
    simp only [Pass.upTo, FileRead.body, printEvents_append, List.append_assoc]
    simp only [List.prefix_append_right_inj]
    exact List.prefix_append _ _
  rintro ⟨before, f, after, ds, e, fs, hfiles, hevents, -, hmarker, hin⟩
  obtain ⟨rfl, rfl, rfl⟩ : before = [] ∧ f = (onePass events).first ∧ after = [] := by
    cases before with
    | nil => exact ⟨rfl, (List.cons.inj hfiles).1.symm, (List.cons.inj hfiles).2.symm⟩
    | cons g before => simp [Pass.files, onePass] at hfiles
  have hds : ds ++ [e] <+: events := ⟨fs, by rw [List.append_assoc]; exact hevents.symm⟩
  rcases List.prefix_or_prefix_of_prefix hds hes with hle | hle
  · exact hin (hmono hle)
  · rcases List.prefix_concat_iff.mp hle with rfl | hle
    · exact hin List.prefix_rfl
    · obtain ⟨rest, rfl⟩ := hle
      -- the marker stands behind the events in front of it
      have hlen := hmarker.length_le
      have hat : 0 < (printAt e.1).length := by
        rw [printAt, textLine, List.length_append, List.length_singleton]
        exact Nat.succ_pos _
      simp only [Pass.upToMarker, Pass.upTo, FileRead.body, printEvents_append,
        List.length_append] at hlen
      omega

/-- The text up to the marker line of the statement. -/
def markedText : Text :=
  (onePass transaction).upToMarker [] (onePass transaction).first (transaction.take 1)
    (transaction.get ⟨1, one_lt_length_transaction⟩)

theorem decode_markedText : (decode (passListener.loc, passListener.shared) markedText).map
    (fun s => s.2.xai.getLast?) = .ok (some ⟨firstName, 120, 0⟩) := by
  decide +kernel

end BinlogCapture
