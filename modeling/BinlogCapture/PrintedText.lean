import BinlogCapture.Decode

/-! What `process_event` prints apart from its markers is text that the listener does not take for
a marker, when no name and no statement brings a line that looks like one. -/
namespace BinlogCapture
open CString LineFeed

/-- Behind the pending bytes `r`, the text completes unmarked lines and leaves `r'` pending. -/
def Plain (r t r' : Text) : Prop :=
  (∀ l ∈ (split '\n' r t).1, Unmarked l) ∧ (split '\n' r t).2 = r'

theorem Plain.nil (r : Text) : Plain r [] r := ⟨by simp [split], rfl⟩

theorem Plain.append {p t q u r : Text} (h : Plain p t q) (h' : Plain q u r) :
    Plain p (t ++ u) r := by
  rw [Plain, split_append, h.2]
  refine ⟨fun l hl => ?_, h'.2⟩
  rcases List.mem_append.mp hl with hl | hl
  · exact h.1 l hl
  · exact h'.1 l hl

theorem Plain.whole {t : Text} (h : Plain [] t []) : Whole t := h.2

theorem Plain.unmarked {t r : Text} (h : Plain [] t r) : ∀ l ∈ completeLines t, Unmarked l := h.1

theorem plain_textLine {l r : Text} (hl : '\n' ∉ l) (h : Unmarked (r ++ l)) :
    Plain r (textLine l) [] := by
  rw [Plain, textLine, split_line '\n' hl]
  exact ⟨by simpa [split] using h, rfl⟩

theorem plain_flatMap {α : Type} {f : α → Text} (xs : List α)
    (h : ∀ x ∈ xs, Plain [] (f x) []) : Plain [] (xs.flatMap f) [] := by
  induction xs with
  | nil => exact .nil []
  | cons x xs ih =>
    rw [List.forall_mem_cons] at h
    exact h.1.append (ih h.2)

theorem plain_unlines {ls : List Text} (h : ∀ l ∈ ls, '\n' ∉ l ∧ Unmarked l) :
    Plain [] (unlines '\n' ls) [] :=
  plain_flatMap ls fun l hl => plain_textLine (h l hl).1 (h l hl).2

theorem plain_printLines {ls : List Line} (h : ∀ l ∈ ls, Unmarked l.text) :
    Plain [] (printLines ls) [] :=
  plain_flatMap ls fun l hl => plain_textLine l.line (h l hl)

/-- A line that begins unlike every tag and unlike a column is unmarked. -/
theorem unmarked_of_isPrefix {p : Text} (h : ∀ q ∈ columnPrefix :: markerTags, Apart p q)
    (t : Text) :
    Unmarked (p ++ t) := by
  rw [List.forall_mem_cons] at h
  refine ⟨fun tag htag hp => ?_, fun hp => ?_⟩
  · have hs := startsWith_apart t (h.2 tag htag)
    rw [startsWith_iff.mpr hp] at hs
    exact Bool.noConfusion hs
  · have hs := startsWith_apart t h.1
    rw [startsWith_iff.mpr hp] at hs
    exact Bool.noConfusion hs

theorem unmarked_header (h : Header) (t : Text) : Unmarked (printHeader h ++ t) := by
  refine ⟨fun tag htag hp => ?_, fun hp => ?_⟩
  · have hhead : ∀ tag ∈ markerTags, tag.head? = some '*' := by decide
    obtain ⟨u, hu⟩ := hp
    obtain ⟨tag', rfl⟩ : ∃ tag', tag = '*' :: tag' := by
      simpa [List.head?_eq_some_iff] using hhead tag htag
    simp [printHeader] at hu
  · obtain ⟨u, hu⟩ := hp
    have hcomment := h.comment
    cases ht : h.text with
    | nil => simp [ht] at hcomment
    | cons c cs =>
      have hcol : columnPrefix = '#' :: '#' :: "#   @".toList := rfl
      rw [printHeader, ht, hcol] at hu
      have hc : '#' = c := (List.cons.inj (List.cons.inj hu).2).1
      simp [ht, ← hc] at hcomment

/-- The last line of a quoted name ends with the quote, which no tag contains. -/
theorem Unmarked.append {l : Text} (h : Unmarked l) (hq : '`' ∈ l) (t : Text) :
    Unmarked (l ++ t) := by
  have hshort : ∀ p, '`' ∉ p → p <+: l ++ t → p <+: l := by
    intro p hp hpre
    rcases List.prefix_or_prefix_of_prefix hpre (List.prefix_append l t) with hpl | hlp
    · exact hpl
    · exact absurd (hlp.subset hq) hp
  refine ⟨fun tag htag hp => ?_, fun hp => ?_⟩
  · have hno : ∀ tag ∈ markerTags, '`' ∉ tag := by decide
    exact h.1 tag htag (hshort tag (hno tag htag) hp)
  · have heq := h.2 (hshort columnPrefix (by decide) hp)
    rw [List.drop_append]
    exact List.mem_append_left _ heq

/-- Every line break in the quoted name is followed by an unmarked line. -/
def NamePlain (name : Text) : Prop := ∀ l ∈ (completeLines (textLine name)).tail, Unmarked l

/-- A line around a text that ends with a quote. -/
theorem plain_named {p name t : Text} (hp : '\n' ∉ p) (ht : '\n' ∉ t)
    (hline : ∀ u, Unmarked (p ++ u)) (hquote : name.getLast? = some '`') (hname : NamePlain name) :
    Plain [] (textLine (p ++ name ++ t)) [] := by
  obtain ⟨L, r, hs⟩ : ∃ L r, split '\n' [] name = (L, r) := ⟨_, _, rfl⟩
  have hlast : '`' ∈ r := by
    have hu := unlines_split '\n' [] name
    rw [hs, List.nil_append] at hu
    rw [← hu] at hquote
    rcases List.eq_nil_or_concat' r with rfl | ⟨r', c, rfl⟩
    · rcases List.eq_nil_or_concat' L with rfl | ⟨L', l, rfl⟩
      · simp at hquote
      · simp [unlines] at hquote
    · rw [← List.append_assoc, List.getLast?_concat, Option.some.injEq] at hquote
      simp [hquote]
  have hlines : completeLines (textLine name) = L ++ [r] := by
    rw [completeLines, textLine, split_append, hs]
    simp [split]
  rw [NamePlain, hlines] at hname
  have hpending : split '\n' [] (p ++ name) =
      (L.modifyHead (p ++ ·), if L = [] then p ++ r else r) := by
    rw [split_append, split_of_not_mem '\n' hp, List.nil_append, List.nil_append,
      split_pending_eq, hs]
  rw [Plain, textLine, split_append, split_append, hpending, split_of_not_mem '\n' ht]
  cases L with
  | nil => simpa [split] using hline (r ++ t)
  | cons l ls =>
    have hall : ∀ x ∈ ls ++ [r], Unmarked x := hname
    simp only [List.modifyHead_cons, reduceCtorEq, if_false, split, if_true, List.append_nil]
    refine ⟨fun x hx => ?_, trivial⟩
    simp only [List.cons_append, List.mem_cons, List.mem_append, List.not_mem_nil, or_false] at hx
    rcases hx with rfl | hx | rfl
    · exact hline l
    · exact hall x (List.mem_append_left _ hx)
    · exact (hall r (by simp)).append hlast t

/-- A line of literal text and of text without line break. -/
theorem plain_literal {p t : Text} (hp : '\n' ∉ p) (ht : '\n' ∉ t)
    (h : ∀ q ∈ columnPrefix :: markerTags, Apart p q) : Plain [] (textLine (p ++ t)) [] := by
  refine plain_textLine ?_ (unmarked_of_isPrefix h t)
  rw [List.mem_append, not_or]
  exact ⟨hp, ht⟩

theorem plain_header (h : Header) {t : Text} (ht : '\n' ∉ t) :
    Plain [] (textLine (printHeader h ++ t)) [] := by
  refine plain_textLine ?_ (unmarked_header h t)
  simp only [printHeader, List.cons_append, List.mem_cons, List.mem_append, not_or]
  exact ⟨by decide, h.line, ht⟩

theorem newline_not_mem_decimal (n : ℕ) : '\n' ∉ decimal n := not_mem_decimal (by decide) n

theorem plain_printAt (pos : ℕ) : Plain [] (printAt pos) [] :=
  plain_literal (by decide) (newline_not_mem_decimal pos) (by decide)

theorem plain_printSkipReplication (info : PrintInfo) (ev : LogEvent) :
    Plain [] (printSkipReplication info ev) [] := by
  unfold printSkipReplication
  split
  · exact .nil []
  · rw [List.append_assoc]
    refine plain_literal (by decide) ?_ (by decide)
    split <;> decide

theorem plain_printSettings (settings : List Setting) : Plain [] (printSettings settings) [] := by
  refine plain_printLines fun l hl => ?_
  obtain ⟨s, -, rfl⟩ := List.mem_map.mp hl
  rcases s.setting with ⟨u, hu⟩ | ⟨u, hu⟩
  · rw [← hu]
    exact unmarked_of_isPrefix (by decide) u
  · rw [← hu]
    exact unmarked_of_isPrefix (by decide) u

theorem getLast?_quoteName (name : Text) : (quoteName name).getLast? = some '`' := by
  rw [quoteName, List.getLast?_concat]

theorem getLast?_qualified (db table : Text) : (qualified db table).getLast? = some '`' := by
  rw [qualified, List.getLast?_append, List.getLast?_cons, getLast?_quoteName]
  rfl

theorem plain_printQueryHeader (h : Header) (summary : Line) {useDb : Option Text}
    (settings : List Setting) (hdb : ∀ db ∈ useDb, NamePlain (quoteName db)) :
    Plain [] (printQueryHeader h summary useDb settings) [] := by
  refine ((plain_header h summary.line).append ?_).append (plain_printSettings settings)
  cases useDb with
  | none => exact .nil []
  | some db =>
    exact plain_named (by decide) (by decide) (unmarked_of_isPrefix (by decide))
      (getLast?_quoteName db) (hdb db rfl)

theorem plain_delimiterLine : Plain [] delimiterLine [] := plain_literal (p := "/*!*/;".toList)
  (t := []) (by decide) (by decide) (by decide)

theorem plain_printGtid (h : Header) (summary : Line) (settings : List Setting)
    (standalone : Bool) : Plain [] (printGtid h summary settings standalone) [] := by
  have hsummary : '\n' ∉ "\tGTID ".toList ++ summary.text := by
    rw [List.mem_append, not_or]
    exact ⟨by decide, summary.line⟩
  refine Plain.append (q := []) ?_ ?_
  · rw [List.append_assoc]
    exact (plain_header h hsummary).append (plain_printSettings settings)
  · cases standalone with
    | true => exact .nil []
    | false =>
      exact (plain_literal (p := "BEGIN".toList) (t := []) (by decide) (by decide)
        (by decide)).append plain_delimiterLine

theorem plain_printXid (h : Header) (xid : ℕ) : Plain [] (printXid h xid) [] := by
  have hsummary : '\n' ∉ "\tXid = ".toList ++ decimal xid := by
    rw [List.mem_append, not_or]
    exact ⟨by decide, newline_not_mem_decimal xid⟩
  refine Plain.append ?_ (plain_literal (p := "COMMIT/*!*/;".toList) (t := []) (by decide)
    (by decide) (by decide))
  rw [List.append_assoc]
  exact plain_header h hsummary

theorem annotateLines_line (queryLen cnt : ℕ) (cur : Option Text) (t : Text)
    (hcur : ∀ l ∈ cur, '\n' ∉ l) : ∀ l ∈ annotateLines queryLen cnt cur t, '\n' ∉ l := by
  induction t generalizing cnt cur with
  | nil =>
    cases cur with
    | none => simp [annotateLines]
    | some l => simpa [annotateLines] using hcur
  | cons c t ih =>
    cases cur with
    | none =>
      rw [annotateLines]
      split_ifs with hlen hc
      · simp
      · exact ih _ none (by simp)
      · refine ih _ (some [c]) fun l hl => ?_
        rw [← Option.mem_some.mp hl, List.mem_singleton]
        exact fun he => hc (.inr he.symm)
    | some l =>
      rw [annotateLines]
      split_ifs with hc hlen
      · refine ih _ (some (l ++ [c])) fun l' hl => ?_
        rw [← Option.mem_some.mp hl, List.mem_append, not_or, List.mem_singleton]
        exact ⟨hcur l rfl, fun he => hc.2.2 he.symm⟩
      · simpa using hcur
      · rw [List.forall_mem_cons]
        exact ⟨hcur l rfl, ih _ none (by simp)⟩

theorem plain_printAnnotate (h : Header) (queryTxt : Text) :
    Plain [] (printAnnotate h queryTxt) [] := by
  refine (plain_header h (by decide)).append (plain_flatMap _ fun l hl => ?_)
  exact plain_literal (by decide) (annotateLines_line _ 0 none queryTxt (by simp) l hl) (by decide)

theorem plain_tableMapSummary (h : Header) (tableId : ℕ) {db table : Text} (hasTriggers : Bool)
    (hname : NamePlain (qualified db table)) :
    Plain [] (tableMapSummary h tableId db table hasTriggers) [] := by
  refine plain_named ?_ ?_ (fun u => ?_) (getLast?_qualified db table) hname
  · simp only [printHeader, List.cons_append, List.mem_cons, List.mem_append, not_or]
    exact ⟨by decide, h.line, by decide⟩
  · simp only [List.mem_append, not_or]
    refine ⟨⟨by decide, newline_not_mem_decimal tableId⟩, ?_⟩
    cases hasTriggers <;> decide
  · rw [List.append_assoc]
    exact unmarked_header h _

theorem plain_printImage {clause : Text} (hclause : clause ∈ ["### SET".toList, "### WHERE".toList])
    (cells : List Cell) : Plain [] (printImage clause cells) [] := by
  refine Plain.append ?_ (plain_flatMap cells fun c _ => plain_textLine ?_ ?_)
  · have hc : '\n' ∉ clause ∧ ∀ q ∈ columnPrefix :: markerTags, Apart clause q := by
      revert clause
      decide
    have hp := plain_literal (t := []) hc.1 (by decide) hc.2
    rwa [List.append_nil] at hp
  · simp only [List.mem_append, List.mem_cons, not_or]
    exact ⟨⟨by decide, newline_not_mem_decimal _⟩, by decide, c.value.line⟩
  · refine ⟨?_, fun _ => ?_⟩
    · have happ : ∀ tag ∈ markerTags, ¬tag <+: columnPrefix ∧ ¬columnPrefix <+: tag := by decide
      intro tag htag hp
      rw [List.nil_append, List.append_assoc] at hp
      rcases List.prefix_or_prefix_of_prefix hp (List.prefix_append columnPrefix _) with h | h
      · exact (happ tag htag).1 h
      · exact (happ tag htag).2 h
    · rw [List.nil_append, List.append_assoc]
      refine List.mem_append.mpr (.inr (List.mem_append.mpr (.inr ?_)))
      exact List.mem_cons_self

/-- The beginning of the line that an unknown table leaves unfinished. -/
def unknownTable : Text := "### Row event for unknown table #".toList

def Pending (r : Text) : Prop := r = [] ∨ unknownTable <+: r

theorem Pending.append {r : Text} (h : unknownTable <+: r) (t : Text) :
    unknownTable <+: r ++ t := h.trans (List.prefix_append r t)

theorem unmarked_of_unknownTable {l : Text} (h : unknownTable <+: l) : Unmarked l := by
  obtain ⟨u, rfl⟩ := h
  exact unmarked_of_isPrefix (by decide) u

/-- Text behind an unfinished line of an unknown table. -/
theorem Plain.after_pending {r u r' : Text} (hr : Pending r) (h : Plain [] u r')
    (hr' : Pending r') : ∃ r'', Plain r u r'' ∧ Pending r'' := by
  rcases hr with rfl | hr
  · exact ⟨r', h, hr'⟩
  · refine ⟨(split '\n' r u).2, ⟨fun l hl => ?_, rfl⟩, ?_⟩
    · rw [split_pending_eq] at hl
      cases hs : (split '\n' [] u).1 with
      | nil =>
        rw [hs] at hl
        cases hl
      | cons x xs =>
        rw [hs, List.modifyHead_cons, List.mem_cons] at hl
        rcases hl with rfl | hl
        · exact unmarked_of_unknownTable (Pending.append hr x)
        · exact h.1 l (by rw [hs]; exact List.mem_cons_of_mem _ hl)
    · rw [split_pending_eq]
      dsimp only
      split
      · exact .inr (Pending.append hr _)
      · rw [h.2]
        exact hr'

theorem plain_printRow (type : RowsType) {db table : Text} (row : Row)
    (hname : NamePlain (qualified db table)) :
    Plain [] (printRow type (qualified db table) row) [] := by
  refine Plain.append (q := []) ?_ ?_
  · have happ : ∀ u, Unmarked (("### ".toList ++ sqlCommand type ++ [' ']) ++ u) := by
      cases type <;> exact unmarked_of_isPrefix (by decide)
    have hline : '\n' ∉ "### ".toList ++ sqlCommand type ++ [' '] := by
      cases type <;> decide
    have h := plain_named (t := []) hline (by decide) happ (getLast?_qualified db table) hname
    simpa using h
  · cases type with
    | write => exact plain_printImage (by decide) row.image1
    | delete => exact plain_printImage (by decide) row.image1
    | update =>
      exact (plain_printImage (by decide) row.image1).append
        (plain_printImage (by decide) row.image2)

def extraText (e : RowsEvent) : Text :=
  e.extra.elim [] fun l => textLine ("### Extra row data format: ".toList ++ l.text)

theorem printVerbose_unknown {tables : List (ℕ × Text × Text)} {e : RowsEvent}
    (hl : tables.lookup e.tableId = none) :
    (printVerbose tables e).1 = extraText e ++ (unknownTable ++ decimal e.tableId) := by
  unfold printVerbose extraText
  rw [hl]
  cases e.extra <;> rfl

theorem printVerbose_known {tables : List (ℕ × Text × Text)} {e : RowsEvent} {db table : Text}
    (hl : tables.lookup e.tableId = some (db, table)) :
    (printVerbose tables e).1 = extraText e ++
      if e.type = RowsType.write ∧ e.rows = [] then
        textLine ("### INSERT INTO ".toList ++ qualified db table ++ " VALUES ()".toList)
      else e.rows.flatMap (printRow e.type (qualified db table)) := by
  unfold printVerbose extraText
  rw [hl]
  dsimp only
  split <;> cases e.extra <;> rfl

theorem plain_extraText (e : RowsEvent) : Plain [] (extraText e) [] := by
  unfold extraText
  cases e.extra with
  | none => exact .nil []
  | some l => exact plain_literal (by decide) l.line (by decide)

theorem plain_printVerbose {tables : List (ℕ × Text × Text)} (e : RowsEvent)
    (htables : ∀ t ∈ tables, NamePlain (qualified t.2.1 t.2.2)) :
    ∃ r, Plain [] (printVerbose tables e).1 r ∧ Pending r := by
  have hextra := plain_extraText e
  cases hl : tables.lookup e.tableId with
  | none =>
    rw [printVerbose_unknown hl]
    have hline : '\n' ∉ unknownTable ++ decimal e.tableId := by
      rw [List.mem_append, not_or]
      exact ⟨by decide, newline_not_mem_decimal _⟩
    refine ⟨_, hextra.append ⟨?_, rfl⟩, ?_⟩
    · show ∀ l ∈ (split '\n' [] (unknownTable ++ decimal e.tableId)).1, Unmarked l
      rw [split_of_not_mem '\n' hline]
      simp
    · show Pending (split '\n' [] (unknownTable ++ decimal e.tableId)).2
      rw [split_of_not_mem '\n' hline]
      exact .inr (List.prefix_append _ _)
  | some t =>
    obtain ⟨db, table⟩ := t
    rw [printVerbose_known hl]
    obtain ⟨before, after, rfl, -⟩ := List.lookup_eq_some_iff.mp hl
    have hname := htables (e.tableId, db, table) (by simp)
    split
    · refine ⟨[], hextra.append ?_, .inl rfl⟩
      exact plain_named (by decide) (by decide) (unmarked_of_isPrefix (by decide))
        (getLast?_qualified db table) hname
    · exact ⟨[], hextra.append (plain_flatMap _ fun row _ => plain_printRow e.type row hname),
        .inl rfl⟩

theorem newline_not_mem_rowsTypeName (e : RowsEvent) : '\n' ∉ rowsTypeName e := by
  have htype : ∀ preGa type, '\n' ∉ rowsTypeName ⟨type, preGa, 0, false, none, []⟩ := by
    intro preGa type
    cases preGa <;> cases type <;> decide
  exact htype e.preGa e.type

theorem plain_rowsSummary (h : Header) (e : RowsEvent) : Plain [] (rowsSummary h e) [] := by
  refine plain_header h ?_
  simp only [List.cons_append, List.mem_cons, List.mem_append, not_or]
  refine ⟨by decide, ⟨⟨newline_not_mem_rowsTypeName e, by decide⟩, newline_not_mem_decimal _⟩, ?_⟩
  split <;> decide

/-- The caches hold unmarked lines, and the known tables have plain names. -/
structure InfoPlain (info : PrintInfo) : Prop where
  headCache : Plain [] info.headCache []
  bodyCache : ∃ r, Plain [] info.bodyCache r ∧ Pending r
  mTableMap : ∀ t ∈ info.mTableMap, NamePlain (qualified t.2.1 t.2.2)

theorem infoPlain_start (annotateEvent : Option (Header × Text)) :
    InfoPlain { annotateEvent } :=
  ⟨.nil [], ⟨[], .nil [], .inl rfl⟩, by simp⟩

/-- No line of the statement is taken for a marker: not where it is printed by itself, and not
behind the first line of its marker. -/
def StatementPlain (ulIndex : ℕ) (query : Text) : Prop :=
  (∀ l ∈ (completeLines (textLine (query ++ '!' :: decimal ulIndex ++ ['!']))).tail, Unmarked l) ∧
    ∀ l ∈ completeLines (textLine query), Unmarked l

theorem statementPlain_of_line {query : Text} (hline : '\n' ∉ query) (h : Unmarked query)
    (ulIndex : ℕ) : StatementPlain ulIndex query := by
  have hmarker : '\n' ∉ query ++ '!' :: decimal ulIndex ++ ['!'] := by
    simp only [List.mem_append, List.mem_cons, not_or]
    exact ⟨⟨hline, by decide, newline_not_mem_decimal ulIndex⟩, by decide⟩
  rw [StatementPlain, completeLines_textLine hmarker, completeLines_textLine hline]
  exact ⟨List.forall_mem_nil _, List.forall_mem_singleton.mpr h⟩

/-- The names, the statement and the other text of the event do not look like markers. -/
def LogEvent.TextPlain (ev : LogEvent) (ulIndex : ℕ) : Prop :=
  match ev.data with
  | .query _ useDb _ query =>
    (∀ db ∈ useDb, NamePlain (quoteName db)) ∧ StatementPlain ulIndex query
  | .tableMap _ db table _ => NamePlain (qualified db table)
  | .formatDescription lines | .rotate _ lines | .other lines => ∀ l ∈ lines, Unmarked l.text
  | _ => True

/-- What is printed in front of the marker. -/
theorem printBefore_plain {info : PrintInfo} (h : InfoPlain info) (ev : LogEvent) :
    InfoPlain (printBefore info ev).1 ∧ Plain [] (printBefore info ev).2 [] := by
  obtain ⟨hhead, hbody, hmap⟩ := h
  unfold printBefore
  cases ev.data with
  | rows e =>
    dsimp only
    split
    · exact ⟨⟨hhead, hbody, hmap⟩, .nil []⟩
    · exact ⟨⟨hhead, hbody, hmap⟩, .nil []⟩
  | annotateRows _ => exact ⟨⟨hhead, hbody, hmap⟩, .nil []⟩
  | tableMap _ _ _ _ => exact ⟨⟨hhead, hbody, hmap⟩, .nil []⟩
  | formatDescription _ => exact ⟨⟨hhead, hbody, hmap⟩, .nil []⟩
  | _ => exact ⟨⟨hhead, hbody, hmap⟩, plain_printSkipReplication info ev⟩

/-- The rows collected so far, followed by the rows of the event. -/
theorem printRowEvent_plain {info : PrintInfo} (h : InfoPlain info) (hd : Header)
    (e : RowsEvent) :
    InfoPlain (printRowEvent info hd e).1 ∧ Plain [] (printRowEvent info hd e).2 [] := by
  obtain ⟨hhead, ⟨r, hbody, hr⟩, hmap⟩ := h
  obtain ⟨r', hverbose, hr'⟩ : ∃ r', Plain []
      (if e.preGa then ([], 0) else printVerbose info.mTableMap e).1 r' ∧ Pending r' := by
    split
    · exact ⟨[], .nil [], .inl rfl⟩
    · exact plain_printVerbose e hmap
  obtain ⟨r'', hbody', hr''⟩ := hverbose.after_pending hr hr'
  have hhead' := hhead.append (plain_rowsSummary hd e)
  have hboth := hbody.append hbody'
  unfold printRowEvent
  dsimp only
  split
  · refine ⟨⟨.nil [], ⟨[], .nil [], .inl rfl⟩, hmap⟩, ?_⟩
    refine (hhead'.append hboth).append ?_
    rcases hr'' with rfl | hr''
    · exact plain_literal (by decide) (newline_not_mem_decimal _) (by decide)
    · refine plain_textLine ?_ (unmarked_of_unknownTable (Pending.append hr'' _))
      rw [List.mem_append, not_or]
      exact ⟨by decide, newline_not_mem_decimal _⟩
  · exact ⟨⟨hhead', ⟨r'', hboth, hr''⟩, hmap⟩, .nil []⟩

/-- What is printed behind the marker. -/
theorem printAfter_plain {info : PrintInfo} {ulIndex : ℕ} {ev : LogEvent} (h : InfoPlain info)
    (hev : ev.TextPlain ulIndex) :
    InfoPlain (printAfter info ev).1 ∧ Plain [] (printAfter info ev).2 [] := by
  obtain ⟨hhead, hbody, hmap⟩ := h
  have hflushed : InfoPlain { info with headCache := [] } := ⟨.nil [], hbody, hmap⟩
  unfold LogEvent.TextPlain at hev
  unfold printAfter
  cases hd : ev.data with
  | query summary useDb settings query =>
    rw [hd] at hev
    refine ⟨hflushed, (plain_printQueryHeader _ summary settings hev.1).append ?_⟩
    exact Plain.append ⟨hev.2.2, whole_textLine query⟩ plain_delimiterLine
  | xid xid => exact ⟨hflushed, plain_printXid _ xid⟩
  | gtid seqNo summary settings standalone =>
    exact ⟨hflushed, plain_printGtid _ summary settings standalone⟩
  | annotateRows queryTxt => exact ⟨⟨hhead, hbody, hmap⟩, .nil []⟩
  | tableMap tableId db table hasTriggers =>
    rw [hd] at hev
    refine ⟨⟨.nil [], hbody, ?_⟩, (hhead.append ?_).append
      (plain_tableMapSummary _ tableId hasTriggers hev)⟩
    · rw [List.forall_mem_cons]
      exact ⟨hev, hmap⟩
    · cases info.annotateEvent with
      | none => exact .nil []
      | some a => exact plain_printAnnotate a.1 a.2
  | rows e =>
    obtain ⟨⟨hhead', hbody', hmap'⟩, htext⟩ := printRowEvent_plain ⟨hhead, hbody, hmap⟩ ev.header e
    exact ⟨⟨hhead', hbody', hmap'⟩, htext⟩
  | formatDescription lines =>
    rw [hd] at hev
    exact ⟨hflushed, plain_printLines hev⟩
  | rotate ident lines =>
    rw [hd] at hev
    exact ⟨hflushed, plain_printLines hev⟩
  | other lines =>
    rw [hd] at hev
    exact ⟨hflushed, plain_printLines hev⟩

/-- What the marker of an event at `pos` makes the listener do. -/
def LogEvent.actions (ev : LogEvent) (pos : ℕ) : List Action :=
  match ev.data with
  | .gtid _ _ _ _ => [.goTo (clip pos)]
  | .query _ _ _ _ => [.save 3 (clip ev.logPos)]
  | .xid _ => [.save 2 (clip ev.logPos)]
  | _ => []

theorem newline_not_mem_markerPositions (pos logPos : ℕ) :
    '\n' ∉ markerPositions pos logPos := by
  simp only [markerPositions, List.mem_append, List.mem_cons, not_or]
  exact ⟨⟨newline_not_mem_decimal pos, by decide, newline_not_mem_decimal logPos⟩, by decide⟩

/-- The statement is what can bring a byte 0x1A into its marker. -/
theorem ctrlZ_not_mem_queryMarker {query : Text} (hz : ctrlZ ∉ query) (pos logPos ulIndex : ℕ) :
    ctrlZ ∉ queryMarker pos logPos query ulIndex := by
  have hdec : ∀ n, ctrlZ ∉ decimal n := fun n => not_mem_decimal rfl n
  simp only [queryMarker, textLine, markerPositions, List.mem_append, List.mem_cons,
    List.mem_nil_iff, not_or]
  exact ⟨⟨by decide, ⟨⟨hdec pos, by decide, hdec logPos⟩, by decide, not_false⟩,
    ⟨hz, by decide, hdec ulIndex⟩, by decide, not_false⟩, by decide, not_false⟩

/-- A marker without statement text is one line. -/
theorem completeLines_marker {tag t : Text} (htag : '\n' ∉ tag) (ht : '\n' ∉ t)
    (pos logPos : ℕ) :
    completeLines (textLine (tag ++ (markerPositions pos logPos ++ t))) =
      [tag ++ (markerPositions pos logPos ++ t)] := by
  refine completeLines_textLine ?_
  simp only [List.mem_append, not_or]
  exact ⟨htag, newline_not_mem_markerPositions pos logPos, ht⟩

/-- The marker of a statement ends its first line with the first line of the text. -/
theorem completeLines_queryMarker (pos logPos : ℕ) (t : Text) :
    ∃ u, completeLines (textLine (queryTag ++ (markerPositions pos logPos ++ t))) =
      (queryTag ++ (markerPositions pos logPos ++ u)) :: (completeLines (textLine t)).tail := by
  have hline : '\n' ∉ queryTag ++ markerPositions pos logPos := by
    rw [List.mem_append, not_or]
    exact ⟨by decide, newline_not_mem_markerPositions pos logPos⟩
  obtain ⟨L, r, hs⟩ : ∃ L r, split '\n' [] (textLine t) = (L, r) := ⟨_, _, rfl⟩
  have hsplit : completeLines (textLine (queryTag ++ (markerPositions pos logPos ++ t))) =
      L.modifyHead ((queryTag ++ markerPositions pos logPos) ++ ·) := by
    have happ : textLine (queryTag ++ (markerPositions pos logPos ++ t)) =
        (queryTag ++ markerPositions pos logPos) ++ textLine t := by simp [textLine]
    rw [completeLines, happ, split_append, split_of_not_mem '\n' hline, List.nil_append,
      List.nil_append, split_pending_eq, hs]
  rw [hsplit, completeLines, hs]
  cases L with
  | nil =>
    have hw := unlines_split '\n' [] (textLine t)
    rw [hs, List.nil_append, unlines_nil, List.nil_append] at hw
    have hwhole := whole_textLine t
    rw [Whole, hs] at hwhole
    rw [show r = [] from hwhole] at hw
    simp [textLine] at hw
  | cons l ls => exact ⟨l, by simp⟩

/-- The first line of the marker of an event acts, if any; the others are unmarked. -/
theorem eventMarker_lines {ev : LogEvent} {ulIndex : ℕ} (hev : ev.TextPlain ulIndex) (pos : ℕ) :
    (completeLines ((ev.marker pos ulIndex).getD []) = [] ∧ ev.actions pos = []) ∨
      ∃ l ls a, completeLines ((ev.marker pos ulIndex).getD []) = l :: ls ∧ Acts l a ∧
        (ev.actions pos = [a] ∨ ev.actions pos = [] ∧ a = .skip) ∧ ∀ x ∈ ls, Unmarked x := by
  have hdec := newline_not_mem_decimal
  unfold LogEvent.TextPlain at hev
  unfold LogEvent.marker LogEvent.actions
  cases hd : ev.data with
  | query summary useDb settings query =>
    rw [hd] at hev
    obtain ⟨u, hu⟩ := completeLines_queryMarker pos ev.logPos
      (query ++ '!' :: decimal ulIndex ++ ['!'])
    simp only [Option.getD_some, queryMarker, hu]
    exact .inr ⟨_, _, _, rfl, acts_query pos ev.logPos u, .inl rfl, hev.2.1⟩
  | xid xid =>
    simp only [Option.getD_some, commitMarker]
    rw [completeLines_marker (by decide)]
    · exact .inr ⟨_, [], _, rfl, acts_commit pos ev.logPos xid _, .inl rfl, by simp⟩
    · simp only [List.mem_append, List.mem_cons, not_or]
      exact ⟨hdec xid, by decide, hdec ulIndex, by decide⟩
  | gtid seqNo summary settings standalone =>
    simp only [Option.getD_some, beginMarker]
    rw [completeLines_marker (by decide)]
    · exact .inr ⟨_, [], _, rfl, acts_begin pos ev.logPos _, .inl rfl, by simp⟩
    · rw [List.mem_append, not_or]
      exact ⟨hdec seqNo, by decide⟩
  | rows e =>
    dsimp only
    split
    · simp only [Option.getD_some, stmtMarker]
      rw [completeLines_marker (by decide)]
      · exact .inr ⟨_, [], _, rfl, acts_stmt pos ev.logPos _, .inr ⟨trivial, rfl⟩, by simp⟩
      · rw [List.mem_append, not_or]
        exact ⟨hdec ulIndex, by decide⟩
    · exact .inl ⟨rfl, rfl⟩
  | _ => exact .inl ⟨rfl, rfl⟩

theorem whole_marker (ev : LogEvent) (pos ulIndex : ℕ) :
    Whole ((ev.marker pos ulIndex).getD []) := by
  unfold LogEvent.marker
  cases ev.data with
  | rows e =>
    dsimp only
    split
    · exact whole_textLine _
    · rfl
  | query => exact whole_textLine _
  | xid => exact whole_textLine _
  | gtid => exact whole_textLine _
  | _ => rfl

/-- The lines of a printed event: those of its marker, between lines that carry none. -/
theorem printEvent_lines {info : PrintInfo} (h : InfoPlain info) {ulIndex : ℕ} {ev : LogEvent}
    (hev : ev.TextPlain ulIndex) (pos : ℕ) :
    InfoPlain (printEvent ulIndex info pos ev).1 ∧ Whole (printEvent ulIndex info pos ev).2 ∧
      ∃ front back, completeLines (printEvent ulIndex info pos ev).2 =
          front ++ completeLines ((ev.marker pos ulIndex).getD []) ++ back ∧
        (∀ l ∈ front, Unmarked l) ∧ ∀ l ∈ back, Unmarked l := by
  obtain ⟨hinfo, hbefore⟩ := printBefore_plain h ev
  obtain ⟨hinfo', hafter⟩ := printAfter_plain hinfo hev
  have hfront := (plain_printAt pos).append hbefore
  have hmarker := whole_marker ev pos ulIndex
  refine ⟨hinfo', (hfront.whole.append hmarker).append hafter.whole, _, _, ?_,
    hfront.unmarked, hafter.unmarked⟩
  unfold printEvent
  dsimp only
  rw [completeLines_append (hfront.whole.append hmarker), completeLines_append hfront.whole]

/-- The text of a printed event makes the listener do what its marker says, once. -/
theorem printEvent_acts {info : PrintInfo} (h : InfoPlain info) {ulIndex : ℕ} {ev : LogEvent}
    (hev : ev.TextPlain ulIndex) (pos : ℕ) :
    ∃ m n, LinesAct (completeLines (printEvent ulIndex info pos ev).2)
      (List.replicate m .skip ++ ev.actions pos ++ List.replicate n .skip) := by
  obtain ⟨-, -, front, back, hlines, hfront, hback⟩ := printEvent_lines h hev pos
  rw [hlines]
  have hf := linesAct_unmarked hfront
  have hb := linesAct_unmarked hback
  rcases eventMarker_lines hev pos with ⟨hnil, hacts⟩ | ⟨l, ls, a, hcons, hl, hacts, hls⟩
  · rw [hnil, hacts]
    exact ⟨front.length, back.length, List.rel_append (List.rel_append hf .nil) hb⟩
  · have hm := linesAct_unmarked hls
    rw [hcons]
    rcases hacts with hacts | ⟨hacts, rfl⟩
    · refine ⟨front.length, ls.length + back.length, ?_⟩
      rw [hacts, ← List.replicate_append_replicate, ← List.append_assoc, List.append_assoc _ [a]]
      exact List.rel_append (List.rel_append hf (.cons hl hm)) hb
    · refine ⟨front.length + 1 + ls.length, back.length, ?_⟩
      rw [hacts, List.append_nil, Nat.add_assoc, ← List.replicate_append_replicate,
        Nat.add_comm 1, List.replicate_succ]
      exact List.rel_append (List.rel_append hf (.cons hl hm)) hb

end BinlogCapture
