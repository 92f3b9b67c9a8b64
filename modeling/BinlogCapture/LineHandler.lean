import BinlogCapture.Shared
import BinlogCapture.Lib.Fallible

/-! What `listenBinLogThread` does with one complete line: the local variables that the handlers
read, one handler for each kind of line, and the dispatch over the beginning of the line. -/
namespace BinlogCapture
open CString Fallible

inductive Fault where
  /-- The result of a `strchr` that found nothing is used. -/
  | separator
  /-- A loop has not ended when its fuel is used up. -/
  | endless
  /-- A string is read up to a terminator behind the end of its block. -/
  | overrun
  deriving DecidableEq, Repr

structure RowCount where
  ulCountBinLog : UInt32 := 0
  ulCountTransaction : UInt32 := 0
  ulCountAllRow : UInt32 := 0
  ulCountRowtable : UInt32 := 0
  ulCountInsert : UInt32 := 0
  ulCountUpdate : UInt32 := 0
  ulCountDelete : UInt32 := 0
  deriving DecidableEq, Repr

/-- Local variables of `listenBinLogThread` that its line handlers read. -/
structure Locals where
  bStartOfStmt : Bool := false
  bQueryInProgress : Bool := false
  bDataColumnInProgress : Bool := false
  szJournalEntry : Text := []
  szBinLogName : Text := []
  ulPosition : ℕ := 0
  ulIndex : ℕ := 0
  ulCountBinLog : UInt32 := 0
  ulCountInsert : UInt32 := 0
  ulCountUpdate : UInt32 := 0
  ulCountDelete : UInt32 := 0
  rowCount : RowCount := {}
  deriving DecidableEq, Repr

/-- The outcome of a handler. `column` is set by the column branch, the only one that
ends the reading of a line from the long-line backup. -/
structure Handled where
  loc : Locals
  ops : List SharedOp
  column : Bool
  deriving DecidableEq, Repr

/-- `strchr` of the separator, with the result used unchecked. -/
def field (t : Text) : Except Fault (Text × Text) :=
  match strchr '!' t with
  | none => .error .separator
  | some r => .ok r

def ddatol (source : Text) : ℤ := atol source

/-- The start and end position of a marker, and what follows them. -/
def positions (t : Text) : Except Fault (ℕ × ℕ × Text) := do
  let a ← field t
  let b ← field a.2
  return (toULong (ddatol a.1), toULong (ddatol b.1), b.2)

def rowPrefix : Text := "###".toList
def columnPrefix : Text := "###   @".toList
def wherePrefix : Text := "### WHERE".toList
def setPrefix : Text := "### SET".toList
def insertPrefix : Text := "### INSERT".toList
def updatePrefix : Text := "### UPDATE".toList
def deletePrefix : Text := "### DELETE".toList
def beginTag : Text := "*!BEGIN!".toList
def stmtTag : Text := "*!STMT!".toList
def commitTag : Text := "*!COMMIT!".toList
def queryTag : Text := "*!QUERY!".toList
def startBinlogTag : Text := "*!START_BINLOG!".toList
def endBinlogTag : Text := "*!END_BINLOG!".toList
def firstBinlogTag : Text := "*!FIRST_BINLOG!".toList
def lastBinlogTag : Text := "*!LAST_BINLOG!".toList

/-- End of the columns of a row: any line but a column line closes it and saves the position. -/
def endOfDataColumn (loc : Locals) (line : Text) : Locals × List SharedOp :=
  if loc.bDataColumnInProgress && !startsWith line columnPrefix then
    ({ loc with
        bQueryInProgress := loc.bQueryInProgress && loc.szJournalEntry[2]? == some 'B'
        bDataColumnInProgress := false }, [.saveInDisk 1])
  else (loc, [])

def columnLine (loc : Locals) (line : Text) : Except Fault Handled :=
  match strchr '=' (line.drop 7) with
  | none => .error .separator
  | some _ => .ok ⟨loc, [], true⟩

/-- Start of an image of a row; of an update it is the image before or after. -/
def dataColumn (loc : Locals) (image : Char) : Locals :=
  { loc with
    bDataColumnInProgress := true
    szJournalEntry :=
      if loc.szJournalEntry[1]? == some 'U' then loc.szJournalEntry.set 2 image
      else loc.szJournalEntry }

/-- A row header of a table. Rows up to the saved index of the saved position are passed over. -/
def queryFound (seq : BinLogSequence) (loc : Locals) : Locals :=
  let rc := loc.rowCount
  let ulIndex := (loc.ulIndex + 1) % 2 ^ 32
  let loc := { loc with
    bQueryInProgress := false
    bDataColumnInProgress := false
    ulIndex := ulIndex
    rowCount := { rc with ulCountAllRow := rc.ulCountAllRow + 1 } }
  if loc.ulCountBinLog > 0 || loc.ulPosition ≠ seq.ulPosition || ulIndex > seq.ulIndex then
    { loc with
      bQueryInProgress := true
      rowCount := { loc.rowCount with
        ulCountRowtable := rc.ulCountRowtable + 1
        ulCountInsert := rc.ulCountInsert + loc.ulCountInsert
        ulCountUpdate := rc.ulCountUpdate + loc.ulCountUpdate
        ulCountDelete := rc.ulCountDelete + loc.ulCountDelete } }
  else loc

def rowLine (seq : BinLogSequence) (loc : Locals) (line : Text) : Except Fault Handled :=
  if loc.bQueryInProgress && startsWith line columnPrefix then columnLine loc line
  else if loc.bQueryInProgress && startsWith line wherePrefix then
    .ok ⟨dataColumn loc 'B', [], false⟩
  else if loc.bQueryInProgress && startsWith line setPrefix then
    .ok ⟨dataColumn loc 'P', [], false⟩
  else if startsWith line insertPrefix then
    .ok ⟨queryFound seq { loc with szJournalEntry := "RPT".toList, ulCountInsert := 1 }, [], false⟩
  else if startsWith line updatePrefix then
    .ok ⟨queryFound seq { loc with szJournalEntry := "RUX".toList, ulCountUpdate := 1 }, [], false⟩
  else if startsWith line deletePrefix then
    .ok ⟨queryFound seq { loc with szJournalEntry := "RDL".toList, ulCountDelete := 1 }, [], false⟩
  else .ok ⟨loc, [], false⟩

def beginLine (loc : Locals) (line : Text) : Except Fault Handled := do
  let (start, _, _) ← positions (line.drop 8)
  let rc := loc.rowCount
  return ⟨{ loc with
      ulPosition := start
      ulIndex := 0
      rowCount := { rc with ulCountTransaction := rc.ulCountTransaction + 1 } },
    [.setInProgess ⟨loc.szBinLogName, start, 0⟩], false⟩

def stmtLine (loc : Locals) (line : Text) : Except Fault Handled := do
  let (start, _, _) ← positions (line.drop 7)
  return ⟨{ loc with
      bStartOfStmt := true
      ulPosition := start
      ulCountInsert := 0
      ulCountUpdate := 0
      ulCountDelete := 0 }, [], false⟩

def commitLine (loc : Locals) (line : Text) : Except Fault Handled := do
  let (start, end_, rest) ← positions (line.drop 9)
  let _szXid ← field rest
  return ⟨{ loc with
      bQueryInProgress := false
      bStartOfStmt := false
      bDataColumnInProgress := false
      ulPosition := start
      ulIndex := 0 },
    [.setInProgess ⟨loc.szBinLogName, end_, 0⟩, .saveInDisk 2], false⟩

def queryLine (loc : Locals) (line : Text) : Except Fault Handled := do
  let (start, end_, _) ← positions (line.drop 8)
  return ⟨{ loc with ulPosition := start, ulIndex := 0 },
    [.setInProgess ⟨loc.szBinLogName, end_, 0⟩, .saveInDisk 3], false⟩

def startBinlogLine (loc : Locals) (line : Text) : Except Fault Handled := do
  let (szBinLogName, _) ← field (line.drop 15)
  let rc := loc.rowCount
  return ⟨{ loc with
      szBinLogName := szBinLogName
      ulCountInsert := 0
      ulCountUpdate := 0
      ulCountDelete := 0
      ulCountBinLog := loc.ulCountBinLog + 1
      rowCount := { rc with ulCountBinLog := rc.ulCountBinLog + 1 } },
    [.startBinlog, .resetUnlessFirst szBinLogName], false⟩

def endBinlogLine (loc : Locals) : Except Fault Handled := .ok ⟨loc, [.endBinlog], false⟩

def firstBinlogLine (loc : Locals) (line : Text) : Except Fault Handled := do
  let (szBinLogName, _) ← field (line.drop 15)
  return ⟨{ loc with szBinLogName := szBinLogName, ulCountBinLog := 0 }, [.firstBinlog], false⟩

def lastBinlogLine (loc : Locals) : Except Fault Handled :=
  .ok ⟨loc, [.lastBinlog, .publishIfLast loc.szBinLogName], false⟩

/-- The chain of prefix tests on a line. -/
def dispatch (seq : BinLogSequence) (loc : Locals) (line : Text) : Except Fault Handled :=
  if loc.bStartOfStmt && startsWith line rowPrefix then rowLine seq loc line
  else if startsWith line beginTag then beginLine loc line
  else if startsWith line stmtTag then stmtLine loc line
  else if startsWith line commitTag then commitLine loc line
  else if startsWith line queryTag then queryLine loc line
  else if startsWith line startBinlogTag then startBinlogLine loc line
  else if startsWith line endBinlogTag then endBinlogLine loc
  else if startsWith line firstBinlogTag then firstBinlogLine loc line
  else if startsWith line lastBinlogTag then lastBinlogLine loc
  else .ok ⟨loc, [], false⟩

/-- One complete line, given the value of `g_stBinLogSeq` when it is dispatched. -/
def handleLine (seq : BinLogSequence) (loc : Locals) (line : Text) : Except Fault Handled :=
  let closed := endOfDataColumn loc line
  (dispatch seq closed.1 line).map fun h => { h with ops := closed.2 ++ h.ops }

/-- The separators that the handler of a marker looks for without a check are there. -/
def MarkerSeparated (line : Text) : Prop :=
  if startsWith line beginTag then 2 ≤ (line.drop 8).count '!'
  else if startsWith line stmtTag then 2 ≤ (line.drop 7).count '!'
  else if startsWith line commitTag then 3 ≤ (line.drop 9).count '!'
  else if startsWith line queryTag then 2 ≤ (line.drop 8).count '!'
  else if startsWith line startBinlogTag then 1 ≤ (line.drop 15).count '!'
  else if startsWith line endBinlogTag then True
  else if startsWith line firstBinlogTag then 1 ≤ (line.drop 15).count '!'
  else True

def Separated (loc : Locals) (line : Text) : Prop :=
  if loc.bStartOfStmt && startsWith line rowPrefix then
    loc.bQueryInProgress && startsWith line columnPrefix → '=' ∈ line.drop 7
  else MarkerSeparated line

theorem field_eq_ok {t : Text} (h : 1 ≤ t.count '!') :
    ∃ r, field t = .ok r ∧ t.count '!' = r.2.count '!' + 1 := by
  unfold field
  cases hc : strchr '!' t with
  | none =>
    have := List.count_eq_zero.mpr (strchr_eq_none_iff.mp hc)
    omega
  | some r =>
    obtain ⟨ht, hn⟩ := strchr_eq_some hc
    refine ⟨r, rfl, ?_⟩
    rw [ht, List.count_append, List.count_cons_self, List.count_eq_zero.mpr hn, Nat.zero_add]

theorem field_eq_error {t : Text} (h : ¬1 ≤ t.count '!') : field t = .error .separator := by
  have hn : '!' ∉ t := fun hm => h (List.count_pos_iff.mpr hm)
  rw [field, strchr_eq_none_iff.mpr hn]

theorem positions_eq_ok {t : Text} (h : 2 ≤ t.count '!') :
    ∃ r, positions t = .ok r ∧ t.count '!' = r.2.2.count '!' + 2 := by
  obtain ⟨a, ha, hca⟩ := field_eq_ok (t := t) (by omega)
  obtain ⟨b, hb, hcb⟩ := field_eq_ok (t := a.2) (by omega)
  refine ⟨(toULong (ddatol a.1), toULong (ddatol b.1), b.2), ?_, ?_⟩
  · simp [positions, ha, hb, pure, Except.pure]
  · simp only [hca, hcb]

theorem positions_eq_error {t : Text} (h : ¬2 ≤ t.count '!') :
    positions t = .error .separator := by
  by_cases h1 : 1 ≤ t.count '!'
  · obtain ⟨a, ha, hca⟩ := field_eq_ok h1
    simp [positions, ha, field_eq_error (t := a.2) (by omega)]
  · simp [positions, field_eq_error h1]

/-- A continuation that never fails is reached exactly when the fields are there. -/
theorem positions_bind_ok_iff {t : Text} {f : ℕ × ℕ × Text → Handled} :
    (∃ h, (positions t >>= fun r => .ok (f r)) = .ok h) ↔ 2 ≤ t.count '!' := by
  constructor
  · intro h
    by_contra hn
    rw [positions_eq_error hn] at h
    simp at h
  · intro h
    obtain ⟨r, hr, -⟩ := positions_eq_ok h
    exact ⟨f r, by rw [hr, ok_bind]⟩

theorem field_bind_ok_iff {t : Text} {f : Text × Text → Handled} :
    (∃ h, (field t >>= fun r => .ok (f r)) = .ok h) ↔ 1 ≤ t.count '!' := by
  constructor
  · intro h
    by_contra hn
    rw [field_eq_error hn] at h
    simp at h
  · intro h
    obtain ⟨r, hr, -⟩ := field_eq_ok h
    exact ⟨f r, by rw [hr, ok_bind]⟩

theorem commitLine_ok_iff {loc : Locals} {line : Text} :
    (∃ h, commitLine loc line = .ok h) ↔ 3 ≤ (line.drop 9).count '!' := by
  unfold commitLine
  by_cases h2 : 2 ≤ (line.drop 9).count '!'
  · obtain ⟨⟨start, end_, rest⟩, hr, hc⟩ := positions_eq_ok h2
    simp only [hr, ok_bind]
    refine field_bind_ok_iff.trans ?_
    rw [hc]
    exact (Nat.add_le_add_iff_right (n := 2)).symm
  · simp only [positions_eq_error h2, error_bind, reduceCtorEq, exists_false, false_iff]
    omega

theorem columnLine_ok_iff {loc : Locals} {line : Text} :
    (∃ h, columnLine loc line = .ok h) ↔ '=' ∈ line.drop 7 := by
  unfold columnLine
  cases hc : strchr '=' (line.drop 7) with
  | none => simp [strchr_eq_none_iff.mp hc]
  | some r =>
    have hm := (strchr_eq_some hc).1
    simp only [Except.ok.injEq, exists_eq', true_iff]
    rw [hm]
    simp

theorem ite_ok_iff {α : Type} {c : Prop} [Decidable c] {x y : Except Fault α} {p q : Prop}
    (hx : (∃ h, x = .ok h) ↔ p) (hy : (∃ h, y = .ok h) ↔ q) :
    (∃ h, (if c then x else y) = .ok h) ↔ if c then p else q := by
  split
  · exact hx
  · exact hy

theorem ok_ok_iff {α : Type} (h : α) : (∃ h', (.ok h : Except Fault α) = .ok h') ↔ True := by
  simp

theorem rowLine_ok_iff {seq : BinLogSequence} {loc : Locals} {line : Text} :
    (∃ h, rowLine seq loc line = .ok h) ↔
      (loc.bQueryInProgress && startsWith line columnPrefix → '=' ∈ line.drop 7) := by
  have h : (∃ h, rowLine seq loc line = .ok h) ↔
      if loc.bQueryInProgress && startsWith line columnPrefix then '=' ∈ line.drop 7
      else True := by
    unfold rowLine
    refine ite_ok_iff columnLine_ok_iff ?_
    repeat' split
    all_goals exact ok_ok_iff _
  rw [h, if_true_right]

theorem dispatch_ok_iff {seq : BinLogSequence} {loc : Locals} {line : Text} :
    (∃ h, dispatch seq loc line = .ok h) ↔ Separated loc line := by
  unfold dispatch Separated MarkerSeparated
  refine ite_ok_iff rowLine_ok_iff ?_
  refine ite_ok_iff positions_bind_ok_iff ?_
  refine ite_ok_iff positions_bind_ok_iff ?_
  refine ite_ok_iff commitLine_ok_iff ?_
  refine ite_ok_iff positions_bind_ok_iff ?_
  refine ite_ok_iff field_bind_ok_iff ?_
  refine ite_ok_iff (ok_ok_iff _) ?_
  refine ite_ok_iff field_bind_ok_iff ?_
  exact (ite_ok_iff (ok_ok_iff _) (ok_ok_iff _)).trans (by simp)

/-- A line is handled exactly when it has the separators its handler needs. -/
theorem handleLine_ok_iff {seq : BinLogSequence} {loc : Locals} {line : Text} :
    (∃ h, handleLine seq loc line = .ok h) ↔ Separated (endOfDataColumn loc line).1 line := by
  rw [← dispatch_ok_iff]
  simp only [handleLine, map_eq_ok_iff]
  exact ⟨fun ⟨_, h, hh, _⟩ => ⟨h, hh⟩, fun ⟨h, hh⟩ => ⟨_, h, hh, rfl⟩⟩

/-- A row image is open only inside a row of a statement. -/
def Locals.Nested (loc : Locals) : Prop :=
  loc.bDataColumnInProgress = true → loc.bQueryInProgress = true ∧ loc.bStartOfStmt = true

theorem endOfDataColumn_nested {loc : Locals} (h : loc.Nested) (line : Text) :
    (endOfDataColumn loc line).1.Nested := by
  unfold endOfDataColumn
  split
  · exact fun hd => absurd hd (by simp)
  · exact h

/-- What a marker handler does to the flags. -/
def MarkerEffect (loc : Locals) (h : Handled) : Prop :=
  h.column = false ∧ (h.loc.bDataColumnInProgress = true → loc.bDataColumnInProgress = true ∧
    h.loc.bQueryInProgress = loc.bQueryInProgress ∧ (loc.bStartOfStmt → h.loc.bStartOfStmt))

theorem positions_effect {loc : Locals} {t : Text} {f : ℕ × ℕ × Text → Handled} {h : Handled}
    (hf : ∀ r, MarkerEffect loc (f r)) (hb : (positions t >>= fun r => .ok (f r)) = .ok h) :
    MarkerEffect loc h := by
  obtain ⟨r, -, hr⟩ := bind_eq_ok_iff.mp hb
  exact Except.ok.inj hr ▸ hf r

theorem field_effect {loc : Locals} {t : Text} {f : Text × Text → Handled} {h : Handled}
    (hf : ∀ r, MarkerEffect loc (f r)) (hb : (field t >>= fun r => .ok (f r)) = .ok h) :
    MarkerEffect loc h := by
  obtain ⟨r, -, hr⟩ := bind_eq_ok_iff.mp hb
  exact Except.ok.inj hr ▸ hf r

/-- A line is one of a row, or a marker handler takes it. -/
theorem dispatch_cases {seq : BinLogSequence} {loc : Locals} {line : Text} {h : Handled}
    (hd : dispatch seq loc line = .ok h) :
    loc.bStartOfStmt = true ∧ rowLine seq loc line = .ok h ∨ MarkerEffect loc h := by
  have hsame : MarkerEffect loc ⟨loc, [], false⟩ := ⟨rfl, fun hdc => ⟨hdc, rfl, id⟩⟩
  rcases ite_eq_or hd with ⟨hc, hd⟩ | ⟨-, hd⟩
  · exact .inl ⟨(Bool.and_eq_true_iff.mp hc).1, hd⟩
  refine .inr ?_
  rcases ite_eq_or hd with ⟨-, hd⟩ | ⟨-, hd⟩
  · exact positions_effect (fun r => ⟨rfl, fun hdc => ⟨hdc, rfl, id⟩⟩) hd
  rcases ite_eq_or hd with ⟨-, hd⟩ | ⟨-, hd⟩
  · exact positions_effect (fun r => ⟨rfl, fun hdc => ⟨hdc, rfl, fun _ => rfl⟩⟩) hd
  rcases ite_eq_or hd with ⟨-, hd⟩ | ⟨-, hd⟩
  · obtain ⟨r, -, hr⟩ := bind_eq_ok_iff.mp hd
    exact field_effect (fun _ => ⟨rfl, fun hdc => absurd hdc Bool.false_ne_true⟩) hr
  rcases ite_eq_or hd with ⟨-, hd⟩ | ⟨-, hd⟩
  · exact positions_effect (fun r => ⟨rfl, fun hdc => ⟨hdc, rfl, id⟩⟩) hd
  rcases ite_eq_or hd with ⟨-, hd⟩ | ⟨-, hd⟩
  · exact field_effect (fun r => ⟨rfl, fun hdc => ⟨hdc, rfl, id⟩⟩) hd
  rcases ite_eq_or hd with ⟨-, hd⟩ | ⟨-, hd⟩
  · exact Except.ok.inj hd ▸ hsame
  rcases ite_eq_or hd with ⟨-, hd⟩ | ⟨-, hd⟩
  · exact field_effect (fun r => ⟨rfl, fun hdc => ⟨hdc, rfl, id⟩⟩) hd
  rcases ite_eq_or hd with ⟨-, hd⟩ | ⟨-, hd⟩
  · exact Except.ok.inj hd ▸ hsame
  · exact Except.ok.inj hd ▸ hsame

theorem queryFound_nested (seq : BinLogSequence) (loc : Locals) : (queryFound seq loc).Nested := by
  unfold queryFound
  dsimp only
  split
  all_goals exact fun hd => Bool.noConfusion hd

/-- The branches of a row line: a column, or the start of an image, a row header or nothing. -/
theorem rowLine_cases {seq : BinLogSequence} {loc : Locals} {line : Text} {h : Handled}
    (hr : rowLine seq loc line = .ok h) :
    startsWith line columnPrefix = true ∧ columnLine loc line = .ok h ∨
      h.column = false ∧ (loc.bStartOfStmt = true → loc.Nested → h.loc.Nested) := by
  rcases ite_eq_or hr with ⟨hc, hr⟩ | ⟨-, hr⟩
  · exact .inl ⟨(Bool.and_eq_true_iff.mp hc).2, hr⟩
  refine .inr ?_
  rcases ite_eq_or hr with ⟨hc, hr⟩ | ⟨-, hr⟩
  · exact Except.ok.inj hr ▸ ⟨rfl, fun hs _ _ => ⟨(Bool.and_eq_true_iff.mp hc).1, hs⟩⟩
  rcases ite_eq_or hr with ⟨hc, hr⟩ | ⟨-, hr⟩
  · exact Except.ok.inj hr ▸ ⟨rfl, fun hs _ _ => ⟨(Bool.and_eq_true_iff.mp hc).1, hs⟩⟩
  rcases ite_eq_or hr with ⟨-, hr⟩ | ⟨-, hr⟩
  · exact Except.ok.inj hr ▸ ⟨rfl, fun _ _ => queryFound_nested _ _⟩
  rcases ite_eq_or hr with ⟨-, hr⟩ | ⟨-, hr⟩
  · exact Except.ok.inj hr ▸ ⟨rfl, fun _ _ => queryFound_nested _ _⟩
  rcases ite_eq_or hr with ⟨-, hr⟩ | ⟨-, hr⟩
  · exact Except.ok.inj hr ▸ ⟨rfl, fun _ _ => queryFound_nested _ _⟩
  · exact Except.ok.inj hr ▸ ⟨rfl, fun _ hn => hn⟩

theorem columnLine_cases {loc : Locals} {line : Text} {h : Handled}
    (hc : columnLine loc line = .ok h) : '=' ∈ line.drop 7 ∧ h = ⟨loc, [], true⟩ := by
  refine ⟨columnLine_ok_iff.mp ⟨h, hc⟩, ?_⟩
  unfold columnLine at hc
  split at hc
  · simp at hc
  · exact (Except.ok.inj hc).symm

theorem dispatch_nested {seq : BinLogSequence} {loc : Locals} {line : Text} {h : Handled}
    (hn : loc.Nested) (hd : dispatch seq loc line = .ok h) : h.loc.Nested := by
  rcases dispatch_cases hd with ⟨hs, hr⟩ | ⟨-, hm⟩
  · rcases rowLine_cases hr with ⟨-, hc⟩ | ⟨-, hrow⟩
    · rw [(columnLine_cases hc).2]
      exact hn
    · exact hrow hs hn
  · intro hdc
    obtain ⟨hloc, hq, hs⟩ := hm hdc
    exact ⟨hq.trans (hn hloc).1, hs (hn hloc).2⟩

theorem handleLine_nested {seq : BinLogSequence} {loc : Locals} {line : Text} {h : Handled}
    (hn : loc.Nested) (hh : handleLine seq loc line = .ok h) : h.loc.Nested := by
  obtain ⟨h', hd, rfl⟩ := map_eq_ok_iff.mp hh
  exact dispatch_nested (h := h') (endOfDataColumn_nested hn line) hd

/-- The text is read as a column of a row: its prefix and the end of its number are there. -/
def IsColumn (line : Text) : Prop := columnPrefix <+: line ∧ '=' ∈ line.drop 7

/-- A column of an open row changes nothing. -/
theorem handleLine_column {seq : BinLogSequence} {loc : Locals} {line : Text} (hn : loc.Nested)
    (hdc : loc.bDataColumnInProgress = true) (hl : IsColumn line) :
    handleLine seq loc line = .ok ⟨loc, [], true⟩ := by
  obtain ⟨hq, hs⟩ := hn hdc
  have hcol : startsWith line columnPrefix = true := startsWith_iff.mpr hl.1
  have hrow : startsWith line rowPrefix = true :=
    startsWith_iff.mpr (List.IsPrefix.trans (by decide) hl.1)
  have hopen : endOfDataColumn loc line = (loc, []) := by
    rw [endOfDataColumn, hcol, Bool.not_true, Bool.and_false, if_neg Bool.false_ne_true]
  obtain ⟨h, hh⟩ := (columnLine_ok_iff).mpr hl.2
  have hd : dispatch seq loc line = .ok ⟨loc, [], true⟩ := by
    rw [dispatch, hs, hrow, Bool.and_self, if_pos rfl, rowLine, hq, hcol, Bool.and_self,
      if_pos rfl, hh, (columnLine_cases hh).2]
  rw [handleLine, hopen, hd]
  rfl

/-- The column branch is taken by column lines only. -/
theorem isColumn_of_handleLine {seq : BinLogSequence} {loc : Locals} {line : Text} {h : Handled}
    (hh : handleLine seq loc line = .ok h) (hc : h.column = true) : IsColumn line := by
  obtain ⟨h', hd, rfl⟩ := map_eq_ok_iff.mp hh
  rcases dispatch_cases hd with ⟨-, hr⟩ | ⟨hm, -⟩
  · rcases rowLine_cases hr with ⟨hp, hl⟩ | ⟨hf, -⟩
    · exact ⟨startsWith_iff.mp hp, (columnLine_cases hl).1⟩
    · exact absurd (hf.symm.trans hc) Bool.false_ne_true
  · exact absurd (hm.symm.trans hc) Bool.false_ne_true

end BinlogCapture
