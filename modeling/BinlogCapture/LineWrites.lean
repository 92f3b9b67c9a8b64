import BinlogCapture.LineHandler

/-! The copies of fixed size that the handling of a line makes: for each branch, the buffers that
are written and how far, and the lines for which every write stays inside its buffer. -/
namespace BinlogCapture
open CString Fallible

/-- The destinations of fixed size. `inProgess` is the name in `g_stBinLogSeqInProgess`, `buf` the
local buffer of `ddatol`. -/
inductive Destination where
  | szLastBufferWork
  | szSeqNo
  | szXid
  | szBinLogName
  | szSchemaName
  | szTableName
  | inProgess
  | buf
  deriving DecidableEq, Repr

def lenBufWork : ℕ := 512

def Destination.size : Destination → ℕ
  | .szLastBufferWork => lenBufWork + 1
  | .szSeqNo => 21
  | .szXid => 50
  | .szBinLogName => 500
  | .szSchemaName => 500
  | .szTableName => 500
  | .inProgess => 50
  | .buf => 128

/-- A copy to a destination: the highest index that it writes, which is that of the NUL. -/
structure Write where
  destination : Destination
  index : ℕ
  deriving DecidableEq, Repr

def Write.Inside (w : Write) : Prop := w.index < w.destination.size

instance (w : Write) : Decidable w.Inside := inferInstanceAs (Decidable (_ < _))

/-- `strncpy` of the field in front of a separator, whose search is not checked, and then the rest
of the handler. -/
def fieldWrites (d : Destination) (t : Text) (next : Text × Text → Except Fault (List Write)) :
    Except Fault (List Write) := do
  let r ← field t
  let ws ← next r
  return ⟨d, r.1.length⟩ :: ws

/-- The two positions of a marker go through `ddatol`. -/
def positionWrites (t : Text) (next : Text → Except Fault (List Write)) :
    Except Fault (List Write) :=
  fieldWrites .buf t fun a => fieldWrites .buf a.2 fun b => next b.2

/-- The copy of the line for the error messages. -/
def lastBufferWork (line : Text) : Write :=
  ⟨.szLastBufferWork, if line.length < 1024 then line.length else lenBufWork⟩

def columnWrites (line : Text) : Except Fault (List Write) :=
  match strchr '=' (line.drop 7) with
  | none => .error .separator
  | some (a, _) => .ok [⟨.buf, a.length⟩]

/-- A row header, read `iOffsetCmd` bytes behind the start of the line, which may be behind its
NUL. -/
def queryWrites (iOffsetCmd : ℕ) (line behind : Text) : List Write :=
  let pszLineWork := strAt (line ++ nul :: behind) iOffsetCmd
  match strchr '.' pszLineWork with
  | some (schema, table) => [⟨.szTableName, table.length⟩, ⟨.szSchemaName, schema.length⟩]
  | none => [⟨.szTableName, pszLineWork.length⟩, ⟨.szSchemaName, 0⟩]

def rowWrites (loc : Locals) (line behind : Text) : Except Fault (List Write) :=
  if loc.bQueryInProgress && startsWith line columnPrefix then columnWrites line
  else if loc.bQueryInProgress && startsWith line wherePrefix then .ok []
  else if loc.bQueryInProgress && startsWith line setPrefix then .ok []
  else if startsWith line insertPrefix then .ok (queryWrites 16 line behind)
  else if startsWith line updatePrefix then .ok (queryWrites 11 line behind)
  else if startsWith line deletePrefix then .ok (queryWrites 16 line behind)
  else .ok []

/-- The sequence number may be missing, and is then "0". -/
def seqNoWrite (t : Text) : Write :=
  match strchr '!' t with
  | some (a, _) => ⟨.szSeqNo, a.length⟩
  | none => ⟨.szSeqNo, 1⟩

/-- The branches for one line. The flags are those behind the end of a row image, `first` is the
name in `g_StBinLogInfoFirst`. -/
def branchWrites (first : Text) (loc : Locals) (line behind : Text) : Except Fault (List Write) :=
  let inProgess : Write := ⟨.inProgess, loc.szBinLogName.length⟩
  if loc.bStartOfStmt && startsWith line rowPrefix then rowWrites loc line behind
  else if startsWith line beginTag then
    positionWrites (line.drop 8) fun t => .ok [seqNoWrite t, inProgess]
  else if startsWith line stmtTag then positionWrites (line.drop 7) fun _ => .ok []
  else if startsWith line commitTag then
    positionWrites (line.drop 9) fun t => fieldWrites .szXid t fun _ => .ok [inProgess]
  else if startsWith line queryTag then positionWrites (line.drop 8) fun _ => .ok [inProgess]
  else if startsWith line startBinlogTag then
    fieldWrites .szBinLogName (line.drop 15) fun a =>
      .ok (if a.1 ≠ first then [⟨.inProgess, a.1.length⟩] else [])
  else if startsWith line endBinlogTag then .ok []
  else if startsWith line firstBinlogTag then
    fieldWrites .szBinLogName (line.drop 15) fun _ => .ok []
  else .ok []

/-- All writes of one line, given the memory behind it in the line buffer. -/
def lineWrites (first : Text) (loc : Locals) (line behind : Text) : Except Fault (List Write) :=
  (branchWrites first (endOfDataColumn loc line).1 line behind).map (lastBufferWork line :: ·)

/-- No search fails, and every write stays inside. -/
def WritesInside (ws : Except Fault (List Write)) : Prop :=
  ∃ l, ws = .ok l ∧ ∀ w ∈ l, w.Inside

/-- The text begins with a field shorter than `n` that a separator ends. -/
def FieldFits (n : ℕ) (t : Text) (next : Text × Text → Prop) : Prop :=
  ∃ a r, t = a ++ '!' :: r ∧ '!' ∉ a ∧ a.length < n ∧ next (a, r)

/-- Two numbers of at most 127 characters. -/
def PositionsFit (t : Text) (next : Text → Prop) : Prop :=
  FieldFits 128 t fun a => FieldFits 128 a.2 fun b => next b.2

/-- A number of at most 127 characters in front of an equals sign. -/
def ColumnFits (line : Text) : Prop :=
  ∃ a r, line.drop 7 = a ++ '=' :: r ∧ '=' ∉ a ∧ a.length < 128

/-- What stands in front of a dot, and behind it, is at most 499 characters long. -/
def HeaderFits (iOffsetCmd : ℕ) (line behind : Text) : Prop :=
  let t := strAt (line ++ nul :: behind) iOffsetCmd
  (t.takeWhile (· ≠ '.')).length < 500 ∧ (t.dropWhile (· ≠ '.')).length ≤ 500

def RowFits (loc : Locals) (line behind : Text) : Prop :=
  if loc.bQueryInProgress && startsWith line columnPrefix then ColumnFits line
  else if loc.bQueryInProgress && startsWith line wherePrefix then True
  else if loc.bQueryInProgress && startsWith line setPrefix then True
  else if startsWith line insertPrefix then HeaderFits 16 line behind
  else if startsWith line updatePrefix then HeaderFits 11 line behind
  else if startsWith line deletePrefix then HeaderFits 16 line behind
  else True

/-- The fields of the line, and the name of the current binlog where it is copied, fit. -/
def BranchFits (first : Text) (loc : Locals) (line behind : Text) : Prop :=
  if loc.bStartOfStmt && startsWith line rowPrefix then RowFits loc line behind
  else if startsWith line beginTag then
    PositionsFit (line.drop 8) fun t =>
      (∀ a r, t = a ++ '!' :: r → '!' ∉ a → a.length < 21) ∧ loc.szBinLogName.length < 50
  else if startsWith line stmtTag then PositionsFit (line.drop 7) fun _ => True
  else if startsWith line commitTag then
    PositionsFit (line.drop 9) fun t => FieldFits 50 t fun _ => loc.szBinLogName.length < 50
  else if startsWith line queryTag then
    PositionsFit (line.drop 8) fun _ => loc.szBinLogName.length < 50
  else if startsWith line startBinlogTag then
    FieldFits 500 (line.drop 15) fun a => a.1 ≠ first → a.1.length < 50
  else if startsWith line endBinlogTag then True
  else if startsWith line firstBinlogTag then FieldFits 500 (line.drop 15) fun _ => True
  else True

section Inside

theorem writesInside_error (e : Fault) : ¬WritesInside (.error e) := by
  rintro ⟨l, h, -⟩
  cases h

theorem writesInside_ok_iff {l : List Write} : WritesInside (.ok l) ↔ ∀ w ∈ l, w.Inside := by
  constructor
  · rintro ⟨l', h, hl⟩
    cases h
    exact hl
  · intro h
    exact ⟨l, rfl, h⟩

theorem writesInside_nil_iff : WritesInside (.ok []) ↔ True := by
  simp [writesInside_ok_iff]

theorem writesInside_map_cons_iff {w : Write} {ws : Except Fault (List Write)} :
    WritesInside (ws.map (w :: ·)) ↔ w.Inside ∧ WritesInside ws := by
  cases ws with
  | error e => simp [Except.map, writesInside_error]
  | ok l => simp [Except.map, writesInside_ok_iff]

/-- The rule for the copy of a field. -/
theorem writesInside_field_iff {d : Destination} {t : Text}
    {next : Text × Text → Except Fault (List Write)} {p : Text × Text → Prop}
    (hnext : ∀ r, WritesInside (next r) ↔ p r) :
    WritesInside (fieldWrites d t next) ↔ FieldFits d.size t p := by
  unfold fieldWrites field FieldFits
  cases hc : strchr '!' t with
  | none =>
    have hn := strchr_eq_none_iff.mp hc
    simp only [error_bind, writesInside_error, false_iff]
    rintro ⟨a, r, rfl, -⟩
    exact hn (by simp)
  | some r =>
    obtain ⟨ht, hr⟩ := strchr_eq_some hc
    have hmap : (next r >>= fun ws => .ok (⟨d, r.1.length⟩ :: ws) : Except Fault (List Write)) =
        (next r).map (⟨d, r.1.length⟩ :: ·) := by
      cases next r <;> rfl
    simp only [ok_bind]
    refine (iff_of_eq (congrArg WritesInside hmap)).trans ?_
    rw [writesInside_map_cons_iff, hnext]
    constructor
    · rintro ⟨hlen, hp⟩
      exact ⟨r.1, r.2, ht, hr, hlen, hp⟩
    · rintro ⟨a, u, rfl, ha, hlen, hp⟩
      rw [strchr_append ha] at hc
      cases hc
      exact ⟨hlen, hp⟩

theorem writesInside_position_iff {t : Text} {next : Text → Except Fault (List Write)}
    {p : Text → Prop} (hnext : ∀ r, WritesInside (next r) ↔ p r) :
    WritesInside (positionWrites t next) ↔ PositionsFit t p :=
  writesInside_field_iff fun _ => writesInside_field_iff fun b => hnext b.2

theorem writesInside_column_iff {line : Text} :
    WritesInside (columnWrites line) ↔ ColumnFits line := by
  unfold columnWrites ColumnFits
  cases hc : strchr '=' (line.drop 7) with
  | none =>
    have hn := strchr_eq_none_iff.mp hc
    simp only [writesInside_error, false_iff]
    rintro ⟨a, r, he, -⟩
    rw [he] at hn
    exact hn (by simp)
  | some r =>
    obtain ⟨ht, hr⟩ := strchr_eq_some hc
    simp only [writesInside_ok_iff, List.forall_mem_singleton]
    constructor
    · intro hlen
      exact ⟨r.1, r.2, ht, hr, hlen⟩
    · rintro ⟨a, u, he, ha, hlen⟩
      rw [he, strchr_append ha] at hc
      cases hc
      exact hlen

theorem seqNoWrite_inside_iff {t : Text} :
    (seqNoWrite t).Inside ↔ ∀ a r, t = a ++ '!' :: r → '!' ∉ a → a.length < 21 := by
  unfold seqNoWrite
  cases hc : strchr '!' t with
  | none =>
    have hn := strchr_eq_none_iff.mp hc
    constructor
    · rintro - a r rfl
      exact absurd (by simp) hn
    · intro _
      exact (by decide : (1 : ℕ) < 21)
  | some r =>
    obtain ⟨ht, hr⟩ := strchr_eq_some hc
    constructor
    · rintro hlen a u rfl ha
      rw [strchr_append ha] at hc
      cases hc
      exact hlen
    · intro h
      exact h r.1 r.2 ht hr

/-- The schema and the table of a row header are what stands around its first dot. -/
theorem writesInside_query_iff {iOffsetCmd : ℕ} {line behind : Text} :
    WritesInside (.ok (queryWrites iOffsetCmd line behind)) ↔
      HeaderFits iOffsetCmd line behind := by
  unfold queryWrites HeaderFits
  generalize strAt (line ++ nul :: behind) iOffsetCmd = t
  have hparts := List.takeWhile_append_dropWhile (p := (· ≠ '.')) (l := t)
  simp only [writesInside_ok_iff]
  cases hc : strchr '.' t with
  | none =>
    have htake := takeWhile_ne_of_not_mem (strchr_eq_none_iff.mp hc)
    rw [htake, List.append_right_eq_self] at hparts
    rw [htake, hparts]
    simp [Write.Inside, Destination.size]
  | some r =>
    obtain ⟨rfl, hr⟩ := strchr_eq_some hc
    have htake := takeWhile_ne_append hr r.2
    rw [htake, List.append_cancel_left_eq] at hparts
    rw [htake, hparts, List.length_cons, Nat.succ_le_iff]
    simp only [List.forall_mem_cons, List.not_mem_nil, false_implies, implies_true, and_true,
      Write.Inside, Destination.size]
    exact and_comm

end Inside

/-- The conditions on the branches. -/
theorem ite_writesInside_iff {c : Prop} [Decidable c] {x y : Except Fault (List Write)}
    {p q : Prop} (hx : WritesInside x ↔ p) (hy : WritesInside y ↔ q) :
    WritesInside (if c then x else y) ↔ if c then p else q := by
  split
  · exact hx
  · exact hy

theorem rowWrites_inside_iff {loc : Locals} {line behind : Text} :
    WritesInside (rowWrites loc line behind) ↔ RowFits loc line behind := by
  unfold rowWrites RowFits
  apply ite_writesInside_iff writesInside_column_iff
  apply ite_writesInside_iff writesInside_nil_iff
  apply ite_writesInside_iff writesInside_nil_iff
  apply ite_writesInside_iff writesInside_query_iff
  apply ite_writesInside_iff writesInside_query_iff
  exact ite_writesInside_iff writesInside_query_iff writesInside_nil_iff

theorem inProgess_inside_iff {name : Text} :
    WritesInside (.ok [⟨.inProgess, name.length⟩]) ↔ name.length < 50 := by
  simp [writesInside_ok_iff, Write.Inside, Destination.size]

theorem branchWrites_inside_iff {first line behind : Text} {loc : Locals} :
    WritesInside (branchWrites first loc line behind) ↔ BranchFits first loc line behind := by
  unfold branchWrites BranchFits
  apply ite_writesInside_iff rowWrites_inside_iff
  apply ite_writesInside_iff
  · apply writesInside_position_iff
    intro t
    rw [writesInside_ok_iff, List.forall_mem_cons, List.forall_mem_singleton,
      seqNoWrite_inside_iff]
    rfl
  apply ite_writesInside_iff (writesInside_position_iff fun _ => writesInside_nil_iff)
  apply ite_writesInside_iff
  · exact writesInside_position_iff fun _ => writesInside_field_iff fun _ => inProgess_inside_iff
  apply ite_writesInside_iff (writesInside_position_iff fun _ => inProgess_inside_iff)
  apply ite_writesInside_iff
  · apply writesInside_field_iff
    intro a
    by_cases ha : a.1 = first
    · simp [ha, writesInside_ok_iff]
    · simp only [ne_eq, ha, not_false_eq_true, ↓reduceIte, true_implies]
      exact inProgess_inside_iff
  apply ite_writesInside_iff writesInside_nil_iff
  exact ite_writesInside_iff (writesInside_field_iff fun _ => writesInside_nil_iff)
    writesInside_nil_iff

theorem lastBufferWork_inside_iff {line : Text} :
    (lastBufferWork line).Inside ↔ line.length ≤ 512 ∨ 1024 ≤ line.length := by
  unfold lastBufferWork Write.Inside Destination.size lenBufWork
  split
  · simp only
    omega
  · simp only
    omega

/-- The handling of a line stays inside every destination exactly when the line is not between 513
and 1023 bytes long and the fields that its branch copies are there and fit. -/
theorem lineWrites_inside_iff (first : Text) (loc : Locals) (line behind : Text) :
    WritesInside (lineWrites first loc line behind) ↔
      (line.length ≤ 512 ∨ 1024 ≤ line.length) ∧
        BranchFits first (endOfDataColumn loc line).1 line behind := by
  rw [lineWrites, writesInside_map_cons_iff, lastBufferWork_inside_iff, branchWrites_inside_iff]

/-- A line of 600 bytes, whatever it is, is terminated outside of `g_szLastBufferWork`. -/
theorem not_lineWrites_inside :
    ¬WritesInside (lineWrites [] {} (List.replicate 600 'x') []) := by
  rintro ⟨l, h, hl⟩
  have hwrites : lineWrites [] {} (List.replicate 600 'x') [] = .ok [⟨.szLastBufferWork, 600⟩] := by
    decide +kernel
  rw [hwrites] at h
  cases h
  exact absurd (hl _ (List.mem_singleton_self _)) (by decide)

section Separators

theorem fieldWrites_ok_iff {d : Destination} {t : Text} {n : ℕ}
    {next : Text × Text → Except Fault (List Write)}
    (hnext : ∀ r, (∃ l, next r = .ok l) ↔ n ≤ r.2.count '!') :
    (∃ l, fieldWrites d t next = .ok l) ↔ n + 1 ≤ t.count '!' := by
  unfold fieldWrites
  by_cases h : 1 ≤ t.count '!'
  · obtain ⟨r, hr, hcount⟩ := field_eq_ok h
    rw [hr, ok_bind, hcount, Nat.add_le_add_iff_right, ← hnext r]
    constructor
    · rintro ⟨l, hl⟩
      obtain ⟨ws, hws, -⟩ := bind_eq_ok_iff.mp hl
      exact ⟨ws, hws⟩
    · rintro ⟨ws, hws⟩
      exact ⟨_, by rw [hws, ok_bind]; rfl⟩
  · simp only [field_eq_error h, error_bind, reduceCtorEq, exists_false, false_iff]
    omega

theorem positionWrites_ok_iff {t : Text} {n : ℕ} {next : Text → Except Fault (List Write)}
    (hnext : ∀ r, (∃ l, next r = .ok l) ↔ n ≤ r.count '!') :
    (∃ l, positionWrites t next = .ok l) ↔ n + 2 ≤ t.count '!' :=
  fieldWrites_ok_iff fun _ => fieldWrites_ok_iff fun b => hnext b.2

theorem ok_ok_count_iff (l : List Write) (t : Text) :
    (∃ l', (.ok l : Except Fault (List Write)) = .ok l') ↔ 0 ≤ t.count '!' := by
  simp

theorem columnWrites_ok_iff {line : Text} :
    (∃ l, columnWrites line = .ok l) ↔ '=' ∈ line.drop 7 := by
  unfold columnWrites
  cases hc : strchr '=' (line.drop 7) with
  | none => simp [strchr_eq_none_iff.mp hc]
  | some r => simp [(strchr_eq_some hc).1]

theorem rowWrites_ok_iff {loc : Locals} {line behind : Text} :
    (∃ l, rowWrites loc line behind = .ok l) ↔
      (loc.bQueryInProgress && startsWith line columnPrefix → '=' ∈ line.drop 7) := by
  have h : (∃ l, rowWrites loc line behind = .ok l) ↔
      if loc.bQueryInProgress && startsWith line columnPrefix then '=' ∈ line.drop 7
      else True := by
    unfold rowWrites
    apply ite_ok_iff columnWrites_ok_iff
    repeat' split
    all_goals exact ok_ok_iff _
  rw [h, if_true_right]

theorem branchWrites_ok_iff {first line behind : Text} {loc : Locals} :
    (∃ l, branchWrites first loc line behind = .ok l) ↔ Separated loc line := by
  unfold branchWrites Separated MarkerSeparated
  apply ite_ok_iff rowWrites_ok_iff
  apply ite_ok_iff (positionWrites_ok_iff fun t => ok_ok_count_iff _ t)
  apply ite_ok_iff (positionWrites_ok_iff fun t => ok_ok_count_iff _ t)
  apply ite_ok_iff
  · exact positionWrites_ok_iff fun _ => fieldWrites_ok_iff fun r => ok_ok_count_iff _ r.2
  apply ite_ok_iff (positionWrites_ok_iff fun t => ok_ok_count_iff _ t)
  apply ite_ok_iff (fieldWrites_ok_iff fun r => ok_ok_count_iff _ r.2)
  apply ite_ok_iff (ok_ok_iff _)
  exact ite_ok_iff (fieldWrites_ok_iff fun r => ok_ok_count_iff _ r.2) (ok_ok_iff _)

/-- The writes follow the branches of the handler: both need the same separators. -/
theorem lineWrites_ok_iff {first line behind : Text} {loc : Locals} {seq : BinLogSequence} :
    (∃ l, lineWrites first loc line behind = .ok l) ↔ ∃ h, handleLine seq loc line = .ok h := by
  rw [handleLine_ok_iff, ← branchWrites_ok_iff]
  simp only [lineWrites, map_eq_ok_iff]
  constructor
  · rintro ⟨_, l, hl, -⟩
    exact ⟨l, hl⟩
  · rintro ⟨l, hl⟩
    exact ⟨_, l, hl, rfl⟩

end Separators

end BinlogCapture
