import BinlogCapture.LogEvent

/-! The session in which the statements of a binlog run. `print_query_header` prints only what is
not as the statement before has left it, and `print_event_info` keeps what was printed last. -/
namespace BinlogCapture
open CString LineFeed

/-- The session variables that the header of a statement sets, and the current database. -/
inductive SessionVar where
  | database | timestamp | pseudoThreadId | foreignKeyChecks | sqlAutoIsNull | uniqueChecks
  | autocommit | checkConstraintChecks | sqlMode | autoIncrementIncrement | autoIncrementOffset
  | characterSetClient | collationConnection | collationServer | timeZone | lcTimeNames
  | collationDatabase
  deriving DecidableEq, Repr

def SessionVar.name : SessionVar → Text
  | .database => "DATABASE".toList
  | .timestamp => "TIMESTAMP".toList
  | .pseudoThreadId => "@@session.pseudo_thread_id".toList
  | .foreignKeyChecks => "@@session.foreign_key_checks".toList
  | .sqlAutoIsNull => "@@session.sql_auto_is_null".toList
  | .uniqueChecks => "@@session.unique_checks".toList
  | .autocommit => "@@session.autocommit".toList
  | .checkConstraintChecks => "@@session.check_constraint_checks".toList
  | .sqlMode => "@@session.sql_mode".toList
  | .autoIncrementIncrement => "@@session.auto_increment_increment".toList
  | .autoIncrementOffset => "@@session.auto_increment_offset".toList
  | .characterSetClient => "@@session.character_set_client".toList
  | .collationConnection => "@@session.collation_connection".toList
  | .collationServer => "@@session.collation_server".toList
  | .timeZone => "@@session.time_zone".toList
  | .lcTimeNames => "@@session.lc_time_names".toList
  | .collationDatabase => "@@session.collation_database".toList

/-- A line of the header behind its first one. -/
inductive SessionLine where
  | use (db : Text)
  | set (sep : Text) (values : List (SessionVar × Text))
  /-- For the client that reads the text. -/
  | charset (csname : Text)
  deriving DecidableEq, Repr

def assignment (v : SessionVar × Text) : Text := v.1.name ++ '=' :: v.2

def SessionLine.text : SessionLine → Text
  | .use db => "use ".toList ++ quoteName db ++ "/*!*/;".toList
  | .set sep values => "SET ".toList ++ sep.intercalate (values.map assignment) ++ "/*!*/;".toList
  | .charset csname => "/*!\\C ".toList ++ csname ++ " */".toList ++ "/*!*/;".toList

def SessionLine.values : SessionLine → List (SessionVar × Text)
  | .use db => [(.database, db)]
  | .set _ values => values
  | .charset _ => []

/-- The values that a session has been given. -/
abbrev Session := SessionVar → Option Text

def Session.set (s : Session) (v : SessionVar × Text) : Session := Function.update s v.1 (some v.2)

def Session.run (s : Session) (lines : List SessionLine) : Session :=
  (lines.flatMap SessionLine.values).foldl Session.set s

/-- What `print_query_header` reads of a `Query` event. -/
structure QueryEvent where
  header : Header
  threadId : ℕ
  execTime : ℕ
  errorCode : ℕ
  /-- `LOG_EVENT_SUPPRESS_USE_F` -/
  suppressUse : Bool
  /-- `LOG_EVENT_THREAD_SPECIFIC_F` -/
  threadSpecific : Bool
  db : Option Text
  when : ℕ
  whenSecPart : ℕ
  flags2 : Option ℕ
  sqlMode : Option ℕ
  autoIncrementIncrement : ℕ
  autoIncrementOffset : ℕ
  charset : Option (ℕ × ℕ × ℕ)
  timeZoneStr : Text
  lcTimeNamesNumber : ℕ
  charsetDatabaseNumber : ℕ
  query : Text
  flags2_lt : ∀ f ∈ flags2, f < 2 ^ 32
  lcTimeNames_lt : lcTimeNamesNumber < 2 ^ 16
  charsetDatabase_lt : charsetDatabaseNumber < 2 ^ 16

/-- The part of `print_event_info` that comes from the event that was printed last. A value is
missing before the first event that carries it. -/
structure SessionInfo where
  db : Text
  threadId : Option ℕ
  flags2 : Option ℕ
  sqlMode : Option ℕ
  autoIncrementIncrement : ℕ
  autoIncrementOffset : ℕ
  charset : Option (ℕ × ℕ × ℕ)
  timeZoneStr : Text
  lcTimeNamesNumber : ℕ
  charsetDatabaseNumber : ℕ
  deriving DecidableEq, Repr

/-- `ILLEGAL_CHARSET_INFO_NUMBER`, also the first `lc_time_names_number`. -/
def illegalNumber : ℕ := 2 ^ 32 - 1

/-- `st_print_event_info` -/
def SessionInfo.initial : SessionInfo where
  db := []
  threadId := none
  flags2 := none
  sqlMode := none
  autoIncrementIncrement := 0
  autoIncrementOffset := 0
  charset := none
  timeZoneStr := []
  lcTimeNamesNumber := illegalNumber
  charsetDatabaseNumber := illegalNumber

/-- `is_trans_keyword`: the whole statement is compared with the first two. -/
def isTransKeyword (query : Text) : Bool :=
  query.isPrefixOf "BEGIN".toList || query.isPrefixOf "COMMIT".toList ||
    startsWith (lower query) "savepoint".toList || startsWith (lower query) "rollback".toList

section Print
variable (info : SessionInfo) (ev : QueryEvent)

def printUse : SessionInfo × List SessionLine :=
  if ev.suppressUse then
    (if isTransKeyword ev.query then info else { info with db := [] }, [])
  else
    match ev.db with
    | none => (info, [])
    | some db => ({ info with db := db }, if db ≠ [] ∧ info.db ≠ db then [.use db] else [])

def timestampText : Text :=
  decimal ev.when ++
    if 0 < ev.whenSecPart ∧ ev.whenSecPart ≤ 999999 then '.' :: decimal ev.whenSecPart else []

def printThreadId : SessionInfo × List SessionLine :=
  if info.threadId = none ∨ ev.threadSpecific = true ∧ info.threadId ≠ some ev.threadId then
    ({ info with threadId := some ev.threadId }, [.set [] [(.pseudoThreadId, decimal ev.threadId)]])
  else (info, [])

/-- An option of `flags2`: its bit, the variable, and the bit that makes it 0. -/
structure FlagOption where
  bit : ℕ
  var : SessionVar
  zero : Bool

def flagOptions : List FlagOption :=
  [⟨26, .foreignKeyChecks, true⟩, ⟨14, .sqlAutoIsNull, false⟩, ⟨27, .uniqueChecks, true⟩,
    ⟨19, .autocommit, true⟩, ⟨15, .checkConstraintChecks, true⟩]

def FlagOption.value (o : FlagOption) (flags2 : ℕ) : Text :=
  if flags2.testBit o.bit = o.zero then ['0'] else ['1']

/-- The bits that have changed: all of them before the first event. -/
def changedBits (old : Option ℕ) (flags2 : ℕ) : ℕ :=
  match old with
  | none => 2 ^ 32 - 1
  | some old => old ^^^ flags2

def printFlags : SessionInfo × List SessionLine :=
  match ev.flags2 with
  | none => (info, [])
  | some flags2 =>
    let tmp := changedBits info.flags2 flags2
    if tmp ≠ 0 then
      ({ info with flags2 := some flags2 },
        [.set ", ".toList ((flagOptions.filter fun o => tmp.testBit o.bit).map fun o =>
          (o.var, o.value flags2))])
    else (info, [])

def printSqlMode : SessionInfo × List SessionLine :=
  match ev.sqlMode with
  | none => (info, [])
  | some mode =>
    if info.sqlMode ≠ some mode then
      ({ info with sqlMode := some mode }, [.set [] [(.sqlMode, decimal mode)]])
    else (info, [])

def printAutoIncrement : SessionInfo × List SessionLine :=
  if info.autoIncrementIncrement ≠ ev.autoIncrementIncrement ∨
      info.autoIncrementOffset ≠ ev.autoIncrementOffset then
    ({ info with
        autoIncrementIncrement := ev.autoIncrementIncrement
        autoIncrementOffset := ev.autoIncrementOffset },
      [.set ", ".toList [(.autoIncrementIncrement, decimal ev.autoIncrementIncrement),
        (.autoIncrementOffset, decimal ev.autoIncrementOffset)]])
  else (info, [])

/-- `getCsname` is the name of a character set that the library knows. -/
def printCharset (getCsname : ℕ → Option Text) : SessionInfo × List SessionLine :=
  match ev.charset with
  | none => (info, [])
  | some (client, connection, server) =>
    if info.charset ≠ some (client, connection, server) then
      ({ info with charset := some (client, connection, server) },
        ((getCsname client).map SessionLine.charset).toList ++
          [.set ",".toList [(.characterSetClient, decimal client),
            (.collationConnection, decimal connection), (.collationServer, decimal server)]])
    else (info, [])

def timeZoneText (timeZoneStr : Text) : Text := '\'' :: timeZoneStr ++ ['\'']

def printTimeZone : SessionInfo × List SessionLine :=
  if ev.timeZoneStr ≠ [] ∧ info.timeZoneStr ≠ ev.timeZoneStr then
    ({ info with timeZoneStr := ev.timeZoneStr },
      [.set [] [(.timeZone, timeZoneText ev.timeZoneStr)]])
  else (info, [])

def printLcTimeNames : SessionInfo × List SessionLine :=
  if ev.lcTimeNamesNumber ≠ info.lcTimeNamesNumber then
    ({ info with lcTimeNamesNumber := ev.lcTimeNamesNumber },
      [.set [] [(.lcTimeNames, decimal ev.lcTimeNamesNumber)]])
  else (info, [])

def collationText (number : ℕ) : Text := if number = 0 then "DEFAULT".toList else decimal number

def printCollationDatabase : SessionInfo × List SessionLine :=
  if ev.charsetDatabaseNumber ≠ info.charsetDatabaseNumber then
    ({ info with charsetDatabaseNumber := ev.charsetDatabaseNumber },
      [.set [] [(.collationDatabase, collationText ev.charsetDatabaseNumber)]])
  else (info, [])

/-- `print_query_header` behind its first line. -/
def printSession (getCsname : ℕ → Option Text) : SessionInfo × List SessionLine :=
  let (info, use) := printUse info ev
  let (info, thread) := printThreadId info ev
  let (info, flags) := printFlags info ev
  let (info, mode) := printSqlMode info ev
  let (info, increment) := printAutoIncrement info ev
  let (info, charset) := printCharset info ev getCsname
  let (info, zone) := printTimeZone info ev
  let (info, names) := printLcTimeNames info ev
  let (info, collation) := printCollationDatabase info ev
  (info, use ++ [.set [] [(.timestamp, timestampText ev)]] ++ thread ++ flags ++ mode ++
    increment ++ charset ++ zone ++ names ++ collation)

/-- `Query_log_event::print_query_header` -/
def printQueryHeaderOf (getCsname : ℕ → Option Text) : SessionInfo × Text :=
  let (info, lines) := printSession info ev getCsname
  (info, textLine (printHeader ev.header ++ "\tQuery\tthread_id=".toList ++ decimal ev.threadId ++
      "\texec_time=".toList ++ decimal ev.execTime ++ "\terror_code=".toList ++
      decimal ev.errorCode) ++
    lines.flatMap fun line => textLine line.text)

end Print

section Session
variable {s : Session} {v : SessionVar} {t : Text}

/-- A value stays that is not set to another one, and one that is set is there. -/
theorem run_values {vs : List (SessionVar × Text)} (hall : ∀ p ∈ vs, p.1 = v → p.2 = t)
    (h : s v = some t ∨ (v, t) ∈ vs) : vs.foldl Session.set s v = some t := by
  induction vs generalizing s with
  | nil => exact h.resolve_right List.not_mem_nil
  | cons p vs ih =>
    rw [List.forall_mem_cons] at hall
    apply ih hall.2
    by_cases hp : p.1 = v
    · left
      rw [Session.set, ← hp, Function.update_self, hall.1 hp]
    · rcases h with hs | hmem
      · left
        rw [Session.set, Function.update_of_ne (Ne.symm hp), hs]
      · rcases List.mem_cons.mp hmem with heq | hmem
        · exact absurd (by rw [← heq]) hp
        · exact .inr hmem

theorem run_append (s : Session) (lines lines' : List SessionLine) :
    s.run (lines ++ lines') = (s.run lines).run lines' := by
  rw [Session.run, List.flatMap_append, List.foldl_append]
  rfl

end Session

/-- What is known of the session from the values that were printed last. -/
def SessionInfo.knows (info : SessionInfo) : SessionVar → Option Text
  | .database => if info.db = [] then none else some info.db
  | .timestamp => none
  | .pseudoThreadId => info.threadId.map decimal
  | .foreignKeyChecks => info.flags2.map (FlagOption.value ⟨26, .foreignKeyChecks, true⟩)
  | .sqlAutoIsNull => info.flags2.map (FlagOption.value ⟨14, .sqlAutoIsNull, false⟩)
  | .uniqueChecks => info.flags2.map (FlagOption.value ⟨27, .uniqueChecks, true⟩)
  | .autocommit => info.flags2.map (FlagOption.value ⟨19, .autocommit, true⟩)
  | .checkConstraintChecks => info.flags2.map (FlagOption.value ⟨15, .checkConstraintChecks, true⟩)
  | .sqlMode => info.sqlMode.map decimal
  | .autoIncrementIncrement =>
    if info.autoIncrementIncrement = 0 ∧ info.autoIncrementOffset = 0 then none
    else some (decimal info.autoIncrementIncrement)
  | .autoIncrementOffset =>
    if info.autoIncrementIncrement = 0 ∧ info.autoIncrementOffset = 0 then none
    else some (decimal info.autoIncrementOffset)
  | .characterSetClient => info.charset.map fun c => decimal c.1
  | .collationConnection => info.charset.map fun c => decimal c.2.1
  | .collationServer => info.charset.map fun c => decimal c.2.2
  | .timeZone => if info.timeZoneStr = [] then none else some (timeZoneText info.timeZoneStr)
  | .lcTimeNames =>
    if info.lcTimeNamesNumber = illegalNumber then none else some (decimal info.lcTimeNamesNumber)
  | .collationDatabase =>
    if info.charsetDatabaseNumber = illegalNumber then none
    else some (collationText info.charsetDatabaseNumber)

/-- The session has the values that were printed last. -/
def SessionInfo.Holds (info : SessionInfo) (s : Session) : Prop :=
  ∀ v t, info.knows v = some t → s v = some t

/-- The values that are set account for what is known afterwards. -/
def Accounts (info : SessionInfo) (printed : SessionInfo × List SessionLine) : Prop :=
  ∀ v t, printed.1.knows v = some t →
    (∀ p ∈ printed.2.flatMap SessionLine.values, p.1 = v → p.2 = t) ∧
      (info.knows v = some t ∨ (v, t) ∈ printed.2.flatMap SessionLine.values)

theorem SessionInfo.Holds.print {info : SessionInfo} {s : Session} (h : info.Holds s)
    {printed : SessionInfo × List SessionLine} (hprinted : Accounts info printed) :
    printed.1.Holds (s.run printed.2) := by
  intro v t hknows
  obtain ⟨hall, hcases⟩ := hprinted v t hknows
  exact run_values hall (hcases.imp_left (h v t))

section Accounts
variable (info : SessionInfo) (ev : QueryEvent)

theorem accounts_same : Accounts info (info, []) := fun _ _ h =>
  ⟨List.forall_mem_nil _, .inl h⟩

theorem accounts_printUse : Accounts info (printUse info ev) := by
  unfold printUse
  split
  · intro v t h
    refine ⟨List.forall_mem_nil _, .inl ?_⟩
    split at h
    · exact h
    · cases v with
      | database => simp [SessionInfo.knows] at h
      | _ => exact h
  · split
    · exact accounts_same info
    · next db _ =>
      intro v t h
      cases v with
      | database =>
        simp only [SessionInfo.knows] at h ⊢
        by_cases hdb : db = []
        · simp [hdb] at h
        · by_cases hsame : info.db = db <;> simp_all [SessionLine.values]
      | _ =>
        refine ⟨?_, .inl h⟩
        split <;> simp [SessionLine.values]

theorem accounts_printThreadId : Accounts info (printThreadId info ev) := by
  unfold printThreadId
  split
  · intro v t h
    cases v with
    | pseudoThreadId => simp_all [SessionInfo.knows, SessionLine.values]
    | _ => exact ⟨by simp [SessionLine.values], .inl h⟩
  · exact accounts_same info

theorem knows_option (info : SessionInfo) :
    ∀ o ∈ flagOptions, info.knows o.var = info.flags2.map o.value := by
  simp [flagOptions, SessionInfo.knows]

/-- The options have different variables, and bits of the 32. -/
theorem option_of_var : ∀ o ∈ flagOptions, ∀ o' ∈ flagOptions, o.var = o'.var → o = o' := by
  simp [flagOptions]

theorem option_bit_lt : ∀ o ∈ flagOptions, o.bit < 32 := by
  simp [flagOptions]

/-- An option whose bit has not changed has its value. -/
theorem value_of_not_changed {old : Option ℕ} {flags2 : ℕ} {o : FlagOption} (ho : o ∈ flagOptions)
    (h : (changedBits old flags2).testBit o.bit = false) :
    old.map o.value = some (o.value flags2) := by
  cases old with
  | none =>
    rw [changedBits, Nat.testBit_two_pow_sub_one, decide_eq_true (option_bit_lt o ho)] at h
    cases h
  | some old =>
    have hbit : old.testBit o.bit = flags2.testBit o.bit := by
      simpa [changedBits, Nat.testBit_xor] using h
    rw [Option.map_some, FlagOption.value, FlagOption.value, hbit]

theorem accounts_printFlags : Accounts info (printFlags info ev) := by
  unfold printFlags
  split
  · exact accounts_same info
  · next flags2 _ =>
    dsimp only
    split
    · intro v t h
      dsimp only at h
      rw [List.flatMap_singleton, SessionLine.values]
      by_cases hv : ∃ o ∈ flagOptions, o.var = v
      · obtain ⟨o, ho, rfl⟩ := hv
        rw [knows_option _ o ho, Option.map_some, Option.some_inj] at h
        subst h
        constructor
        · intro p hp heq
          obtain ⟨o', ho', rfl⟩ := List.mem_map.mp hp
          rw [option_of_var o' (List.mem_of_mem_filter ho') o ho heq]
        · cases hbit : (changedBits info.flags2 flags2).testBit o.bit with
          | false =>
            left
            rw [knows_option _ o ho]
            exact value_of_not_changed ho hbit
          | true =>
            right
            exact List.mem_map.mpr ⟨o, List.mem_filter.mpr ⟨ho, hbit⟩, rfl⟩
      · have hnot : ∀ o ∈ flagOptions, o.var ≠ v := fun o ho heq => hv ⟨o, ho, heq⟩
        constructor
        · intro p hp heq
          obtain ⟨o, ho, rfl⟩ := List.mem_map.mp hp
          exact absurd heq (hnot o (List.mem_of_mem_filter ho))
        · left
          cases v <;> first | exact h | simp [flagOptions] at hnot
    · exact accounts_same info

theorem accounts_printSqlMode : Accounts info (printSqlMode info ev) := by
  unfold printSqlMode
  split
  · exact accounts_same info
  · split
    · intro v t h
      cases v with
      | sqlMode => simp_all [SessionInfo.knows, SessionLine.values]
      | _ => exact ⟨by simp [SessionLine.values], .inl h⟩
    · exact accounts_same info

theorem accounts_printAutoIncrement : Accounts info (printAutoIncrement info ev) := by
  unfold printAutoIncrement
  split
  · intro v t h
    cases v with
    | autoIncrementIncrement => simp_all [SessionInfo.knows, SessionLine.values]
    | autoIncrementOffset => simp_all [SessionInfo.knows, SessionLine.values]
    | _ => exact ⟨by simp [SessionLine.values], .inl h⟩
  · exact accounts_same info

theorem accounts_printCharset (getCsname : ℕ → Option Text) :
    Accounts info (printCharset info ev getCsname) := by
  have hclient : ∀ n, (((getCsname n).map SessionLine.charset).toList.flatMap
      SessionLine.values) = [] := by
    intro n
    cases getCsname n <;> rfl
  unfold printCharset
  split
  · exact accounts_same info
  · split
    · intro v t h
      rw [List.flatMap_append, hclient, List.nil_append]
      cases v with
      | characterSetClient => simp_all [SessionInfo.knows, SessionLine.values]
      | collationConnection => simp_all [SessionInfo.knows, SessionLine.values]
      | collationServer => simp_all [SessionInfo.knows, SessionLine.values]
      | _ => exact ⟨by simp [SessionLine.values], .inl h⟩
    · exact accounts_same info

theorem accounts_printTimeZone : Accounts info (printTimeZone info ev) := by
  unfold printTimeZone
  split
  · intro v t h
    cases v with
    | timeZone => simp_all [SessionInfo.knows, SessionLine.values]
    | _ => exact ⟨by simp [SessionLine.values], .inl h⟩
  · exact accounts_same info

theorem accounts_printLcTimeNames : Accounts info (printLcTimeNames info ev) := by
  unfold printLcTimeNames
  split
  · intro v t h
    cases v with
    | lcTimeNames => simp_all [SessionInfo.knows, SessionLine.values]
    | _ => exact ⟨by simp [SessionLine.values], .inl h⟩
  · exact accounts_same info

theorem accounts_printCollationDatabase : Accounts info (printCollationDatabase info ev) := by
  unfold printCollationDatabase
  split
  · intro v t h
    cases v with
    | collationDatabase => simp_all [SessionInfo.knows, SessionLine.values]
    | _ => exact ⟨by simp [SessionLine.values], .inl h⟩
  · exact accounts_same info

theorem accounts_timestamp (text : Text) :
    Accounts info (info, [.set [] [(.timestamp, text)]]) := by
  intro v t h
  cases v with
  | timestamp => cases h
  | _ => exact ⟨by simp [SessionLine.values], .inl h⟩

end Accounts

section After
variable (info : SessionInfo) (ev : QueryEvent)

/-- What `print_event_info` keeps behind the header of an event. -/
theorem printUse_fst : (printUse info ev).1 = { info with
    db := if ev.suppressUse then (if isTransKeyword ev.query then info.db else [])
      else ev.db.getD info.db } := by
  unfold printUse
  split
  · split <;> rfl
  · split <;> next hdb => rw [hdb]; rfl

theorem printThreadId_fst : (printThreadId info ev).1 = { info with
    threadId := if info.threadId = none ∨ ev.threadSpecific = true ∧
        info.threadId ≠ some ev.threadId then some ev.threadId else info.threadId } := by
  unfold printThreadId
  split <;> rfl

theorem printFlags_fst : (printFlags info ev).1 =
    { info with flags2 := ev.flags2.or info.flags2 } := by
  unfold printFlags
  cases ev.flags2 with
  | none => rfl
  | some flags2 =>
    dsimp only
    split
    · rfl
    · next hsame =>
      have hold : info.flags2 = some flags2 := by
        cases hinfo : info.flags2 with
        | none =>
          rw [hinfo] at hsame
          exact absurd (by rw [changedBits]; decide) hsame
        | some old =>
          rw [hinfo, changedBits, not_not] at hsame
          congr 1
          apply Nat.eq_of_testBit_eq
          intro i
          have hbit := congrArg (fun n => n.testBit i) hsame
          simpa [Nat.testBit_xor] using hbit
      rw [Option.some_or, ← hold]

theorem printSqlMode_fst : (printSqlMode info ev).1 =
    { info with sqlMode := ev.sqlMode.or info.sqlMode } := by
  unfold printSqlMode
  cases ev.sqlMode with
  | none => rfl
  | some mode =>
    dsimp only
    split
    · rfl
    · next hsame => rw [Option.some_or, ← not_not.mp hsame]

theorem printAutoIncrement_fst : (printAutoIncrement info ev).1 = { info with
    autoIncrementIncrement := ev.autoIncrementIncrement
    autoIncrementOffset := ev.autoIncrementOffset } := by
  unfold printAutoIncrement
  split
  · rfl
  · next hsame =>
    rw [not_or, not_not, not_not] at hsame
    rw [← hsame.1, ← hsame.2]

theorem printCharset_fst (getCsname : ℕ → Option Text) : (printCharset info ev getCsname).1 =
    { info with charset := ev.charset.or info.charset } := by
  unfold printCharset
  cases ev.charset with
  | none => rfl
  | some charset =>
    obtain ⟨client, connection, server⟩ := charset
    dsimp only
    split
    · rfl
    · next hsame => rw [Option.some_or, ← not_not.mp hsame]

theorem printTimeZone_fst : (printTimeZone info ev).1 = { info with
    timeZoneStr := if ev.timeZoneStr = [] then info.timeZoneStr else ev.timeZoneStr } := by
  unfold printTimeZone
  by_cases hnil : ev.timeZoneStr = []
  · rw [if_neg (fun h => h.1 hnil), if_pos hnil]
  · by_cases hsame : info.timeZoneStr = ev.timeZoneStr
    · rw [if_neg (fun h => h.2 hsame), if_neg hnil, ← hsame]
    · rw [if_pos ⟨hnil, hsame⟩, if_neg hnil]

theorem printLcTimeNames_fst : (printLcTimeNames info ev).1 =
    { info with lcTimeNamesNumber := ev.lcTimeNamesNumber } := by
  unfold printLcTimeNames
  split
  · rfl
  · next hsame => rw [not_not.mp hsame]

theorem printCollationDatabase_fst : (printCollationDatabase info ev).1 =
    { info with charsetDatabaseNumber := ev.charsetDatabaseNumber } := by
  unfold printCollationDatabase
  split
  · rfl
  · next hsame => rw [not_not.mp hsame]

end After

/-- The microseconds in a number of seconds, which is how the server reads `TIMESTAMP`. -/
def microseconds (t : Text) : ℕ :=
  match strchr '.' t with
  | none => digitsValue t * 10 ^ 6
  | some (sec, frac) =>
    digitsValue sec * 10 ^ 6 + digitsValue (frac.take 6) * 10 ^ (6 - frac.length)

/-- The session stands at the time that the event carries. -/
def QueryEvent.RunsAt (ev : QueryEvent) (s : Session) : Prop :=
  (s .timestamp).map microseconds = some (ev.when * 10 ^ 6 + ev.whenSecPart)

section Timestamp
variable (ev : QueryEvent)

theorem microseconds_decimal (n : ℕ) : microseconds (decimal n) = n * 10 ^ 6 := by
  have hdot : strchr '.' (decimal n) = none := strchr_eq_none_iff.mpr (not_mem_decimal rfl n)
  rw [microseconds, hdot, digitsValue_decimal]

theorem microseconds_part (n : ℕ) {part : ℕ} (hpart : part < 10 ^ 6) :
    microseconds (decimal n ++ '.' :: decimal part) =
      n * 10 ^ 6 + part * 10 ^ (6 - (decimal part).length) := by
  have hlen : (decimal part).length ≤ 6 :=
    (Nat.length_toDigits_le_iff (by decide) (by decide)).mpr hpart
  rw [microseconds, strchr_append (not_mem_decimal rfl n)]
  dsimp only
  rw [List.take_of_length_le hlen, digitsValue_decimal, digitsValue_decimal]

/-- The part is printed without the zeros in front of it. -/
theorem microseconds_timestampText :
    microseconds (timestampText ev) = ev.when * 10 ^ 6 + ev.whenSecPart ↔
      ev.whenSecPart = 0 ∨ 100000 ≤ ev.whenSecPart ∧ ev.whenSecPart ≤ 999999 := by
  unfold timestampText
  split
  · next hpart =>
    have hfive : (decimal ev.whenSecPart).length ≤ 5 ↔ ev.whenSecPart < 10 ^ 5 :=
      Nat.length_toDigits_le_iff (by decide) (by decide)
    rw [microseconds_part _ (by omega), Nat.add_left_cancel_iff]
    by_cases hlen : (decimal ev.whenSecPart).length ≤ 5
    · have hscale : 10 ^ 1 ≤ 10 ^ (6 - (decimal ev.whenSecPart).length) :=
        Nat.pow_le_pow_right (by decide) (by omega)
      have hlarge := Nat.mul_le_mul_left ev.whenSecPart hscale
      have hless := hfive.mp hlen
      constructor
      · intro heq
        omega
      · omega
    · rw [Nat.sub_eq_zero_of_le (by omega), pow_zero, Nat.mul_one]
      have hless := mt hfive.mpr hlen
      exact iff_of_true rfl (.inr (by omega))
  · next hpart =>
    rw [List.append_nil, microseconds_decimal]
    omega

end Timestamp

/-- The values with which the statement of an event is to run, as far as the event carries them. Its
time is that of `QueryEvent.RunsAt`. -/
def QueryEvent.wants (ev : QueryEvent) : SessionVar → Option Text
  | .database => if ev.suppressUse then none else ev.db.filter (· ≠ [])
  | .timestamp => none
  | .pseudoThreadId => if ev.threadSpecific then some (decimal ev.threadId) else none
  | .foreignKeyChecks => ev.flags2.map (FlagOption.value ⟨26, .foreignKeyChecks, true⟩)
  | .sqlAutoIsNull => ev.flags2.map (FlagOption.value ⟨14, .sqlAutoIsNull, false⟩)
  | .uniqueChecks => ev.flags2.map (FlagOption.value ⟨27, .uniqueChecks, true⟩)
  | .autocommit => ev.flags2.map (FlagOption.value ⟨19, .autocommit, true⟩)
  | .checkConstraintChecks => ev.flags2.map (FlagOption.value ⟨15, .checkConstraintChecks, true⟩)
  | .sqlMode => ev.sqlMode.map decimal
  | .autoIncrementIncrement =>
    if ev.autoIncrementIncrement = 0 ∧ ev.autoIncrementOffset = 0 then none
    else some (decimal ev.autoIncrementIncrement)
  | .autoIncrementOffset =>
    if ev.autoIncrementIncrement = 0 ∧ ev.autoIncrementOffset = 0 then none
    else some (decimal ev.autoIncrementOffset)
  | .characterSetClient => ev.charset.map fun c => decimal c.1
  | .collationConnection => ev.charset.map fun c => decimal c.2.1
  | .collationServer => ev.charset.map fun c => decimal c.2.2
  | .timeZone => if ev.timeZoneStr = [] then none else some (timeZoneText ev.timeZoneStr)
  | .lcTimeNames => some (decimal ev.lcTimeNamesNumber)
  | .collationDatabase => some (collationText ev.charsetDatabaseNumber)

section Session
variable (info : SessionInfo) (ev : QueryEvent) (getCsname : ℕ → Option Text)

theorem printSession_fst : (printSession info ev getCsname).1 =
    { db := if ev.suppressUse then (if isTransKeyword ev.query then info.db else [])
        else ev.db.getD info.db
      threadId := if info.threadId = none ∨ ev.threadSpecific = true ∧
        info.threadId ≠ some ev.threadId then some ev.threadId else info.threadId
      flags2 := ev.flags2.or info.flags2
      sqlMode := ev.sqlMode.or info.sqlMode
      autoIncrementIncrement := ev.autoIncrementIncrement
      autoIncrementOffset := ev.autoIncrementOffset
      charset := ev.charset.or info.charset
      timeZoneStr := if ev.timeZoneStr = [] then info.timeZoneStr else ev.timeZoneStr
      lcTimeNamesNumber := ev.lcTimeNamesNumber
      charsetDatabaseNumber := ev.charsetDatabaseNumber } := by
  unfold printSession
  simp only [printUse_fst, printThreadId_fst, printFlags_fst, printSqlMode_fst,
    printAutoIncrement_fst, printCharset_fst, printTimeZone_fst, printLcTimeNames_fst,
    printCollationDatabase_fst]

/-- What an event carries is known behind its header. -/
theorem wants_known {v : SessionVar} {t : Text} (h : ev.wants v = some t) :
    (printSession info ev getCsname).1.knows v = some t := by
  have hnames := ev.lcTimeNames_lt
  have hcollation := ev.charsetDatabase_lt
  have hlegal : ∀ n, n < 2 ^ 16 → n ≠ illegalNumber := by
    intro n hn
    unfold illegalNumber
    omega
  rw [printSession_fst]
  cases v with
  | database =>
    simp only [QueryEvent.wants] at h
    split at h
    · cases h
    · next huse =>
      obtain ⟨hdb, hne⟩ := Option.filter_eq_some_iff.mp h
      simp only [SessionInfo.knows, if_neg huse, hdb, Option.getD_some]
      rw [if_neg (by simpa using hne)]
  | timestamp => cases h
  | pseudoThreadId =>
    simp only [QueryEvent.wants] at h
    split at h
    · next hspecific =>
      simp only [SessionInfo.knows, hspecific, true_and]
      split
      · exact h
      · next hsame =>
        rw [not_or, not_not] at hsame
        rw [hsame.2]
        exact h
    · cases h
  | timeZone =>
    simp only [QueryEvent.wants] at h
    split at h
    · cases h
    · next hne =>
      simp only [SessionInfo.knows, if_neg hne]
      exact h
  | lcTimeNames =>
    simp only [SessionInfo.knows, if_neg (hlegal _ hnames)]
    exact h
  | collationDatabase =>
    simp only [SessionInfo.knows, if_neg (hlegal _ hcollation)]
    exact h
  | autoIncrementIncrement => exact h
  | autoIncrementOffset => exact h
  | _ =>
    obtain ⟨x, hx, rfl⟩ := Option.map_eq_some_iff.mp h
    simp only [SessionInfo.knows, hx, Option.some_or, Option.map_some]

/-- No line but the one for it sets the time. -/
def Untimed (printed : SessionInfo × List SessionLine) : Prop :=
  ∀ p ∈ printed.2.flatMap SessionLine.values, p.1 ≠ .timestamp

theorem untimed_flags : Untimed (printFlags info ev) := by
  unfold Untimed printFlags
  split
  · exact List.forall_mem_nil _
  · dsimp only
    split
    · intro p hp
      rw [List.flatMap_singleton, SessionLine.values] at hp
      obtain ⟨o, ho, rfl⟩ := List.mem_map.mp hp
      have hall : ∀ o ∈ flagOptions, o.var ≠ .timestamp := by simp [flagOptions]
      exact hall o (List.mem_of_mem_filter ho)
    · exact List.forall_mem_nil _

theorem untimed_charset : Untimed (printCharset info ev getCsname) := by
  unfold Untimed printCharset
  split
  · exact List.forall_mem_nil _
  · next client _ _ _ =>
    split
    · cases getCsname client <;> simp [SessionLine.values]
    · exact List.forall_mem_nil _

/-- Every line but the one for the time. -/
theorem timestamp_of_mem : ∀ p ∈ (printSession info ev getCsname).2.flatMap SessionLine.values,
    p.1 = .timestamp → p.2 = timestampText ev := by
  have huse : Untimed (printUse info ev) := by
    unfold Untimed printUse
    split
    · exact List.forall_mem_nil _
    · split
      · exact List.forall_mem_nil _
      · dsimp only
        split <;> simp [SessionLine.values]
  have hthread : ∀ info, Untimed (printThreadId info ev) := by
    intro info
    unfold Untimed printThreadId
    split <;> simp [SessionLine.values]
  have hmode : ∀ info, Untimed (printSqlMode info ev) := by
    intro info
    unfold Untimed printSqlMode
    split
    · exact List.forall_mem_nil _
    · split <;> simp [SessionLine.values]
  have hincrement : ∀ info, Untimed (printAutoIncrement info ev) := by
    intro info
    unfold Untimed printAutoIncrement
    split <;> simp [SessionLine.values]
  have hzone : ∀ info, Untimed (printTimeZone info ev) := by
    intro info
    unfold Untimed printTimeZone
    split <;> simp [SessionLine.values]
  have hnames : ∀ info, Untimed (printLcTimeNames info ev) := by
    intro info
    unfold Untimed printLcTimeNames
    split <;> simp [SessionLine.values]
  have hcollation : ∀ info, Untimed (printCollationDatabase info ev) := by
    intro info
    unfold Untimed printCollationDatabase
    split <;> simp [SessionLine.values]
  have hother : ∀ {printed : SessionInfo × List SessionLine}, Untimed printed →
      ∀ p ∈ printed.2.flatMap SessionLine.values, p.1 = .timestamp → p.2 = timestampText ev :=
    fun h p hp heq => absurd heq (h p hp)
  unfold printSession
  dsimp only
  simp only [List.flatMap_append, List.forall_mem_append]
  refine ⟨⟨⟨⟨⟨⟨⟨⟨⟨hother huse, ?_⟩, hother (hthread _)⟩, hother (untimed_flags _ ev)⟩,
    hother (hmode _)⟩, hother (hincrement _)⟩, hother (untimed_charset _ ev _)⟩,
    hother (hzone _)⟩, hother (hnames _)⟩, hother (hcollation _)⟩
  simp [SessionLine.values]

/-- The header of an event leaves a session that is known. -/
theorem SessionInfo.Holds.session {info : SessionInfo} {s : Session} (h : info.Holds s) :
    (printSession info ev getCsname).1.Holds (s.run (printSession info ev getCsname).2) := by
  have huse := h.print (accounts_printUse info ev)
  have htime := huse.print (accounts_timestamp _ (timestampText ev))
  have hthread := htime.print (accounts_printThreadId _ ev)
  have hflags := hthread.print (accounts_printFlags _ ev)
  have hmode := hflags.print (accounts_printSqlMode _ ev)
  have hincrement := hmode.print (accounts_printAutoIncrement _ ev)
  have hcharset := hincrement.print (accounts_printCharset _ ev getCsname)
  have hzone := hcharset.print (accounts_printTimeZone _ ev)
  have hnames := hzone.print (accounts_printLcTimeNames _ ev)
  have hcollation := hnames.print (accounts_printCollationDatabase _ ev)
  unfold printSession
  dsimp only
  simp only [run_append]
  exact hcollation

/-- Behind its header an event has the values it carries. -/
theorem wants_set {info : SessionInfo} {s : Session} (h : info.Holds s) {v : SessionVar} {t : Text}
    (hv : ev.wants v = some t) : s.run (printSession info ev getCsname).2 v = some t :=
  h.session ev getCsname v t (wants_known info ev getCsname hv)

/-- Behind its header an event has the time that is printed. -/
theorem timestamp_set (s : Session) :
    s.run (printSession info ev getCsname).2 .timestamp = some (timestampText ev) := by
  apply run_values (timestamp_of_mem info ev getCsname)
  right
  unfold printSession
  dsimp only
  simp [SessionLine.values]

/-- It is the time that the event carries when no zero is missing in front of its part. -/
theorem runsAt_iff (s : Session) : ev.RunsAt (s.run (printSession info ev getCsname).2) ↔
    ev.whenSecPart = 0 ∨ 100000 ≤ ev.whenSecPart ∧ ev.whenSecPart ≤ 999999 := by
  rw [QueryEvent.RunsAt, timestamp_set, Option.map_some, Option.some_inj]
  exact microseconds_timestampText ev

end Session

/-- Behind such a statement the session may have another current database, or none. -/
def QueryEvent.MovesDatabase (ev : QueryEvent) : Prop :=
  ev.suppressUse = true ∧ isTransKeyword ev.query = false

/-- The sessions in which the statements run, one after the other. `effect` is what the statement
itself does to the session. -/
def sessions (getCsname : ℕ → Option Text) (effect : QueryEvent → Session → Session) :
    SessionInfo → Session → List QueryEvent → List (QueryEvent × Session)
  | _, _, [] => []
  | info, s, ev :: evs =>
    let printed := printSession info ev getCsname
    (ev, s.run printed.2) ::
      sessions getCsname effect printed.1 (effect ev (s.run printed.2)) evs

section Run
variable {getCsname : ℕ → Option Text} {effect : QueryEvent → Session → Session}

theorem wants_of_mem_sessions
    (heffect : ∀ ev s v, (v = .database → ¬ev.MovesDatabase) → effect ev s v = s v)
    {evs : List QueryEvent} : ∀ {info : SessionInfo} {s : Session}, info.Holds s →
      ∀ p ∈ sessions getCsname effect info s evs,
        (∀ v t, p.1.wants v = some t → p.2 v = some t) ∧
          (p.1.RunsAt p.2 ↔
            p.1.whenSecPart = 0 ∨ 100000 ≤ p.1.whenSecPart ∧ p.1.whenSecPart ≤ 999999) := by
  induction evs with
  | nil => exact fun _ => List.forall_mem_nil _
  | cons ev evs ih =>
    intro info s h
    rw [sessions, List.forall_mem_cons]
    constructor
    · exact ⟨fun v t hv => wants_set ev getCsname h hv, runsAt_iff info ev getCsname s⟩
    · apply ih
      intro v t hknows
      rw [heffect ev _ v]
      · exact h.session ev getCsname v t hknows
      · rintro rfl ⟨huse, hkeyword⟩
        rw [printSession_fst, SessionInfo.knows] at hknows
        simp [huse, hkeyword] at hknows

/-- Whatever the session before the first statement, every statement of a binlog runs with the
values that its event carries, although its header sets only what has changed; and it runs at the
time of its event exactly when the microseconds are none or have six digits. -/
theorem session_of_headers (getCsname : ℕ → Option Text)
    (heffect : ∀ ev s v, (v = .database → ¬ev.MovesDatabase) → effect ev s v = s v)
    (evs : List QueryEvent) (s : Session) :
    ∀ p ∈ sessions getCsname effect .initial s evs,
      (∀ v t, p.1.wants v = some t → p.2 v = some t) ∧
        (p.1.RunsAt p.2 ↔
          p.1.whenSecPart = 0 ∨ 100000 ≤ p.1.whenSecPart ∧ p.1.whenSecPart ≤ 999999) := by
  apply wants_of_mem_sessions heffect
  intro v t h
  cases v <;> cases h

end Run

/-- A statement at a time of the epoch, in one thread and one database. -/
def sampleQuery (when whenSecPart : ℕ) : QueryEvent where
  header := ⟨⟨[' '], by decide⟩, by decide⟩
  threadId := 9
  execTime := 0
  errorCode := 0
  suppressUse := false
  threadSpecific := true
  db := some "test".toList
  when := when
  whenSecPart := whenSecPart
  flags2 := some 0
  sqlMode := some 1411383296
  autoIncrementIncrement := 1
  autoIncrementOffset := 1
  charset := some (33, 33, 8)
  timeZoneStr := []
  lcTimeNamesNumber := 0
  charsetDatabaseNumber := 0
  query := "drop table t".toList
  flags2_lt := fun f hf => by
    obtain rfl := Option.some.inj hf
    decide
  lcTimeNames_lt := by decide
  charsetDatabase_lt := by decide

/-- The header of the second of two such statements sets the time alone; the first one runs at its
time, and the second one half a second late. -/
theorem session_of_headers_second :
    (printSession (printSession .initial (sampleQuery 100 250000) fun _ => none).1
      (sampleQuery 101 5) fun _ => none).2 = [.set [] [(.timestamp, "101.5".toList)]] ∧
    ∀ p ∈ sessions (fun _ => none) (fun _ s => s) .initial (fun _ => none)
      [sampleQuery 100 250000, sampleQuery 101 5],
      (∀ v t, p.1.wants v = some t → p.2 v = some t) ∧
        (p.1.RunsAt p.2 ↔
          p.1.whenSecPart = 0 ∨ 100000 ≤ p.1.whenSecPart ∧ p.1.whenSecPart ≤ 999999) :=
  ⟨by decide, session_of_headers (fun _ => none) (fun _ _ _ _ => rfl) _ _⟩

section Text

theorem not_mem_intercalate {c : Char} {sep : Text} (hsep : c ∉ sep) {ls : List Text}
    (h : ∀ l ∈ ls, c ∉ l) : c ∉ sep.intercalate ls := by
  induction ls with
  | nil => simp [List.intercalate]
  | cons l ls ih =>
    rw [List.forall_mem_cons] at h
    cases ls with
    | nil => simpa [List.intercalate] using h.1
    | cons l' ls =>
      have hrest := ih h.2
      rw [List.intercalate_cons_cons, List.mem_append, List.mem_append, not_or, not_or]
      exact ⟨⟨h.1, hsep⟩, hrest⟩

theorem text_set (sep : Text) (values : List (SessionVar × Text)) :
    (SessionLine.set sep values).text =
      "SET ".toList ++ sep.intercalate (values.map assignment) ++ "/*!*/;".toList := rfl

theorem text_charset (csname : Text) : (SessionLine.charset csname).text =
    "/*!\\C ".toList ++ csname ++ " */".toList ++ "/*!*/;".toList := rfl

theorem newline_not_mem_name (v : SessionVar) : '\n' ∉ v.name := by
  cases v <;> decide

/-- The line is one of those that set variables. -/
def SessionLine.Sets (line : SessionLine) : Prop := ∃ s : Setting, s.text = line.text

theorem sets_set {sep : Text} (hsep : '\n' ∉ sep) {values : List (SessionVar × Text)}
    (h : ∀ v ∈ values, '\n' ∉ v.2) : (SessionLine.set sep values).Sets := by
  have hline : '\n' ∉ (SessionLine.set sep values).text := by
    have hvalues : '\n' ∉ sep.intercalate (values.map assignment) := by
      apply not_mem_intercalate hsep
      intro l hl
      obtain ⟨v, hv, rfl⟩ := List.mem_map.mp hl
      rw [assignment, List.mem_append, List.mem_cons, not_or, not_or]
      exact ⟨newline_not_mem_name v.1, by decide, h v hv⟩
    rw [text_set]
    exact List.not_mem_append (List.not_mem_append (by decide) hvalues) (by decide)
  have hsetting : "SET ".toList <+: (SessionLine.set sep values).text := by
    rw [text_set, List.append_assoc]
    exact List.prefix_append _ _
  exact ⟨⟨⟨_, hline⟩, .inl hsetting⟩, rfl⟩

theorem sets_charset {csname : Text} (h : '\n' ∉ csname) : (SessionLine.charset csname).Sets := by
  have hline : '\n' ∉ (SessionLine.charset csname).text := by
    rw [text_charset]
    exact List.not_mem_append (List.not_mem_append (List.not_mem_append (by decide) h) (by decide))
      (by decide)
  have hsetting : "/*!".toList <+: (SessionLine.charset csname).text := by
    have hlead : "/*!\\C ".toList = "/*!".toList ++ "\\C ".toList := rfl
    rw [text_charset, hlead]
    simp only [List.append_assoc]
    exact List.prefix_append _ _
  exact ⟨⟨⟨_, hline⟩, .inr hsetting⟩, rfl⟩

theorem exists_settings {lines : List SessionLine} (h : ∀ line ∈ lines, line.Sets) :
    ∃ settings : List Setting,
      (lines.flatMap fun line => textLine line.text) = printSettings settings := by
  induction lines with
  | nil => exact ⟨[], rfl⟩
  | cons line lines ih =>
    rw [List.forall_mem_cons] at h
    obtain ⟨s, hs⟩ := h.1
    obtain ⟨settings, hsettings⟩ := ih h.2
    refine ⟨s :: settings, ?_⟩
    rw [List.flatMap_cons, hsettings, ← hs]
    rfl

variable (info : SessionInfo) (ev : QueryEvent) {getCsname : ℕ → Option Text}

/-- The header is one that the events are modelled with: its first line, at most one line for the
database, and lines that set variables. -/
theorem printQueryHeaderOf_eq (hzone : '\n' ∉ ev.timeZoneStr)
    (hcsname : ∀ n, ∀ t ∈ getCsname n, '\n' ∉ t) :
    ∃ summary useDb settings, (printQueryHeaderOf info ev getCsname).2 =
      printQueryHeader ev.header summary useDb settings := by
  have hdecimal : ∀ n, '\n' ∉ decimal n := fun n => not_mem_decimal rfl n
  have hset : ∀ {sep : Text} {values : List (SessionVar × Text)}, '\n' ∉ sep →
      (∀ v ∈ values, '\n' ∉ v.2) → ∀ line ∈ [SessionLine.set sep values], line.Sets :=
    fun hsep h => List.forall_mem_singleton.mpr (sets_set hsep h)
  have htime : ∀ line ∈ [SessionLine.set [] [(.timestamp, timestampText ev)]], line.Sets := by
    apply hset List.not_mem_nil
    rw [List.forall_mem_singleton, timestampText, List.mem_append, not_or]
    refine ⟨hdecimal _, ?_⟩
    split
    · simpa using hdecimal _
    · exact List.not_mem_nil
  have hthread : ∀ info, ∀ line ∈ (printThreadId info ev).2, line.Sets := by
    intro info
    unfold printThreadId
    split
    · exact hset List.not_mem_nil (List.forall_mem_singleton.mpr (hdecimal _))
    · exact List.forall_mem_nil _
  have hflags : ∀ info, ∀ line ∈ (printFlags info ev).2, line.Sets := by
    intro info
    unfold printFlags
    split
    · exact List.forall_mem_nil _
    · dsimp only
      split
      · apply hset (by decide)
        intro v hv
        obtain ⟨o, -, rfl⟩ := List.mem_map.mp hv
        dsimp only [FlagOption.value]
        split <;> decide
      · exact List.forall_mem_nil _
  have hmode : ∀ info, ∀ line ∈ (printSqlMode info ev).2, line.Sets := by
    intro info
    unfold printSqlMode
    split
    · exact List.forall_mem_nil _
    · split
      · exact hset List.not_mem_nil (List.forall_mem_singleton.mpr (hdecimal _))
      · exact List.forall_mem_nil _
  have hincrement : ∀ info, ∀ line ∈ (printAutoIncrement info ev).2, line.Sets := by
    intro info
    unfold printAutoIncrement
    split
    · apply hset (by decide)
      rw [List.forall_mem_cons, List.forall_mem_singleton]
      exact ⟨hdecimal _, hdecimal _⟩
    · exact List.forall_mem_nil _
  have hcharset : ∀ info, ∀ line ∈ (printCharset info ev getCsname).2, line.Sets := by
    intro info
    unfold printCharset
    split
    · exact List.forall_mem_nil _
    · next client _ _ _ =>
      split
      · rw [List.forall_mem_append]
        constructor
        · intro line hline
          obtain ⟨t, ht, rfl⟩ := Option.map_eq_some_iff.mp (Option.mem_toList.mp hline)
          exact sets_charset (hcsname client t ht)
        · apply hset (by decide)
          simp only [List.forall_mem_cons]
          exact ⟨hdecimal _, hdecimal _, hdecimal _, List.forall_mem_nil _⟩
      · exact List.forall_mem_nil _
  have htimeZone : ∀ info, ∀ line ∈ (printTimeZone info ev).2, line.Sets := by
    intro info
    unfold printTimeZone
    split
    · apply hset List.not_mem_nil
      rw [List.forall_mem_singleton, timeZoneText]
      simpa using hzone
    · exact List.forall_mem_nil _
  have hnames : ∀ info, ∀ line ∈ (printLcTimeNames info ev).2, line.Sets := by
    intro info
    unfold printLcTimeNames
    split
    · exact hset List.not_mem_nil (List.forall_mem_singleton.mpr (hdecimal _))
    · exact List.forall_mem_nil _
  have hcollation : ∀ info, ∀ line ∈ (printCollationDatabase info ev).2, line.Sets := by
    intro info
    unfold printCollationDatabase
    split
    · apply hset List.not_mem_nil
      rw [List.forall_mem_singleton, collationText]
      split
      · decide
      · exact hdecimal _
    · exact List.forall_mem_nil _
  have huse : ∃ useDb : Option Text, ((printUse info ev).2.flatMap fun line =>
      textLine line.text) = match useDb with
        | none => []
        | some db => textLine ("use ".toList ++ quoteName db ++ "/*!*/;".toList) := by
    unfold printUse
    split
    · exact ⟨none, rfl⟩
    · split
      · exact ⟨none, rfl⟩
      · next db _ =>
        dsimp only
        split
        · exact ⟨some db, List.append_nil _⟩
        · exact ⟨none, rfl⟩
  obtain ⟨useDb, huse⟩ := huse
  unfold printQueryHeaderOf printSession
  dsimp only
  simp only [List.append_assoc]
  rw [List.flatMap_append, huse]
  obtain ⟨settings, hsettings⟩ := exists_settings (List.forall_mem_append.mpr ⟨htime,
    List.forall_mem_append.mpr ⟨hthread _, List.forall_mem_append.mpr ⟨hflags _,
      List.forall_mem_append.mpr ⟨hmode _, List.forall_mem_append.mpr ⟨hincrement _,
        List.forall_mem_append.mpr ⟨hcharset _, List.forall_mem_append.mpr ⟨htimeZone _,
          List.forall_mem_append.mpr ⟨hnames _, hcollation _⟩⟩⟩⟩⟩⟩⟩⟩)
  rw [hsettings]
  refine ⟨⟨"\tQuery\tthread_id=".toList ++ (decimal ev.threadId ++ ("\texec_time=".toList ++
    (decimal ev.execTime ++ ("\terror_code=".toList ++ decimal ev.errorCode)))), ?_⟩,
    useDb, settings, ?_⟩
  · simp only [List.mem_append, not_or]
    exact ⟨by decide, hdecimal _, by decide, hdecimal _, by decide, hdecimal _⟩
  · unfold printQueryHeader
    cases useDb <;> simp only [List.append_assoc]

end Text

end BinlogCapture
