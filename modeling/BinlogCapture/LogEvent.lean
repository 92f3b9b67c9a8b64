import BinlogCapture.LineHandler
import BinlogCapture.Lib.LineFeed

/-! The events of a binlog, and what `process_event` prints of them: the markers, and the text of
the print functions of the events under the options of the capture (`--verbose`,
`--base64-output=DECODE-ROWS`, row counts and row event positions). -/
namespace BinlogCapture
open CString LineFeed

/-- A text without line feed. -/
structure Line where
  text : Text
  line : '\n' ∉ text
  deriving DecidableEq, Repr

/-- A line that sets a session variable. -/
structure Setting extends Line where
  setting : "SET ".toList <+: text ∨ "/*!".toList <+: text
  deriving DecidableEq, Repr

/-- What `print_header` prints behind its first `#`: the time, the server, the end position. -/
structure Header extends Line where
  comment : text.head?.any (· ≠ '#') = true
  deriving DecidableEq, Repr

/-- A column of a row image, with its value as `log_event_print_value` writes it. -/
structure Cell where
  column : ℕ
  value : Line
  deriving DecidableEq, Repr

inductive RowsType where
  | write | delete | update
  deriving DecidableEq, Repr

/-- The images of a row. The second is printed for an update only. -/
structure Row where
  image1 : List Cell
  image2 : List Cell
  deriving DecidableEq, Repr

structure RowsEvent where
  type : RowsType
  /-- One of the old `PRE_GA` events, whose rows are not decoded. -/
  preGa : Bool
  tableId : ℕ
  stmtEnd : Bool
  extra : Option Line
  rows : List Row
  deriving DecidableEq, Repr

inductive EventData where
  /-- `useDb` is the database of a `use` line, when it is not the current one. -/
  | query (summary : Line) (useDb : Option Text) (settings : List Setting) (query : Text)
  | xid (xid : ℕ)
  | gtid (seqNo : ℕ) (summary : Line) (settings : List Setting) (standalone : Bool)
  | annotateRows (queryTxt : Text)
  | tableMap (tableId : ℕ) (dbnam tblnam : Text) (hasTriggers : Bool)
  | rows (e : RowsEvent)
  | formatDescription (lines : List Line)
  | rotate (newLogIdent : Text) (lines : List Line)
  /-- Events of the other types are printed, or not at all, without a marker. -/
  | other (lines : List Line)
  deriving DecidableEq, Repr

structure LogEvent where
  when : ℤ
  logPos : ℕ
  skipReplication : Bool
  header : Header
  data : EventData
  deriving DecidableEq, Repr

def LogEvent.isFormatDescription (ev : LogEvent) : Bool :=
  match ev.data with
  | .formatDescription _ => true
  | _ => false

/-- `PRINT_EVENT_INFO` with its caches, and the annotate event that is kept. -/
structure PrintInfo where
  headCache : Text := []
  bodyCache : Text := []
  mTableMap : List (ℕ × Text × Text) := []
  rowEvents : ℕ := 0
  foundRowEvent : Bool := false
  skipReplication : Bool := false
  annotateEvent : Option (Header × Text) := none
  deriving DecidableEq, Repr

inductive ExitStatus where
  | okContinue | okStop | okEof | errorStop
  deriving DecidableEq, Repr

/-- The outcome of printing one or more events: `events` are those that were printed, each with the
position that was given to `process_event`. -/
structure Printed where
  status : ExitStatus
  info : PrintInfo
  text : Text
  events : List (ℕ × LogEvent)
  deriving DecidableEq, Repr

def textLine (t : Text) : Text := t ++ ['\n']

def printLines (ls : List Line) : Text := ls.flatMap fun l => textLine l.text

def printHeader (h : Header) : Text := '#' :: h.text

/-- The format `` %` `` for identifiers. -/
def quoteName (name : Text) : Text :=
  '`' :: name.flatMap (fun c => if c = '`' then ['`', '`'] else [c]) ++ ['`']

def qualified (db table : Text) : Text := quoteName db ++ '.' :: quoteName table

/-- The counter of the loops over the statement is one ahead for each line that has ended. -/
def annotateLines (queryLen : ℕ) : ℕ → Option Text → Text → List Text
  | _, none, [] => []
  | _, some l, [] => [l]
  | cnt, none, c :: t =>
    if cnt + 1 > queryLen then []
    else if c = '\r' ∨ c = '\n' then annotateLines queryLen (cnt + 1) none t
    else annotateLines queryLen (cnt + 1) (some [c]) t
  | cnt, some l, c :: t =>
    if cnt + 1 ≤ queryLen ∧ c ≠ '\r' ∧ c ≠ '\n' then
      annotateLines queryLen (cnt + 1) (some (l ++ [c])) t
    else if cnt + 2 > queryLen then [l]
    else l :: annotateLines queryLen (cnt + 2) none t

def printAnnotate (h : Header) (queryTxt : Text) : Text :=
  textLine (printHeader h ++ "\tAnnotate_rows:".toList) ++
    (annotateLines queryTxt.length 0 none queryTxt).flatMap fun l => textLine ("#Q> ".toList ++ l)

/-- `print_verbose_one_row` -/
def printImage (clause : Text) (cells : List Cell) : Text :=
  textLine clause ++ cells.flatMap fun c =>
    textLine ("###   @".toList ++ decimal c.column ++ '=' :: c.value.text)

def sqlCommand : RowsType → Text
  | .write => "INSERT INTO".toList
  | .delete => "DELETE FROM".toList
  | .update => "UPDATE".toList

def printRow (type : RowsType) (name : Text) (row : Row) : Text :=
  textLine ("### ".toList ++ sqlCommand type ++ ' ' :: name) ++
    match type with
    | .write => printImage "### SET".toList row.image1
    | .delete => printImage "### WHERE".toList row.image1
    | .update =>
      printImage "### WHERE".toList row.image1 ++ printImage "### SET".toList row.image2

/-- `Rows_log_event::print_verbose`, and the number of rows it counts. For an unknown table it
leaves its line unfinished. -/
def printVerbose (tables : List (ℕ × Text × Text)) (e : RowsEvent) : Text × ℕ :=
  let extra := match e.extra with
    | none => []
    | some l => textLine ("### Extra row data format: ".toList ++ l.text)
  match tables.lookup e.tableId with
  | none => (extra ++ ("### Row event for unknown table #".toList ++ decimal e.tableId), 0)
  | some (db, table) =>
    if e.type = .write ∧ e.rows = [] then
      (extra ++
        textLine ("### INSERT INTO ".toList ++ qualified db table ++ " VALUES ()".toList), 0)
    else (extra ++ e.rows.flatMap (printRow e.type (qualified db table)), e.rows.length)

def rowsTypeName (e : RowsEvent) : Text :=
  (match e.type with
    | .write => "Write_rows".toList
    | .delete => "Delete_rows".toList
    | .update => "Update_rows".toList) ++
    if e.preGa then "_old".toList else []

def rowsSummary (h : Header) (e : RowsEvent) : Text :=
  textLine (printHeader h ++ ('\t' :: rowsTypeName e ++ ": table id ".toList ++ decimal e.tableId ++
    if e.stmtEnd && !e.preGa then " flags: STMT_END_F".toList else []))

def tableMapSummary (h : Header) (tableId : ℕ) (db table : Text) (hasTriggers : Bool) : Text :=
  textLine (printHeader h ++ "\tTable_map: ".toList ++ qualified db table ++
    (" mapped to number ".toList ++ decimal tableId ++
      if hasTriggers then " (has triggers)".toList else []))

def delimiterLine : Text := textLine "/*!*/;".toList

def printSettings (settings : List Setting) : Text := printLines (settings.map Setting.toLine)

/-- `print_query_header` -/
def printQueryHeader (h : Header) (summary : Line) (useDb : Option Text)
    (settings : List Setting) : Text :=
  textLine (printHeader h ++ summary.text) ++
    (match useDb with
      | none => []
      | some db => textLine ("use ".toList ++ quoteName db ++ "/*!*/;".toList)) ++
    printSettings settings

def printGtid (h : Header) (summary : Line) (settings : List Setting) (standalone : Bool) : Text :=
  textLine (printHeader h ++ "\tGTID ".toList ++ summary.text) ++ printSettings settings ++
    if standalone then [] else textLine "BEGIN".toList ++ delimiterLine

def printXid (h : Header) (xid : ℕ) : Text :=
  textLine (printHeader h ++ "\tXid = ".toList ++ decimal xid) ++ textLine "COMMIT/*!*/;".toList

/-- The start and end position of a marker behind its tag. -/
def markerPositions (pos logPos : ℕ) : Text := decimal pos ++ '!' :: decimal logPos ++ ['!']

def queryMarker (pos logPos : ℕ) (query : Text) (ulIndex : ℕ) : Text :=
  textLine (queryTag ++ (markerPositions pos logPos ++ (query ++ '!' :: decimal ulIndex ++ ['!'])))

def stmtMarker (pos logPos ulIndex : ℕ) : Text :=
  textLine (stmtTag ++ (markerPositions pos logPos ++ (decimal ulIndex ++ "!*".toList)))

def commitMarker (pos logPos xid ulIndex : ℕ) : Text :=
  textLine (commitTag ++ (markerPositions pos logPos ++
    (decimal xid ++ '!' :: (decimal ulIndex ++ "!*".toList))))

def beginMarker (pos logPos seqNo : ℕ) : Text :=
  textLine (beginTag ++ (markerPositions pos logPos ++ (decimal seqNo ++ "!*".toList)))

def printAt (pos : ℕ) : Text := textLine ("# at ".toList ++ decimal pos)

/-- `print_skip_replication_statement` -/
def printSkipReplication (info : PrintInfo) (ev : LogEvent) : Text :=
  if ev.skipReplication = info.skipReplication then []
  else textLine ("/*!50521 SET skip_replication=".toList ++
    (if ev.skipReplication then ['1'] else ['0']) ++ "*//*!*/;".toList)

/-- `print_row_event`: rows are collected in the caches up to the end of the statement. -/
def printRowEvent (info : PrintInfo) (h : Header) (e : RowsEvent) : PrintInfo × Text :=
  let (verbose, rows) := if e.preGa then ([], 0) else printVerbose info.mTableMap e
  let head := info.headCache ++ rowsSummary h e
  let body := info.bodyCache ++ verbose
  let rowEvents := info.rowEvents + rows
  if e.stmtEnd then
    ({ info with headCache := [], bodyCache := [], rowEvents := 0, annotateEvent := none },
      head ++ body ++ textLine ("# Number of rows: ".toList ++ decimal rowEvents))
  else ({ info with headCache := head, bodyCache := body, rowEvents := rowEvents }, [])

/-- The marker that `process_event` prints for the event at `pos`. -/
def LogEvent.marker (ev : LogEvent) (pos ulIndex : ℕ) : Option Text :=
  match ev.data with
  | .query _ _ _ query => some (queryMarker pos ev.logPos query ulIndex)
  | .xid xid => some (commitMarker pos ev.logPos xid ulIndex)
  | .gtid seqNo _ _ _ => some (beginMarker pos ev.logPos seqNo)
  | .rows e => if e.stmtEnd then some (stmtMarker pos ev.logPos ulIndex) else none
  | _ => none

/-- What the event prints in front of its marker. -/
def printBefore (info : PrintInfo) (ev : LogEvent) : PrintInfo × Text :=
  match ev.data with
  | .annotateRows _ | .tableMap _ _ _ _ | .formatDescription _ => (info, [])
  | .rows e =>
    if e.preGa || info.foundRowEvent then (info, [])
    else ({ info with foundRowEvent := true, rowEvents := 0 }, [])
  | _ => ({ info with skipReplication := ev.skipReplication }, printSkipReplication info ev)

/-- What `ev->print` and its callers print behind the marker. `Write_on_release_cache` drops what is
left in the cache; only a table map and the rows write on behind it. -/
def printAfter (info : PrintInfo) (ev : LogEvent) : PrintInfo × Text :=
  match ev.data with
  | .query summary useDb settings query =>
    ({ info with headCache := [] },
      printQueryHeader ev.header summary useDb settings ++ (textLine query ++ delimiterLine))
  | .xid xid => ({ info with headCache := [] }, printXid ev.header xid)
  | .gtid _ summary settings standalone =>
    ({ info with headCache := [] }, printGtid ev.header summary settings standalone)
  | .annotateRows queryTxt => ({ info with annotateEvent := some (ev.header, queryTxt) }, [])
  | .tableMap tableId db table hasTriggers =>
    ({ info with
        headCache := []
        annotateEvent := none
        mTableMap := (tableId, db, table) :: info.mTableMap },
      info.headCache ++
        (match info.annotateEvent with
          | none => []
          | some (h, queryTxt) => printAnnotate h queryTxt) ++
        tableMapSummary ev.header tableId db table hasTriggers)
  | .rows e =>
    let (info, text) := printRowEvent info ev.header e
    ({ info with foundRowEvent := info.foundRowEvent && (e.preGa || !e.stmtEnd) }, text)
  | .formatDescription lines | .rotate _ lines | .other lines =>
    ({ info with headCache := [] }, printLines lines)

/-- `stop_datetime`: the largest value of the 32-bit `long` that `my_time_t` is. -/
def stopDatetime : ℤ := 2 ^ 31 - 1

/-- `stop_position` without the option. -/
def stopPosition : ℕ := 2 ^ 64 - 1

/-- What `process_event` prints of an event that it does not pass over. -/
def printEvent (ulIndex : ℕ) (info : PrintInfo) (pos : ℕ) (ev : LogEvent) : PrintInfo × Text :=
  let (info, before) := printBefore info ev
  let (info, after) := printAfter info ev
  (info, printAt pos ++ before ++ (ev.marker pos ulIndex).getD [] ++ after)

/-- `process_event`, where `start_datetime` and `offset` are 0. -/
def processEvent (ulIndex : ℕ) (info : PrintInfo) (ev : LogEvent) (pos : ℕ) : Printed :=
  if 0 ≤ ev.when ∨ ev.isFormatDescription then
    if ev.when ≥ stopDatetime ∨ pos ≥ stopPosition then ⟨.okStop, info, [], []⟩
    else
      let (info, text) := printEvent ulIndex info pos ev
      ⟨.okContinue, info, text, [(pos, ev)]⟩
  else ⟨.okContinue, info, [], []⟩

end BinlogCapture
