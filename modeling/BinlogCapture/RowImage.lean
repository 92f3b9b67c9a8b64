import BinlogCapture.Temporal
import BinlogCapture.LogEvent

/-! The bytes of a rows event, and how they are printed: the size of a field, the text of a value,
the images of a row, the rows of the event. -/
namespace BinlogCapture
open Bytes CString

/-- The bytes from the first one of the rows on, also those behind the rows. -/
abbrev Memory := ℕ → UInt8

def bytesAt (mem : Memory) (p n : ℕ) : List UInt8 := (List.range n).map fun i => mem (p + i)

/-- `uint2korr`, `uint3korr`, `uint4korr`, `uint8korr` -/
def uintKorr (w : ℕ) (mem : Memory) (p : ℕ) : ℕ := little (bytesAt mem p w)

/-- `sint2korr`, `sint3korr`, `sint4korr`, `sint8korr` -/
def sintKorr (w : ℕ) (mem : Memory) (p : ℕ) : ℤ := signed w (uintKorr w mem p)

/-- `enum_field_types` -/
inductive FieldType where
  | decimal | tiny | short | long | float | double | null | timestamp | longlong | int24 | date
  | time | datetime | year | newdate | varchar | bit | timestamp2 | datetime2 | time2
  | blobCompressed | varcharCompressed | newdecimal | enum | set | tinyBlob | mediumBlob | longBlob
  | blob | varString | string | geometry
  | other (code : ℕ)
  deriving DecidableEq, Repr

def FieldType.ofCode (code : ℕ) : FieldType :=
  match code with
  | 0 => .decimal | 1 => .tiny | 2 => .short | 3 => .long | 4 => .float | 5 => .double | 6 => .null
  | 7 => .timestamp | 8 => .longlong | 9 => .int24 | 10 => .date | 11 => .time | 12 => .datetime
  | 13 => .year | 14 => .newdate | 15 => .varchar | 16 => .bit | 17 => .timestamp2
  | 18 => .datetime2 | 19 => .time2 | 140 => .blobCompressed | 141 => .varcharCompressed
  | 246 => .newdecimal | 247 => .enum | 248 => .set | 249 => .tinyBlob | 250 => .mediumBlob
  | 251 => .longBlob | 252 => .blob | 253 => .varString | 254 => .string | 255 => .geometry
  | code => .other code

/-- A column of a `table_def`: its type in the binlog and its metadata. -/
structure Column where
  binlogType : FieldType
  metadata : ℕ
  deriving DecidableEq, Repr

/-- `table_def::type` -/
def Column.type (c : Column) : FieldType :=
  match c.binlogType with
  | .string =>
    match FieldType.ofCode (c.metadata / 2 ^ 8) with
    | .enum => .enum
    | .set => .set
    | _ => .string
  | .date => .newdate
  | type => type

/-- `dig2bytes` -/
def dig2bytes (digits : ℕ) : ℕ := [0, 1, 1, 2, 2, 3, 3, 4, 4, 4].getD digits 0

/-- `my_decimal_get_binary_size`, which asserts `scale ≤ precision`. -/
def decimalBinarySize (precision scale : ℕ) : ℕ :=
  let intg := precision - scale
  intg / 9 * 4 + dig2bytes (intg % 9) + (scale / 9 * 4 + dig2bytes (scale % 9))

/-- `table_def::calc_field_size`, a 32-bit number. -/
def calcFieldSize (mem : Memory) (c : Column) (masterData : ℕ) : ℕ :=
  match c.type with
  | .newdecimal => decimalBinarySize (c.metadata / 2 ^ 8) (c.metadata % 2 ^ 8)
  | .decimal | .float | .double => c.metadata
  | .set | .enum | .string =>
    match FieldType.ofCode (c.metadata / 2 ^ 8) with
    | .set | .enum => c.metadata % 2 ^ 8
    | _ => uintKorr 1 mem masterData + 1
  | .year | .tiny => 1
  | .short => 2
  | .int24 | .newdate | .date | .time => 3
  | .long | .timestamp => 4
  | .longlong | .datetime => 8
  | .null => 0
  | .time2 => timeBinaryLength c.metadata
  | .timestamp2 => timestampBinaryLength c.metadata
  | .datetime2 => datetimeBinaryLength c.metadata
  | .bit => c.metadata / 2 ^ 8 % 2 ^ 8 + if 0 < c.metadata % 2 ^ 8 then 1 else 0
  | .varchar | .varcharCompressed =>
    if c.metadata > 255 then 2 + uintKorr 2 mem masterData else 1 + uintKorr 1 mem masterData
  | .tinyBlob | .mediumBlob | .longBlob | .blob | .blobCompressed | .geometry =>
    if 1 ≤ c.metadata ∧ c.metadata ≤ 4 then
      (uintKorr c.metadata mem masterData + c.metadata) % 2 ^ 32
    else c.metadata
  | .varString | .other _ => 2 ^ 32 - 1

/-- A byte as a quoted string shows it. The test of the control characters comes first. -/
def quoteByte (s : UInt8) : Text :=
  if 0x1F < s.toNat then [Char.ofNat s.toNat]
  else if s.toNat = '\''.toNat then ['\\', '\'']
  else if s.toNat = '\\'.toNat then ['\\', '\\']
  else ['\\', 'x', Nat.digitChar (s.toNat / 16), Nat.digitChar (s.toNat % 16)]

/-- `my_b_write_quoted` -/
def writeQuoted (bs : List UInt8) : Text := '\'' :: bs.flatMap quoteByte ++ ['\'']

/-- `my_b_write_bit` -/
def writeBit (bs : List UInt8) (nbits : ℕ) : Text :=
  let nbits8 := (nbits + 7) / 8 * 8
  "b'".toList ++
    (List.range' (nbits8 - nbits) nbits).map (fun bitnum =>
      if (bs.getD (bitnum / 8) 0).toNat.testBit (7 - bitnum % 8) then '1' else '0') ++ ['\'']

def printInt (n : ℤ) : Text := if n < 0 then '-' :: decimal n.natAbs else decimal n.natAbs

/-- `%0wd` -/
def printPadded (w : ℕ) (n : ℤ) : Text := List.leftpad w '0' (printInt n)

/-- `my_b_write_sint32_and_uint32`, also for 64 bits. -/
def writeSintAndUint (si : ℤ) (ui : ℕ) : Text :=
  printInt si ++ if si < 0 then " (".toList ++ decimal ui ++ [')'] else []

/-- The texts of numbers that are printed through floating point or `decimal2string`. -/
structure Formats where
  float : List UInt8 → Line
  double : List UInt8 → Line
  newdecimal : ℕ → ℕ → List UInt8 → Line

/-- For rows without such numbers. -/
def noFormats : Formats :=
  ⟨fun _ => ⟨[], List.not_mem_nil⟩, fun _ => ⟨[], List.not_mem_nil⟩,
    fun _ _ _ => ⟨[], List.not_mem_nil⟩⟩

/-- A length field of `w` bytes with that many bytes behind it. The sum is a 32-bit number. -/
def printCounted (w : ℕ) (mem : Memory) (ptr : ℕ) : Text × ℕ :=
  let length := uintKorr w mem ptr
  (writeQuoted (bytesAt mem (ptr + w) length), (length + w) % 2 ^ 32)

/-- `my_b_write_quoted_with_length` -/
def writeQuotedWithLength (mem : Memory) (ptr length : ℕ) : Text × ℕ :=
  if length < 256 then printCounted 1 mem ptr else printCounted 2 mem ptr

/-- The type and length in the metadata of a `STRING`. -/
def stringType (type : FieldType) (metadata : ℕ) : FieldType × ℕ :=
  if type = .string then
    if 256 ≤ metadata then
      let byte0 := metadata / 2 ^ 8
      let byte1 := metadata % 2 ^ 8
      if byte0 &&& 0x30 ≠ 0x30 then
        (.ofCode (byte0 ||| 0x30), byte1 ||| ((byte0 &&& 0x30) ^^^ 0x30) <<< 4)
      else (type, byte1)
    else (type, metadata)
  else (type, 0)

/-- The end of a case of the switch: `NULL` is printed when there is no value. -/
def orNull (ptr : Option ℕ) (print : ℕ → Text × ℕ) : Text × ℕ :=
  match ptr with
  | none => ("NULL".toList, 1)
  | some p => print p

def printInteger (w : ℕ) (mem : Memory) (p : ℕ) : Text × ℕ :=
  (writeSintAndUint (sintKorr w mem p) (uintKorr w mem p), w)

def printDatetime (i64 : ℕ) : Text :=
  let d := i64 / 1000000 % 2 ^ 32
  let t := i64 % 1000000
  '\'' :: (printPadded 4 (d / 10000 : ℕ) ++ '-' :: (printPadded 2 (d % 10000 / 100 : ℕ) ++ '-' ::
    (printPadded 2 (d % 100 : ℕ) ++ ' ' :: (printPadded 2 (t / 10000 : ℕ) ++ ':' ::
      (printPadded 2 (t % 10000 / 100 : ℕ) ++ ':' :: (printPadded 2 (t % 100 : ℕ) ++ ['\'']))))))

def printTime (tmp : ℤ) : Text :=
  let i32 := tmp.natAbs
  '\'' :: ((if tmp < 0 then ['-'] else []) ++ (printPadded 2 (i32 / 10000 : ℕ) ++ ':' ::
    (printPadded 2 (i32 % 10000 / 100 : ℕ) ++ ':' :: (printPadded 2 (i32 % 100 : ℕ) ++ ['\'']))))

/-- The first digit of the year is not reduced. -/
def printNewdate (tmp : ℕ) : Text :=
  let year := tmp / 2 ^ 9
  '\'' :: Char.ofNat ('0'.toNat + year / 1000) :: (fmtNumber year 3 ++ ':' ::
    (fmtNumber (tmp / 2 ^ 5 % 2 ^ 4) 2 ++ ':' :: (fmtNumber (tmp % 2 ^ 5) 2 ++ ['\''])))

def printDate (i32 : ℕ) : Text :=
  '\'' :: (printPadded 4 (i32 / 512 : ℕ) ++ ':' :: (printPadded 2 (i32 / 32 % 16 : ℕ) ++ ':' ::
    (printPadded 2 (i32 % 32 : ℕ) ++ ['\''])))

def bytesOf (t : Text) : List UInt8 := t.map fun c => UInt8.ofNat c.toNat

/-- The switch of `log_event_print_value`. -/
def printOfType (formats : Formats) (mem : Memory) (ptr : Option ℕ) (type : FieldType)
    (metadata length : ℕ) : Text × ℕ :=
  match type with
  | .long => orNull ptr (printInteger 4 mem)
  | .tiny => orNull ptr (printInteger 1 mem)
  | .short => orNull ptr (printInteger 2 mem)
  | .int24 => orNull ptr (printInteger 3 mem)
  | .longlong => orNull ptr (printInteger 8 mem)
  | .newdecimal => orNull ptr fun p =>
      let size := decimalBinarySize (metadata / 2 ^ 8) (metadata % 2 ^ 8)
      ((formats.newdecimal (metadata / 2 ^ 8) (metadata % 2 ^ 8) (bytesAt mem p size)).text, size)
  | .float => orNull ptr fun p => ((formats.float (bytesAt mem p 4)).text, 4)
  | .double => orNull ptr fun p => ((formats.double (bytesAt mem p 8)).text, 8)
  | .bit => orNull ptr fun p =>
      let nbits := metadata / 2 ^ 8 * 8 + metadata % 2 ^ 8
      (writeBit (bytesAt mem p ((nbits + 7) / 8)) nbits, (nbits + 7) / 8)
  | .timestamp => orNull ptr fun p => (printInt (sintKorr 4 mem p), 4)
  | .timestamp2 => orNull ptr fun p =>
      let size := timestampBinaryLength metadata
      (timevalToStr (timestampFromBinary (bytesAt mem p size) metadata) metadata, size)
  | .datetime => orNull ptr fun p => (printDatetime (uintKorr 8 mem p), 8)
  | .datetime2 => orNull ptr fun p =>
      let size := datetimeBinaryLength metadata
      let packed := datetimePackedFromBinary (bytesAt mem p size) metadata
      (writeQuoted (bytesOf (datetimeToStr (datetimeFromPacked packed) metadata)), size)
  | .time => orNull ptr fun p => (printTime (sintKorr 3 mem p), 3)
  | .time2 => orNull ptr fun p =>
      let size := timeBinaryLength metadata
      let packed := timePackedFromBinary (bytesAt mem p size) metadata
      (writeQuoted (bytesOf (timeToStr (timeFromPacked packed) metadata)), size)
  | .newdate => orNull ptr fun p => (printNewdate (uintKorr 3 mem p), 3)
  | .date => orNull ptr fun p => (printDate (uintKorr 3 mem p), 3)
  | .year => orNull ptr fun p => (printPadded 4 (uintKorr 1 mem p + 1900 : ℕ), 1)
  | .enum =>
    if metadata % 2 ^ 8 = 1 ∨ metadata % 2 ^ 8 = 2 then
      orNull ptr fun p =>
        (printInt (uintKorr (metadata % 2 ^ 8) mem p), metadata % 2 ^ 8)
    else ("!! Unknown ENUM packlen=".toList ++ decimal (metadata % 2 ^ 8), 0)
  | .set => orNull ptr fun p =>
      (writeBit (bytesAt mem p (metadata % 2 ^ 8)) (metadata % 2 ^ 8 * 8), metadata % 2 ^ 8)
  | .blob =>
    if 1 ≤ metadata ∧ metadata ≤ 4 then orNull ptr (printCounted metadata mem)
    else ("!! Unknown BLOB packlen=".toList ++ decimal length, 0)
  | .varchar | .varString => orNull ptr fun p => writeQuotedWithLength mem p metadata
  | .string => orNull ptr fun p => writeQuotedWithLength mem p length
  | _ => ([], 0)

/-- `log_event_print_value`: the text of a value and the number of its bytes, 0 for an error. -/
def logEventPrintValue (formats : Formats) (mem : Memory) (ptr : Option ℕ) (type : FieldType)
    (metadata : ℕ) : Text × ℕ :=
  printOfType formats mem ptr (stringType type metadata).1 metadata (stringType type metadata).2

def columnText (i : ℕ) : Text := "###   @".toList ++ decimal (i + 1) ++ ['=']

def corruptedText : Text :=
  "***Corrupted replication event was detected. Not printing the value***".toList

/-- The pointer to the value of a column, null when its null bit is set. -/
def fieldPtr (mem : Memory) (nullBits nullBitIndex value : ℕ) : Option ℕ :=
  if (mem (nullBits + nullBitIndex / 8)).toNat.testBit (nullBitIndex % 8) then none else some value

/-- The loop of `print_verbose_one_row` from column `i` on, with the length of the image, 0 for an
error. -/
def printColumns (formats : Formats) (mem : Memory) (rowsEnd : ℕ) (cols : List Bool)
    (value0 : ℕ) : List Column → ℕ → ℕ → ℕ → Text × ℕ
  | [], _, _, value => ([], value - value0)
  | c :: td, i, nullBitIndex, value =>
    let ptr := fieldPtr mem value0 nullBitIndex value
    let printed := logEventPrintValue formats mem ptr c.type c.metadata
    if cols.getD i false = false then
      printColumns formats mem rowsEnd cols value0 td (i + 1) nullBitIndex value
    else if ptr.any fun p => rowsEnd < p + calcFieldSize mem c p then
      (textLine (columnText i ++ corruptedText), 0)
    else if printed.2 = 0 then (columnText i ++ printed.1, 0)
    else
      let rest := printColumns formats mem rowsEnd cols value0 td (i + 1) (nullBitIndex + 1)
        (ptr.elim value (· + printed.2))
      (columnText i ++ printed.1 ++ '\n' :: rest.1, rest.2)

def bitmapBitsSet (cols : List Bool) : ℕ := cols.count true

/-- `print_verbose_one_row` with `verbose` 1. -/
def printVerboseOneRow (formats : Formats) (mem : Memory) (rowsEnd : ℕ) (td : List Column)
    (cols : List Bool) (value : ℕ) (clause : Text) : Text × ℕ :=
  let printed := printColumns formats mem rowsEnd cols value td 0 0
    (value + (bitmapBitsSet cols + 7) / 8)
  (textLine clause ++ printed.1, printed.2)

/-- `Table_map_log_event` -/
structure TableDef where
  db : Text
  table : Text
  columns : List Column
  deriving DecidableEq, Repr

/-- `Rows_log_event`, with the columns of the first and of the second image. -/
structure RowsData where
  type : RowsType
  tableId : ℕ
  extraRowData : Option (List UInt8)
  cols : List Bool
  colsAi : List Bool

/-- What a rows event is printed as, the rows that are counted, and whether it fails. -/
structure PrintedRows where
  text : Text
  rowEvents : ℕ
  err : Bool
  deriving DecidableEq, Repr

def hexByteUpper (b : UInt8) : Text :=
  [(Nat.digitChar (b.toNat / 16)).toUpper, (Nat.digitChar (b.toNat % 16)).toUpper]

/-- What the line for the extra row data says behind its first words. -/
def extraRowText (extra : List UInt8) : Text :=
  let payload := (extra.getD 0 0 - 2).toNat
  decimal (extra.getD 1 0).toNat ++ ", len: ".toList ++ decimal payload ++ " :".toList ++
    if payload = 0 then []
    else "X'".toList ++ ((extra.drop 2).take payload).flatMap hexByteUpper ++ ['\'']

def extraRowLine (e : RowsData) : Text :=
  e.extraRowData.elim [] fun extra =>
    textLine ("### Extra row data format: ".toList ++ extraRowText extra)

def sqlClause1 : RowsType → Text
  | .write => "### SET".toList
  | .delete | .update => "### WHERE".toList

/-- The images of one row, with their length, 0 for an error. -/
def printRowImages (formats : Formats) (mem : Memory) (rowsEnd : ℕ) (td : List Column)
    (e : RowsData) (value : ℕ) : Text × ℕ :=
  let image1 := printVerboseOneRow formats mem rowsEnd td e.cols value (sqlClause1 e.type)
  let image2 := printVerboseOneRow formats mem rowsEnd td e.colsAi (value + image1.2)
    "### SET".toList
  if image1.2 = 0 then image1
  else if e.type = .update then
    (image1.1 ++ image2.1, if image2.2 = 0 then 0 else image1.2 + image2.2)
  else image1

/-- The loop of `print_verbose` over the rows. -/
def printRows (formats : Formats) (mem : Memory) (rowsEnd : ℕ) (td : List Column) (e : RowsData)
    (name : Text) (value : ℕ) : PrintedRows :=
  if value < rowsEnd then
    let start := textLine ("### ".toList ++ sqlCommand e.type ++ ' ' :: name)
    let images := printRowImages formats mem rowsEnd td e value
    if images.2 = 0 then ⟨start ++ images.1, 1, true⟩
    else
      let rest := printRows formats mem rowsEnd td e name (value + images.2)
      ⟨start ++ images.1 ++ rest.text, rest.rowEvents + 1, rest.err⟩
  else ⟨[], 0, false⟩
termination_by rowsEnd - value
decreasing_by
  have hlength : images.2 ≠ 0 := by assumption
  change rowsEnd - (value + images.2) < _
  omega

/-- `Rows_log_event::print_verbose` -/
def printVerboseRows (formats : Formats) (mem : Memory) (rowsEnd : ℕ)
    (tables : List (ℕ × TableDef)) (e : RowsData) : PrintedRows :=
  match tables.lookup e.tableId with
  | none =>
    ⟨extraRowLine e ++ ("### Row event for unknown table #".toList ++ decimal e.tableId), 0, false⟩
  | some map =>
    let name := qualified map.db map.table
    if e.type = .write ∧ rowsEnd = 0 then
      ⟨extraRowLine e ++ textLine ("### INSERT INTO ".toList ++ name ++ " VALUES ()".toList), 0,
        false⟩
    else
      let rows := printRows formats mem rowsEnd map.columns e name 0
      ⟨extraRowLine e ++ rows.text, rows.rowEvents, rows.err⟩

section Memory
variable (mem : Memory)

@[simp] theorem length_bytesAt (p n : ℕ) : (bytesAt mem p n).length = n := by simp [bytesAt]

theorem bytesAt_append (p m n : ℕ) :
    bytesAt mem p (m + n) = bytesAt mem p m ++ bytesAt mem (p + m) n := by
  simp [bytesAt, List.range_add, Nat.add_assoc]

theorem uintKorr_lt (w p : ℕ) : uintKorr w mem p < 256 ^ w := by
  simpa [uintKorr] using little_lt (bytesAt mem p w)

/-- The bytes `bs` stand at `p`. -/
def HoldsAt (p : ℕ) (bs : List UInt8) : Prop := bytesAt mem p bs.length = bs

variable {mem}

theorem holdsAt_append {p : ℕ} {as bs : List UInt8} :
    HoldsAt mem p (as ++ bs) ↔ HoldsAt mem p as ∧ HoldsAt mem (p + as.length) bs := by
  simp only [HoldsAt, List.length_append, bytesAt_append]
  constructor
  · intro h
    exact List.append_inj h (by simp)
  · rintro ⟨ha, hb⟩
    rw [ha, hb]

/-- The bytes of a packet, and nothing behind them. -/
def memoryOf (bs : List UInt8) : Memory := fun p => bs.getD p 0

theorem holdsAt_memoryOf (bs : List UInt8) : HoldsAt (memoryOf bs) 0 bs := by
  apply List.ext_getElem
  · simp [bytesAt]
  · intro i h₁ h₂
    simp [bytesAt, memoryOf, h₂]

theorem HoldsAt.bytesAt_eq {p n : ℕ} {bs : List UInt8} (h : HoldsAt mem p bs) (hn : n = bs.length) :
    bytesAt mem p n = bs := by
  rw [hn]
  exact h

theorem HoldsAt.uintKorr_eq {p w n : ℕ} (h : HoldsAt mem p (storeLittle w n)) (hn : n < 256 ^ w) :
    uintKorr w mem p = n := by
  rw [uintKorr, h.bytesAt_eq (by simp), little_store hn]

theorem HoldsAt.sintKorr_eq {p w : ℕ} {n : ℤ} (h : HoldsAt mem p (storeLittle w n))
    (hlow : -(256 ^ w) ≤ 2 * n) (hhigh : 2 * n < 256 ^ w) : sintKorr w mem p = n := by
  rw [sintKorr, uintKorr, h.bytesAt_eq (by simp), signed_little_store hlow hhigh]

end Memory

theorem calcFieldSize_string (mem : Memory) {c : Column} (h : c.type = .string) (p : ℕ) :
    calcFieldSize mem c p = uintKorr 1 mem p + 1 := by
  have hreal : FieldType.ofCode (c.metadata / 2 ^ 8) ≠ .enum ∧
      FieldType.ofCode (c.metadata / 2 ^ 8) ≠ .set := by
    unfold Column.type at h
    split at h
    · split at h
      · cases h
      · cases h
      · next henum hset => exact ⟨henum, hset⟩
    · cases h
    · next hstring _ => exact absurd h hstring
  unfold calcFieldSize
  rw [h]
  dsimp only
  split
  · next hset => exact absurd hset hreal.2
  · next henum => exact absurd henum hreal.1
  · rfl

section Steps
variable (formats : Formats) {mem : Memory} {rowsEnd : ℕ} {cols : List Bool}
  {value0 i k value : ℕ} {c : Column} {td : List Column}

theorem printColumns_skip (hi : cols.getD i false = false) :
    printColumns formats mem rowsEnd cols value0 (c :: td) i k value =
      printColumns formats mem rowsEnd cols value0 td (i + 1) k value := by
  rw [printColumns]
  exact if_pos hi

theorem printColumns_null (hi : cols.getD i false = true)
    (hptr : fieldPtr mem value0 k value = none) :
    printColumns formats mem rowsEnd cols value0 (c :: td) i k value =
      let printed := logEventPrintValue formats mem none c.type c.metadata
      let rest := printColumns formats mem rowsEnd cols value0 td (i + 1) (k + 1) value
      if printed.2 = 0 then (columnText i ++ printed.1, 0)
      else (columnText i ++ printed.1 ++ '\n' :: rest.1, rest.2) := by
  rw [printColumns]
  simp only [hptr, hi, Bool.true_eq_false, if_false, Option.any_none, Bool.false_eq_true,
    Option.elim_none]

theorem printColumns_value (hi : cols.getD i false = true) {p : ℕ}
    (hptr : fieldPtr mem value0 k value = some p) :
    printColumns formats mem rowsEnd cols value0 (c :: td) i k value =
      let printed := logEventPrintValue formats mem (some p) c.type c.metadata
      let rest := printColumns formats mem rowsEnd cols value0 td (i + 1) (k + 1) (p + printed.2)
      if rowsEnd < p + calcFieldSize mem c p then (textLine (columnText i ++ corruptedText), 0)
      else if printed.2 = 0 then (columnText i ++ printed.1, 0)
      else (columnText i ++ printed.1 ++ '\n' :: rest.1, rest.2) := by
  rw [printColumns]
  simp only [hptr, hi, Bool.true_eq_false, if_false, Option.any_some, decide_eq_true_eq,
    Option.elim_some]

end Steps

section Line

theorem not_mem_append {s t : Text} (hs : '\n' ∉ s) (ht : '\n' ∉ t) : '\n' ∉ s ++ t := by
  simp [hs, ht]

theorem ofNat_ne_lineFeed {n : ℕ} (h : n ≠ 10) : Char.ofNat n ≠ '\n' := by
  intro hc
  by_cases hvalid : n.isValidChar
  · rw [Char.ofNat, dif_pos hvalid] at hc
    exact h (congrArg Char.toNat hc)
  · rw [Char.ofNat, dif_neg hvalid] at hc
    exact absurd hc (by decide)

theorem quoteByte_line (b : UInt8) : '\n' ∉ quoteByte b := by
  have hb := b.toNat_lt
  have hdigit : ∀ n < 16, Nat.digitChar n ≠ '\n' := by decide
  unfold quoteByte
  split
  · have := ofNat_ne_lineFeed (n := b.toNat) (by omega)
    simpa using this.symm
  · split
    · decide
    · split
      · decide
      · have := hdigit (b.toNat / 16) (by omega)
        have := hdigit (b.toNat % 16) (by omega)
        simp_all [eq_comm]

theorem writeQuoted_line (bs : List UInt8) : '\n' ∉ writeQuoted bs := by
  have := quoteByte_line
  simp_all [writeQuoted]

theorem writeBit_line (bs : List UInt8) (nbits : ℕ) : '\n' ∉ writeBit bs nbits := by
  unfold writeBit
  simp only [List.mem_append, List.mem_map, not_or]
  refine ⟨⟨by decide, ?_⟩, by decide⟩
  rintro ⟨i, -, h⟩
  split at h <;> exact absurd h (by decide)

theorem decimal_line (n : ℕ) : '\n' ∉ decimal n := not_mem_decimal rfl n

theorem fmtNumber_line (v d : ℕ) : '\n' ∉ fmtNumber v d := not_mem_fmtNumber rfl v d

theorem printInt_line (n : ℤ) : '\n' ∉ printInt n := by
  have := decimal_line n.natAbs
  unfold printInt
  split <;> simp [this]

theorem printPadded_line (w : ℕ) (n : ℤ) : '\n' ∉ printPadded w n := by
  have := printInt_line n
  simp [printPadded, List.leftpad, this]

theorem writeSintAndUint_line (si : ℤ) (ui : ℕ) : '\n' ∉ writeSintAndUint si ui := by
  have := printInt_line si
  have := decimal_line ui
  unfold writeSintAndUint
  split <;> simp [*]

theorem printDatetime_line (n : ℕ) : '\n' ∉ printDatetime n := by
  have := printPadded_line
  simp_all [printDatetime]

theorem printTime_line (n : ℤ) : '\n' ∉ printTime n := by
  have := printPadded_line
  unfold printTime
  split <;> simp_all

theorem printDate_line (n : ℕ) : '\n' ∉ printDate n := by
  have := printPadded_line
  simp_all [printDate]

theorem printNewdate_line (n : ℕ) : '\n' ∉ printNewdate n := by
  have := fmtNumber_line
  have := ofNat_ne_lineFeed (n := '0'.toNat + n / 2 ^ 9 / 1000) (by simp; omega)
  simp_all [printNewdate, eq_comm]

theorem printFraction_line (v : ℤ) (d : ℕ) : '\n' ∉ printFraction v d := by
  have := fmtNumber_line
  unfold printFraction
  split <;> simp_all

theorem timevalToStr_line (tm : Timeval) (d : ℕ) : '\n' ∉ timevalToStr tm d :=
  not_mem_append (decimal_line _) (printFraction_line _ _)

theorem printCounted_line (w : ℕ) (mem : Memory) (p : ℕ) : '\n' ∉ (printCounted w mem p).1 :=
  writeQuoted_line _

theorem orNull_line (ptr : Option ℕ) {print : ℕ → Text × ℕ} (h : ∀ p, '\n' ∉ (print p).1) :
    '\n' ∉ (orNull ptr print).1 := by
  cases ptr with
  | none => simp [orNull]
  | some p => exact h p

/-- No value breaks its line, whatever its bytes are. -/
theorem logEventPrintValue_line (formats : Formats) (mem : Memory) (ptr : Option ℕ)
    (type : FieldType) (metadata : ℕ) :
    '\n' ∉ (logEventPrintValue formats mem ptr type metadata).1 := by
  have hlength : ∀ p m, '\n' ∉ (writeQuotedWithLength mem p m).1 := by
    intro p m
    unfold writeQuotedWithLength
    split <;> exact printCounted_line _ _ _
  have hinteger : ∀ w p, '\n' ∉ (printInteger w mem p).1 :=
    fun w p => writeSintAndUint_line _ _
  unfold logEventPrintValue printOfType
  split
  · exact orNull_line ptr (hinteger 4)
  · exact orNull_line ptr (hinteger 1)
  · exact orNull_line ptr (hinteger 2)
  · exact orNull_line ptr (hinteger 3)
  · exact orNull_line ptr (hinteger 8)
  · exact orNull_line ptr fun p => (formats.newdecimal _ _ _).line
  · exact orNull_line ptr fun p => (formats.float _).line
  · exact orNull_line ptr fun p => (formats.double _).line
  · exact orNull_line ptr fun p => writeBit_line _ _
  · exact orNull_line ptr fun p => printInt_line _
  · exact orNull_line ptr fun p => timevalToStr_line _ _
  · exact orNull_line ptr fun p => printDatetime_line _
  · exact orNull_line ptr fun p => writeQuoted_line _
  · exact orNull_line ptr fun p => printTime_line _
  · exact orNull_line ptr fun p => writeQuoted_line _
  · exact orNull_line ptr fun p => printNewdate_line _
  · exact orNull_line ptr fun p => printDate_line _
  · exact orNull_line ptr fun p => printPadded_line _ _
  · split
    · exact orNull_line ptr fun p => printInt_line (uintKorr (metadata % 2 ^ 8) mem p)
    · exact not_mem_append (by decide) (decimal_line _)
  · exact orNull_line ptr fun p => writeBit_line _ _
  · split
    · exact orNull_line ptr fun p => printCounted_line _ _ _
    · exact not_mem_append (by decide) (decimal_line _)
  · exact orNull_line ptr fun p => hlength p _
  · exact orNull_line ptr fun p => hlength p _
  · exact orNull_line ptr fun p => hlength p _
  · simp

theorem hexByteUpper_line (b : UInt8) : '\n' ∉ hexByteUpper b := by
  have hdigit : ∀ n < 16, (Nat.digitChar n).toUpper ≠ '\n' := by decide
  have hb := b.toNat_lt
  have := hdigit (b.toNat / 16) (by omega)
  have := hdigit (b.toNat % 16) (by omega)
  simp_all [hexByteUpper, eq_comm]

theorem extraRowText_line (extra : List UInt8) : '\n' ∉ extraRowText extra := by
  have := decimal_line
  have := hexByteUpper_line
  unfold extraRowText
  dsimp only
  split <;> simp_all

end Line

end BinlogCapture
