import BinlogCapture.RowImage
import BinlogCapture.PrintedText

/-! What holds of a rows event whatever its bytes are: its lines are no markers, and it is printed
from the bytes of the event alone. -/
namespace BinlogCapture
open Bytes CString LineFeed

section Lines
variable (formats : Formats) (mem : Memory) (rowsEnd : ℕ)

theorem unmarked_column (n : ℕ) (v : Text) :
    Unmarked ("###   @".toList ++ decimal n ++ ['='] ++ v) := by
  have happ : ∀ tag ∈ markerTags, ¬tag <+: columnPrefix ∧ ¬columnPrefix <+: tag := by decide
  have hsplit : "###   @".toList ++ decimal n ++ ['='] ++ v =
      columnPrefix ++ (decimal n ++ '=' :: v) := by simp [columnPrefix]
  rw [hsplit]
  constructor
  · intro tag htag hp
    rcases List.prefix_or_prefix_of_prefix hp (List.prefix_append columnPrefix _) with h | h
    · exact (happ tag htag).1 h
    · exact (happ tag htag).2 h
  · intro _
    have hdrop : (columnPrefix ++ (decimal n ++ '=' :: v)).drop 7 = decimal n ++ '=' :: v := rfl
    rw [hdrop]
    simp

theorem columnText_line (i : ℕ) : '\n' ∉ columnText i :=
  not_mem_append (not_mem_append (by decide) (decimal_line _)) (by decide)

theorem corruptedText_line : '\n' ∉ corruptedText := by decide

theorem plain_columnLine (i : ℕ) {v : Text} (hv : '\n' ∉ v) (rest : Text) {r : Text}
    (h : Plain [] rest r) : Plain [] (columnText i ++ v ++ '\n' :: rest) r := by
  have hline := plain_textLine (r := []) (not_mem_append (columnText_line i) hv)
    (unmarked_column (i + 1) v)
  simpa [textLine] using hline.append h

theorem plain_pending {t : Text} (ht : '\n' ∉ t) : Plain [] t t := by
  rw [Plain, split_of_not_mem '\n' ht]
  simp

/-- The lines of an image. Only a failed one may leave a line unfinished. -/
theorem plain_printColumns (cols : List Bool) (value0 : ℕ) (td : List Column)
    (i nullBitIndex value : ℕ) : ∃ r,
      Plain [] (printColumns formats mem rowsEnd cols value0 td i nullBitIndex value).1 r ∧
      ((printColumns formats mem rowsEnd cols value0 td i nullBitIndex value).2 ≠ 0 → r = []) := by
  induction td generalizing i nullBitIndex value with
  | nil => exact ⟨[], .nil [], fun _ => rfl⟩
  | cons c td ih =>
    have hvalue : ∀ ptr, '\n' ∉ (logEventPrintValue formats mem ptr c.type c.metadata).1 :=
      fun ptr => logEventPrintValue_line formats mem ptr c.type c.metadata
    unfold printColumns
    dsimp only
    split
    · exact ih (i + 1) nullBitIndex value
    · split
      · exact ⟨[], plain_columnLine i corruptedText_line [] (.nil []), fun _ => rfl⟩
      · split
        · exact ⟨_, plain_pending (not_mem_append (columnText_line i) (hvalue _)),
            fun h => absurd rfl h⟩
        · obtain ⟨r, hr, hend⟩ := ih (i + 1) (nullBitIndex + 1) _
          exact ⟨r, plain_columnLine i (hvalue _) _ hr, hend⟩

theorem plain_printVerboseOneRow (td : List Column) (cols : List Bool) (value : ℕ) {clause : Text}
    (hclause : clause ∈ ["### SET".toList, "### WHERE".toList]) : ∃ r,
      Plain [] (printVerboseOneRow formats mem rowsEnd td cols value clause).1 r ∧
      ((printVerboseOneRow formats mem rowsEnd td cols value clause).2 ≠ 0 → r = []) := by
  have hc : '\n' ∉ clause ∧ ∀ q ∈ columnPrefix :: markerTags, Apart clause q := by
    revert clause
    decide
  have hline := plain_literal (t := []) hc.1 (by simp) hc.2
  rw [List.append_nil] at hline
  obtain ⟨r, hr, hend⟩ := plain_printColumns formats mem rowsEnd cols value td 0 0
    (value + (bitmapBitsSet cols + 7) / 8)
  exact ⟨r, hline.append hr, hend⟩

theorem plain_printRowImages (td : List Column) (e : RowsData) (value : ℕ) : ∃ r,
    Plain [] (printRowImages formats mem rowsEnd td e value).1 r ∧
    ((printRowImages formats mem rowsEnd td e value).2 ≠ 0 → r = []) := by
  have hclause : sqlClause1 e.type ∈ ["### SET".toList, "### WHERE".toList] := by
    cases e.type <;> decide
  have hset : "### SET".toList ∈ ["### SET".toList, "### WHERE".toList] := by decide
  obtain ⟨r₁, h₁, hend₁⟩ := plain_printVerboseOneRow formats mem rowsEnd td e.cols value hclause
  unfold printRowImages
  dsimp only
  split
  · next hzero => exact ⟨r₁, h₁, fun h => absurd hzero h⟩
  · next hne =>
    obtain rfl := hend₁ hne
    split
    · obtain ⟨r₂, h₂, hend₂⟩ := plain_printVerboseOneRow formats mem rowsEnd td e.colsAi
        (value + (printVerboseOneRow formats mem rowsEnd td e.cols value (sqlClause1 e.type)).2)
        hset
      refine ⟨r₂, h₁.append h₂, fun h => hend₂ fun hzero => ?_⟩
      exact h (if_pos hzero)
    · exact ⟨[], h₁, fun _ => rfl⟩

theorem plain_rowStart (type : RowsType) {db table : Text}
    (hname : NamePlain (qualified db table)) :
    Plain [] (textLine ("### ".toList ++ sqlCommand type ++ ' ' :: qualified db table)) [] := by
  have hsplit : "### ".toList ++ sqlCommand type ++ ' ' :: qualified db table =
      ("### ".toList ++ sqlCommand type ++ [' ']) ++ qualified db table ++ [] := by simp
  rw [hsplit]
  apply plain_named
  · cases type <;> decide
  · simp
  · intro u
    cases type <;> exact unmarked_of_isPrefix (by decide) u
  · exact getLast?_qualified db table
  · exact hname

theorem plain_printRows (td : List Column) (e : RowsData) {db table : Text}
    (hname : NamePlain (qualified db table)) (value : ℕ) :
    ∃ r, Plain [] (printRows formats mem rowsEnd td e (qualified db table) value).text r := by
  fun_induction printRows formats mem rowsEnd td e (qualified db table) value with
  | case1 value hlt start images hzero =>
    obtain ⟨r, hr, -⟩ := plain_printRowImages formats mem rowsEnd td e value
    exact ⟨r, (plain_rowStart e.type hname).append hr⟩
  | case2 value hlt start images hne rest ih =>
    obtain ⟨r, hr, hend⟩ := plain_printRowImages formats mem rowsEnd td e value
    obtain rfl := hend hne
    obtain ⟨r', hr'⟩ := ih
    exact ⟨r', ((plain_rowStart e.type hname).append hr).append hr'⟩
  | case3 value hlt => exact ⟨[], .nil []⟩

theorem plain_unknownTable (tableId : ℕ) : ∃ r,
    Plain [] ("### Row event for unknown table #".toList ++ decimal tableId) r :=
  ⟨_, plain_pending (not_mem_append (by decide) (decimal_line _))⟩

theorem plain_extraRowLine (e : RowsData) : Plain [] (extraRowLine e) [] := by
  unfold extraRowLine
  cases e.extraRowData with
  | none => exact .nil []
  | some extra => exact plain_literal (by decide) (extraRowText_line extra) (by decide)

/-- Whatever the bytes of the rows are, no line that is printed for them is taken for a marker. -/
theorem printVerboseRows_unmarked {tables : List (ℕ × TableDef)} (e : RowsData)
    (htables : ∀ t ∈ tables, NamePlain (qualified t.2.db t.2.table)) :
    ∀ l ∈ completeLines (printVerboseRows formats mem rowsEnd tables e).text, Unmarked l := by
  have hextra := plain_extraRowLine e
  obtain ⟨r, hr⟩ : ∃ r, Plain [] (printVerboseRows formats mem rowsEnd tables e).text r := by
    unfold printVerboseRows
    split
    · obtain ⟨r, hr⟩ := plain_unknownTable e.tableId
      exact ⟨r, hextra.append hr⟩
    · next map hl =>
      obtain ⟨before, after, rfl, -⟩ := List.lookup_eq_some_iff.mp hl
      have hname : NamePlain (qualified map.db map.table) := htables (e.tableId, map) (by simp)
      dsimp only
      split
      · exact ⟨[], hextra.append (plain_named (by decide) (by decide)
          (unmarked_of_isPrefix (by decide)) (getLast?_qualified _ _) hname)⟩
      · obtain ⟨r, hr⟩ := plain_printRows formats mem rowsEnd map.columns e hname 0
        exact ⟨r, hextra.append hr⟩
  exact hr.unmarked

/-- A table of short strings into which a row is inserted. -/
def insertTables : List (ℕ × TableDef) := [(4, ⟨"d".toList, "t".toList, [⟨.varchar, 20⟩]⟩)]

def insertData : RowsData := ⟨.write, 4, none, [true], [true]⟩

/-- The string has a line feed with a `#` behind it. -/
def insertBytes : List UInt8 := [0xFE, 3, 10, 35, 35]

theorem printVerboseRows_unmarked_insert : '\n'.toNat ∈ insertBytes.map UInt8.toNat ∧
    ∀ l ∈ completeLines (printVerboseRows noFormats (memoryOf insertBytes) 5 insertTables
      insertData).text, Unmarked l := by
  constructor
  · decide
  · apply printVerboseRows_unmarked
    intro t ht
    obtain rfl := List.mem_singleton.mp ht
    unfold NamePlain
    decide +kernel

end Lines

section Bounds

/-- A column whose value is printed from no more bytes than the check of the event's end counts. -/
def Column.Checked (c : Column) : Prop :=
  match c.type with
  | .float => 4 ≤ c.metadata
  | .double => 8 ≤ c.metadata
  | .bit => c.metadata % 2 ^ 8 ≤ 8 ∧ c.metadata < 2 ^ 16
  | .enum | .set =>
    FieldType.ofCode (c.metadata / 2 ^ 8) = .enum ∨ FieldType.ofCode (c.metadata / 2 ^ 8) = .set
  | .string => (stringType .string c.metadata).2 < 256
  | _ => True

instance (c : Column) : Decidable c.Checked := by
  unfold Column.Checked
  split <;> infer_instance

def Column.LongBlob (c : Column) : Prop :=
  c.metadata = 4 ∧
    c.type ∈ [FieldType.tinyBlob, .mediumBlob, .longBlob, .blob, .blobCompressed, .geometry]

/-- No length of four bytes is so large that its size does not fit 32 bits. -/
def NoWrap (mem : Memory) : Prop := ∀ p, uintKorr 4 mem p + 4 < 2 ^ 32

/-- The memories have the same first `n` bytes. -/
def AgreeBelow (n : ℕ) (mem mem' : Memory) : Prop := ∀ i < n, mem i = mem' i

/-- A column whose values are printed from the bytes that both memories have. -/
structure Column.Confined (mem mem' : Memory) (c : Column) : Prop where
  checked : c.Checked
  noWrap : c.LongBlob → NoWrap mem
  noWrap' : c.LongBlob → NoWrap mem'

variable {mem mem' : Memory} {n : ℕ}

theorem AgreeBelow.bytesAt (h : AgreeBelow n mem mem') {p k : ℕ} (hk : p + k ≤ n) :
    bytesAt mem p k = bytesAt mem' p k := by
  apply List.map_congr_left
  intro i hi
  exact h (p + i) (by have := List.mem_range.mp hi; omega)

theorem AgreeBelow.uintKorr (h : AgreeBelow n mem mem') {p w : ℕ} (hw : p + w ≤ n) :
    uintKorr w mem p = uintKorr w mem' p := by
  rw [BinlogCapture.uintKorr, BinlogCapture.uintKorr, h.bytesAt hw]

theorem AgreeBelow.sintKorr (h : AgreeBelow n mem mem') {p w : ℕ} (hw : p + w ≤ n) :
    sintKorr w mem p = sintKorr w mem' p := by
  rw [BinlogCapture.sintKorr, BinlogCapture.sintKorr, h.uintKorr hw]

theorem longLength_le : ∀ x < 49, x &&& 0x30 = x → x ≠ 0x30 → 256 ≤ (x ^^^ 0x30) <<< 4 := by
  decide

/-- A length below 256 is stored together with the plain type. -/
theorem stringType_short {m : ℕ} (h : (stringType .string m).2 < 256) :
    (stringType .string m).1 = .string := by
  unfold stringType at h ⊢
  rw [if_pos rfl] at h ⊢
  split
  · dsimp only at h ⊢
    split
    · next hlong hbits =>
      rw [if_pos hlong, if_pos hbits] at h
      have hx : m / 2 ^ 8 &&& 0x30 ≤ 0x30 := Nat.and_le_right
      have hmask : m / 2 ^ 8 &&& 0x30 &&& 0x30 = m / 2 ^ 8 &&& 0x30 := by
        rw [Nat.and_assoc, Nat.and_self]
      have hle := longLength_le (m / 2 ^ 8 &&& 0x30) (by omega) hmask hbits
      have hor : ((m / 2 ^ 8 &&& 0x30) ^^^ 0x30) <<< 4 ≤
        m % 2 ^ 8 ||| ((m / 2 ^ 8 &&& 0x30) ^^^ 0x30) <<< 4 := Nat.right_le_or
      omega
    · rfl
  · rfl

theorem printCounted_congr (h : AgreeBelow n mem mem') {p w : ℕ}
    (hfit : p + (uintKorr w mem p + w) ≤ n) :
    printCounted w mem p = printCounted w mem' p := by
  have hlength := h.uintKorr (p := p) (w := w) (by omega)
  rw [printCounted, printCounted, ← hlength, h.bytesAt (by omega)]

theorem printInteger_congr (h : AgreeBelow n mem mem') {p w : ℕ} (hw : p + w ≤ n) :
    printInteger w mem p = printInteger w mem' p := by
  rw [printInteger, printInteger, h.uintKorr hw, h.sintKorr hw]

theorem counted_size {w : ℕ} (hwrap : w = 4 → NoWrap mem) (hw : 1 ≤ w ∧ w ≤ 4) (p : ℕ) :
    uintKorr w mem p + w < 2 ^ 32 := by
  have hlt := uintKorr_lt mem w p
  obtain rfl | rfl | rfl | rfl : w = 1 ∨ w = 2 ∨ w = 3 ∨ w = 4 := by omega
  · omega
  · omega
  · omega
  · exact hwrap rfl p

theorem string_congr (formats : Formats) (h : AgreeBelow n mem mem') {c : Column}
    (htype : c.type = .string) (hc : c.Checked) {p : ℕ} (hfit : p + calcFieldSize mem c p ≤ n) :
    logEventPrintValue formats mem (some p) .string c.metadata =
      logEventPrintValue formats mem' (some p) .string c.metadata := by
  have hlength : (stringType .string c.metadata).2 < 256 := by
    simpa only [Column.Checked, htype] using hc
  rw [calcFieldSize_string mem htype] at hfit
  rw [logEventPrintValue, logEventPrintValue, stringType_short hlength]
  simp only [printOfType, orNull, writeQuotedWithLength, if_pos hlength]
  exact printCounted_congr h hfit

/-- A value that passes the check is printed from the bytes that were counted. -/
theorem logEventPrintValue_congr (formats : Formats) (h : AgreeBelow n mem mem')
    {c : Column} (hwrap : c.LongBlob → NoWrap mem) (hc : c.Checked) {p : ℕ}
    (hfit : p + calcFieldSize mem c p ≤ n) :
    logEventPrintValue formats mem (some p) c.type c.metadata =
      logEventPrintValue formats mem' (some p) c.type c.metadata := by
  have hbyte := uintKorr_lt mem 1 p
  have hword := uintKorr_lt mem 2 p
  by_cases hstring : c.type = .string
  · rw [hstring]
    exact string_congr formats h hstring hc hfit
  unfold calcFieldSize at hfit
  unfold Column.Checked at hc
  cases htype : c.type <;> rw [htype] at hfit hc <;>
    simp only [logEventPrintValue, stringType, reduceCtorEq, if_false] at hfit hc ⊢ <;>
    simp only [printOfType, orNull]
  case string => exact absurd htype hstring
  case tiny | short | int24 | long | longlong => exact printInteger_congr h hfit
  case timestamp | time => rw [h.sintKorr hfit]
  case datetime | newdate | date | year => rw [h.uintKorr hfit]
  case timestamp2 | datetime2 | time2 | newdecimal => rw [h.bytesAt hfit]
  case float | double => rw [h.bytesAt (by omega)]
  case bit =>
    rw [h.bytesAt]
    split at hfit <;> omega
  case enum =>
    have hwidth : p + c.metadata % 2 ^ 8 ≤ n := by
      rcases hc with hc | hc <;> simpa only [hc] using hfit
    rw [h.uintKorr hwidth]
  case set =>
    have hwidth : p + c.metadata % 2 ^ 8 ≤ n := by
      rcases hc with hc | hc <;> simpa only [hc] using hfit
    rw [h.bytesAt hwidth]
  case blob =>
    split
    · next hmeta =>
      have hlong : c.metadata = 4 → NoWrap mem := fun h4 => hwrap ⟨h4, by simp [htype]⟩
      rw [if_pos hmeta, Nat.mod_eq_of_lt (counted_size hlong hmeta p)] at hfit
      exact printCounted_congr h hfit
    · rfl
  case varchar | varString =>
    unfold writeQuotedWithLength
    split <;> apply printCounted_congr h <;> (try split at hfit) <;> omega

theorem counted_past_iff (h : AgreeBelow n mem mem') (w p : ℕ) :
    n < p + (uintKorr w mem p + w) ↔ n < p + (uintKorr w mem' p + w) := by
  by_cases hw : p + w ≤ n
  · rw [h.uintKorr hw]
  · constructor <;> intro _ <;> omega

/-- The check of the event's end does not depend on the bytes behind it. -/
theorem past_iff (h : AgreeBelow n mem mem') {c : Column} (hc : c.Confined mem mem') (p : ℕ) :
    n < p + calcFieldSize mem c p ↔ n < p + calcFieldSize mem' c p := by
  by_cases hstring : c.type = .string
  · rw [calcFieldSize_string mem hstring, calcFieldSize_string mem' hstring]
    exact counted_past_iff h 1 p
  unfold calcFieldSize
  cases htype : c.type <;> dsimp only
  case string => exact absurd htype hstring
  case enum | set =>
    split
    · rfl
    · rfl
    · exact counted_past_iff h 1 p
  case varchar | varcharCompressed =>
    split
    · rw [Nat.add_comm 2, Nat.add_comm 2]
      exact counted_past_iff h 2 p
    · rw [Nat.add_comm 1, Nat.add_comm 1]
      exact counted_past_iff h 1 p
  case blob | tinyBlob | mediumBlob | longBlob | blobCompressed | geometry =>
    split
    · next hmeta =>
      have hlong : c.metadata = 4 → c.LongBlob := fun h4 => ⟨h4, by simp [htype]⟩
      rw [Nat.mod_eq_of_lt (counted_size (fun h4 => hc.noWrap (hlong h4)) hmeta p),
        Nat.mod_eq_of_lt (counted_size (fun h4 => hc.noWrap' (hlong h4)) hmeta p)]
      exact counted_past_iff h c.metadata p
    · rfl
  all_goals rfl

/-- The value pointer is not moved by more than was checked. -/
theorem size_le_calcFieldSize (formats : Formats) (mem : Memory) {c : Column} (hc : c.Checked)
    (p : ℕ) : (logEventPrintValue formats mem (some p) c.type c.metadata).2 ≤
      calcFieldSize mem c p := by
  have hbyte := uintKorr_lt mem 1 p
  have hword := uintKorr_lt mem 2 p
  by_cases hstring : c.type = .string
  · have hlength : (stringType .string c.metadata).2 < 256 := by
      simpa only [Column.Checked, hstring] using hc
    rw [calcFieldSize_string mem hstring, hstring, logEventPrintValue, stringType_short hlength]
    simp only [printOfType, orNull, writeQuotedWithLength, if_pos hlength, printCounted]
    exact Nat.mod_le _ _
  unfold calcFieldSize
  unfold Column.Checked at hc
  cases htype : c.type <;> rw [htype] at hc <;>
    simp only [logEventPrintValue, stringType, reduceCtorEq, if_false] at hc ⊢ <;>
    simp only [printOfType, orNull, printInteger, le_refl, zero_le, hc]
  case string => exact absurd htype hstring
  case bit => split <;> omega
  case enum =>
    rcases hc with hc | hc <;> rw [hc] <;> dsimp only <;> split <;> simp
  case set => rcases hc with hc | hc <;> rw [hc]
  case blob =>
    split
    · simp [printCounted]
    · simp
  case varchar | varString =>
    unfold writeQuotedWithLength printCounted
    split <;> (try split) <;> dsimp only <;> omega

theorem count_take_succ (cols : List Bool) (i : ℕ) :
    (cols.take (i + 1)).count true =
      (cols.take i).count true + if cols.getD i false then 1 else 0 := by
  induction cols generalizing i with
  | nil => simp
  | cons b cols ih =>
    cases i with
    | zero => cases b <;> simp
    | succ i =>
      have h := ih i
      simp only [List.take_succ_cons, List.count_cons, List.getD_cons_succ, h]
      omega

variable {rowsEnd : ℕ} (formats : Formats)

/-- The null bits are among the null bytes. -/
theorem fieldPtr_congr (h : AgreeBelow n mem mem') {cols : List Bool} {i value0 : ℕ}
    (hnull : value0 + (bitmapBitsSet cols + 7) / 8 ≤ n) (hi : cols.getD i false = true)
    (value : ℕ) : fieldPtr mem value0 ((cols.take i).count true) value =
      fieldPtr mem' value0 ((cols.take i).count true) value := by
  have hcount := count_take_succ cols i
  have hle : (cols.take (i + 1)).count true ≤ cols.count true :=
    (List.take_sublist (i + 1) cols).count_le true
  rw [hi, if_pos rfl] at hcount
  rw [fieldPtr, fieldPtr, h]
  unfold bitmapBitsSet at hnull
  omega

theorem logEventPrintValue_none (mem mem' : Memory) (type : FieldType) (metadata : ℕ) :
    logEventPrintValue formats mem none type metadata =
      logEventPrintValue formats mem' none type metadata := by
  unfold logEventPrintValue
  cases (stringType type metadata).1 <;> simp only [printOfType, orNull]

/-- An image is printed from the bytes up to the end of the rows and the null bytes. -/
theorem printColumns_congr (h : AgreeBelow n mem mem') (hn : rowsEnd ≤ n) {cols : List Bool}
    {value0 : ℕ} (hnull : value0 + (bitmapBitsSet cols + 7) / 8 ≤ n) {td : List Column}
    (htd : ∀ c ∈ td, c.Confined mem mem') (i value : ℕ) :
    printColumns formats mem rowsEnd cols value0 td i ((cols.take i).count true) value =
      printColumns formats mem' rowsEnd cols value0 td i ((cols.take i).count true) value := by
  have hrows : AgreeBelow rowsEnd mem mem' := fun j hj => h j (by omega)
  induction td generalizing i value with
  | nil => rfl
  | cons c td ih =>
    obtain ⟨hc, htd⟩ := List.forall_mem_cons.mp htd
    have ih := ih htd (i + 1)
    rw [count_take_succ] at ih
    cases hi : cols.getD i false with
    | false =>
      simp only [hi, Bool.false_eq_true, if_false, Nat.add_zero] at ih
      rw [printColumns_skip formats hi, printColumns_skip formats hi, ih]
    | true =>
      simp only [hi, if_true] at ih
      have hptr := fieldPtr_congr h hnull hi value
      cases hfield : fieldPtr mem value0 ((cols.take i).count true) value with
      | none =>
        rw [printColumns_null formats hi hfield,
          printColumns_null formats hi (hptr.symm.trans hfield), ih,
          logEventPrintValue_none formats mem mem']
      | some p =>
        rw [printColumns_value formats hi hfield,
          printColumns_value formats hi (hptr.symm.trans hfield)]
        by_cases hpast : rowsEnd < p + calcFieldSize mem c p
        · simp only [if_pos hpast, if_pos ((past_iff hrows hc p).mp hpast)]
        · have hvalue := logEventPrintValue_congr formats hrows hc.noWrap hc.checked
            (p := p) (by omega)
          simp only [if_neg hpast, if_neg (mt (past_iff hrows hc p).mpr hpast),
            ← hvalue, ih]

/-- An image ends with the rows, or with its null bytes. -/
theorem printColumns_end (mem : Memory) (cols : List Bool) {value0 : ℕ} {td : List Column}
    (htd : ∀ c ∈ td, c.Checked) (i k : ℕ) {value : ℕ} (hvalue : value0 ≤ value) :
    value0 + (printColumns formats mem rowsEnd cols value0 td i k value).2 ≤ max rowsEnd value := by
  induction td generalizing i k value with
  | nil =>
    simp only [printColumns]
    omega
  | cons c td ih =>
    obtain ⟨hc, htd⟩ := List.forall_mem_cons.mp htd
    cases hi : cols.getD i false with
    | false =>
      rw [printColumns_skip formats hi]
      exact ih htd (i + 1) k hvalue
    | true =>
      cases hfield : fieldPtr mem value0 k value with
      | none =>
        rw [printColumns_null formats hi hfield]
        dsimp only
        split
        · dsimp only
          omega
        · exact ih htd (i + 1) (k + 1) hvalue
      | some p =>
        obtain rfl : p = value := by
          unfold fieldPtr at hfield
          split at hfield
          · cases hfield
          · exact (Option.some.inj hfield).symm
        rw [printColumns_value formats hi hfield]
        dsimp only
        split
        · dsimp only
          omega
        · next hpast =>
          split
          · dsimp only
            omega
          · have hsize := size_le_calcFieldSize formats mem hc p
            have hle : value0 ≤
                p + (logEventPrintValue formats mem (some p) c.type c.metadata).2 := by omega
            have hrest := ih htd (i + 1) (k + 1) hle
            dsimp only
            omega

theorem printVerboseOneRow_congr (h : AgreeBelow n mem mem') (hn : rowsEnd ≤ n)
    {cols : List Bool} {value : ℕ} (hnull : value + (bitmapBitsSet cols + 7) / 8 ≤ n)
    {td : List Column} (htd : ∀ c ∈ td, c.Confined mem mem') (clause : Text) :
    printVerboseOneRow formats mem rowsEnd td cols value clause =
      printVerboseOneRow formats mem' rowsEnd td cols value clause := by
  have hcolumns := printColumns_congr formats h hn hnull htd 0
    (value + (bitmapBitsSet cols + 7) / 8)
  rw [List.take_zero, List.count_nil] at hcolumns
  rw [printVerboseOneRow, printVerboseOneRow, hcolumns]

/-- The bytes from which the rows of an event are printed: the rows and the null bytes of two
images. -/
def rowsExtent (rowsEnd : ℕ) (e : RowsData) : ℕ :=
  rowsEnd + (bitmapBitsSet e.cols + 7) / 8 + (bitmapBitsSet e.colsAi + 7) / 8

theorem printRowImages_congr {e : RowsData} (h : AgreeBelow (rowsExtent rowsEnd e) mem mem')
    {td : List Column} (htd : ∀ c ∈ td, c.Confined mem mem')
    {value : ℕ} (hvalue : value < rowsEnd) :
    printRowImages formats mem rowsEnd td e value =
      printRowImages formats mem' rowsEnd td e value := by
  have hextent : rowsExtent rowsEnd e = rowsEnd + (bitmapBitsSet e.cols + 7) / 8 +
    (bitmapBitsSet e.colsAi + 7) / 8 := rfl
  have hle : rowsEnd ≤ rowsExtent rowsEnd e := by omega
  have hnull₁ : value + (bitmapBitsSet e.cols + 7) / 8 ≤ rowsExtent rowsEnd e := by omega
  have hfirst := printVerboseOneRow_congr formats h hle hnull₁ htd (sqlClause1 e.type)
  have hend : value + (printColumns formats mem rowsEnd e.cols value td 0 0
      (value + (bitmapBitsSet e.cols + 7) / 8)).2 ≤
        max rowsEnd (value + (bitmapBitsSet e.cols + 7) / 8) :=
    printColumns_end formats mem e.cols (fun c hc => (htd c hc).checked) 0 0 (by omega)
  have hnull₂ : value + (printVerboseOneRow formats mem rowsEnd td e.cols value
      (sqlClause1 e.type)).2 + (bitmapBitsSet e.colsAi + 7) / 8 ≤ rowsExtent rowsEnd e := by
    rw [printVerboseOneRow]
    dsimp only
    omega
  have hsecond := printVerboseOneRow_congr formats h hle hnull₂ htd "### SET".toList
  rw [printRowImages, printRowImages, ← hfirst, ← hsecond]

theorem printRows_congr {e : RowsData} (h : AgreeBelow (rowsExtent rowsEnd e) mem mem')
    {td : List Column} (htd : ∀ c ∈ td, c.Confined mem mem')
    (name : Text) (value : ℕ) : printRows formats mem rowsEnd td e name value =
      printRows formats mem' rowsEnd td e name value := by
  fun_induction printRows formats mem rowsEnd td e name value with
  | case1 value hlt start images hzero =>
    have himages := printRowImages_congr formats h htd hlt
    rw [printRows, if_pos hlt, ← himages]
    simp only [images] at hzero
    simp only [hzero, if_true]
    rfl
  | case2 value hlt start images hne rest ih =>
    have himages := printRowImages_congr formats h htd hlt
    rw [printRows, if_pos hlt, ← himages]
    simp only [images] at hne
    simp only [hne, if_false]
    rw [← ih]
  | case3 value hlt => rw [printRows, if_neg hlt]

/-- What is printed of a rows event does not depend on the memory behind its rows, apart from null
bytes, when every column is checked for the length it is printed with. -/
theorem printVerboseRows_congr {tables : List (ℕ × TableDef)} {e : RowsData}
    (h : AgreeBelow (rowsExtent rowsEnd e) mem mem')
    (htables : ∀ t ∈ tables, ∀ c ∈ t.2.columns, c.Confined mem mem') :
    printVerboseRows formats mem rowsEnd tables e =
      printVerboseRows formats mem' rowsEnd tables e := by
  unfold printVerboseRows
  cases hl : tables.lookup e.tableId with
  | none => rfl
  | some map =>
    obtain ⟨before, after, rfl, -⟩ := List.lookup_eq_some_iff.mp hl
    have htd : ∀ c ∈ map.columns, c.Confined mem mem' := htables (e.tableId, map) (by simp)
    dsimp only
    rw [printRows_congr formats h htd]

theorem printVerboseRows_congr_insert :
    printVerboseRows noFormats (memoryOf insertBytes) 5 insertTables insertData =
      printVerboseRows noFormats (memoryOf (insertBytes ++ [0, 0, 1])) 5 insertTables
        insertData := by
  apply printVerboseRows_congr
  · unfold AgreeBelow
    decide
  · intro t ht c hc
    obtain rfl := List.mem_singleton.mp ht
    obtain rfl := List.mem_singleton.mp hc
    have hnot : ¬Column.LongBlob ⟨.varchar, 20⟩ := fun hlong => absurd hlong.1 (by decide)
    exact ⟨by decide, fun hlong => absurd hlong hnot, fun hlong => absurd hlong hnot⟩

end Bounds
end BinlogCapture
