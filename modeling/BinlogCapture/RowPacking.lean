import BinlogCapture.RowImage
import BinlogCapture.PrintedText
import Mathlib.Data.List.Forall2

/-! Rows as the master packs them into an event: they are printed back, value for value, as the
lines of the event that was packed. -/
namespace BinlogCapture
open Bytes CString

/-- The value of a column, in the form in which it is packed. -/
inductive Value where
  /-- An integer of `w` bytes, signed or not. -/
  | integer (w n : ℕ)
  | timestamp (n : ℕ)
  | datetime (n : ℕ)
  | time (n : ℤ)
  | newdate (n : ℕ)
  | year (n : ℕ)
  | bit (nbits n : ℕ)
  | enum (w n : ℕ)
  | set (w n : ℕ)
  /-- A string behind its length of `w` bytes. -/
  | counted (w : ℕ) (bytes : List UInt8)
  | timestamp2 (dec sec usec : ℕ)
  | datetime2 (dec : ℕ) (t : MysqlTime)
  | time2 (dec : ℕ) (t : MysqlTime)
  | float (bytes : List UInt8)
  | double (bytes : List UInt8)
  | newdecimal (precision scale : ℕ) (bytes : List UInt8)
  deriving DecidableEq, Repr

/-- `Field::pack` -/
def Value.pack : Value → List UInt8
  | .integer w n => storeLittle w n
  | .timestamp n => storeLittle 4 n
  | .datetime n => storeLittle 8 n
  | .time n => storeLittle 3 n
  | .newdate n => storeLittle 3 n
  | .year n => storeLittle 1 n
  | .bit nbits n => storeBig ((nbits + 7) / 8) n
  | .enum w n => storeLittle w n
  | .set w n => storeLittle w n
  | .counted w bytes => storeLittle w bytes.length ++ bytes
  | .timestamp2 dec sec usec => timestampToBinary ⟨sec, usec⟩ dec
  | .datetime2 dec t => datetimePackedToBinary (datetimeToPacked t) dec
  | .time2 dec t => timePackedToBinary (timeToPacked t) dec
  | .float bytes | .double bytes | .newdecimal _ _ bytes => bytes

/-- The value as a literal. -/
def Value.literal (formats : Formats) : Value → Text
  | .integer w n => writeSintAndUint (signed w n) n
  | .timestamp n => printInt (signed 4 n)
  | .datetime n => printDatetime n
  | .time n => printTime n
  | .newdate n => printNewdate n
  | .year n => printPadded 4 (n + 1900 : ℕ)
  | .bit nbits n => writeBit (storeBig ((nbits + 7) / 8) n) nbits
  | .enum _ n => decimal n
  | .set w n => writeBit (storeLittle w n) (w * 8)
  | .counted _ bytes => writeQuoted bytes
  | .timestamp2 dec sec usec => timevalToStr ⟨sec, usec⟩ dec
  | .datetime2 dec t => '\'' :: datetimeToStr t dec ++ ['\'']
  | .time2 dec t => '\'' :: timeToStr t dec ++ ['\'']
  | .float bytes => (formats.float bytes).text
  | .double bytes => (formats.double bytes).text
  | .newdecimal precision scale bytes => (formats.newdecimal precision scale bytes).text

/-- The metadata of a `CHAR` of `length` bytes, whose two highest bits are mixed into the type. -/
def charMetadata (length : ℕ) : ℕ := (254 ^^^ (length / 2 ^ 8 * 2 ^ 4)) * 2 ^ 8 + length % 2 ^ 8

def lengthBytes (length : ℕ) : ℕ := if length < 256 then 1 else 2

/-- The values of a column. -/
inductive Column.Takes : Column → Value → Prop where
  | tiny {m n : ℕ} (h : n < 256 ^ 1) : Takes ⟨.tiny, m⟩ (.integer 1 n)
  | short {m n : ℕ} (h : n < 256 ^ 2) : Takes ⟨.short, m⟩ (.integer 2 n)
  | int24 {m n : ℕ} (h : n < 256 ^ 3) : Takes ⟨.int24, m⟩ (.integer 3 n)
  | long {m n : ℕ} (h : n < 256 ^ 4) : Takes ⟨.long, m⟩ (.integer 4 n)
  | longlong {m n : ℕ} (h : n < 256 ^ 8) : Takes ⟨.longlong, m⟩ (.integer 8 n)
  | timestamp {m n : ℕ} (h : n < 256 ^ 4) : Takes ⟨.timestamp, m⟩ (.timestamp n)
  | datetime {m n : ℕ} (h : n < 10 ^ 14) : Takes ⟨.datetime, m⟩ (.datetime n)
  | time {m : ℕ} {n : ℤ} (hlow : -2 ^ 23 ≤ n) (hhigh : n < 2 ^ 23) : Takes ⟨.time, m⟩ (.time n)
  | date {m n : ℕ} (h : n < 256 ^ 3) : Takes ⟨.date, m⟩ (.newdate n)
  | newdate {m n : ℕ} (h : n < 256 ^ 3) : Takes ⟨.newdate, m⟩ (.newdate n)
  | year {m n : ℕ} (h : n < 256) : Takes ⟨.year, m⟩ (.year n)
  | bit {bytes bits n : ℕ} (hbytes : bytes < 256) (hbits : bits < 8) (hpos : 0 < bytes * 8 + bits)
      (h : n < 2 ^ (bytes * 8 + bits)) :
      Takes ⟨.bit, bytes * 2 ^ 8 + bits⟩ (.bit (bytes * 8 + bits) n)
  | enum {w n : ℕ} (hw : w = 1 ∨ w = 2) (h : n < 256 ^ w) :
      Takes ⟨.string, 247 * 2 ^ 8 + w⟩ (.enum w n)
  | set {w n : ℕ} (hpos : 0 < w) (hw : w < 256) (h : n < 256 ^ w) :
      Takes ⟨.string, 248 * 2 ^ 8 + w⟩ (.set w n)
  | varchar {length : ℕ} {bytes : List UInt8} (hlength : length < 2 ^ 16)
      (h : bytes.length ≤ length) :
      Takes ⟨.varchar, length⟩ (.counted (lengthBytes length) bytes)
  | char {length : ℕ} {bytes : List UInt8} (hlength : length < 2 ^ 10)
      (h : bytes.length ≤ length) :
      Takes ⟨.string, charMetadata length⟩ (.counted (lengthBytes length) bytes)
  | blob {w : ℕ} {bytes : List UInt8} (hw : 1 ≤ w ∧ w ≤ 4) (h : bytes.length < 256 ^ w)
      (hsize : bytes.length + w < 2 ^ 32) : Takes ⟨.blob, w⟩ (.counted w bytes)
  | timestamp2 {dec sec usec : ℕ} (hdec : dec ≤ 6) (hsec : sec < 2 ^ 31) (husec : usec < 10 ^ 6)
      (hdvd : 10 ^ (6 - dec) ∣ usec) : Takes ⟨.timestamp2, dec⟩ (.timestamp2 dec sec usec)
  | datetime2 {dec : ℕ} {t : MysqlTime} (hdec : dec ≤ 6) (h : IsDatetime t)
      (hdvd : 10 ^ (6 - dec) ∣ t.secondPart) : Takes ⟨.datetime2, dec⟩ (.datetime2 dec t)
  | time2 {dec : ℕ} {t : MysqlTime} (hdec : dec ≤ 6) (h : IsTime t)
      (hdvd : 10 ^ (6 - dec) ∣ t.secondPart) : Takes ⟨.time2, dec⟩ (.time2 dec t)
  | float {bytes : List UInt8} (h : bytes.length = 4) : Takes ⟨.float, 4⟩ (.float bytes)
  | double {bytes : List UInt8} (h : bytes.length = 8) : Takes ⟨.double, 8⟩ (.double bytes)
  | newdecimal {precision scale : ℕ} {bytes : List UInt8} (hscale : scale < 256)
      (hle : scale ≤ precision) (hpos : 0 < bytes.length)
      (h : bytes.length = decimalBinarySize precision scale) :
      Takes ⟨.newdecimal, precision * 2 ^ 8 + scale⟩ (.newdecimal precision scale bytes)

variable (formats : Formats) {mem : Memory} {c : Column} {v : Value} {p : ℕ}

theorem Column.Takes.length_pos (h : c.Takes v) : 0 < v.pack.length := by
  cases h <;> simp only [Value.pack, length_storeLittle, length_storeBig, List.length_append]
  case bit => omega
  case enum hw _ => omega
  case set => omega
  case varchar | char =>
    unfold lengthBytes
    split <;> omega
  case blob => omega
  case timestamp2 dec sec usec hdec _ _ _ =>
    rw [length_timestampToBinary _ hdec, timestampBinaryLength]
    omega
  case datetime2 dec t hdec _ _ =>
    rw [length_datetimePackedToBinary _ hdec, datetimeBinaryLength]
    omega
  case time2 dec t hdec _ _ =>
    rw [length_timePackedToBinary _ hdec, timeBinaryLength]
    omega
  case newdecimal => assumption
  all_goals omega

theorem charMetadata_split (length : ℕ) :
    charMetadata length / 2 ^ 8 = 254 ^^^ (length / 2 ^ 8 * 2 ^ 4) ∧
      charMetadata length % 2 ^ 8 = length % 2 ^ 8 := by
  unfold charMetadata
  omega

/-- The high bits of the length of a `CHAR` are found again in its type. -/
theorem charType : ∀ k < 4, FieldType.ofCode (254 ^^^ k * 2 ^ 4) ≠ .enum ∧
    FieldType.ofCode (254 ^^^ k * 2 ^ 4) ≠ .set ∧ 1 ≤ 254 ^^^ k * 2 ^ 4 ∧
    FieldType.ofCode ((254 ^^^ k * 2 ^ 4) ||| 0x30) = .string ∧
    (((254 ^^^ k * 2 ^ 4) &&& 0x30) ^^^ 0x30) <<< 4 = k <<< 8 ∧
    ((254 ^^^ k * 2 ^ 4) &&& 0x30 = 0x30 ↔ k = 0) := by
  decide

theorem type_char {length : ℕ} (h : length < 2 ^ 10) :
    Column.type ⟨.string, charMetadata length⟩ = .string := by
  obtain ⟨henum, hset, -⟩ := charType (length / 2 ^ 8) (by omega)
  unfold Column.type
  dsimp only
  rw [(charMetadata_split length).1]
  split
  · next heq => exact absurd heq henum
  · next heq => exact absurd heq hset
  · rfl

theorem stringType_char {length : ℕ} (h : length < 2 ^ 10) :
    stringType .string (charMetadata length) = (.string, length) := by
  obtain ⟨hbyte0, hbyte1⟩ := charMetadata_split length
  obtain ⟨-, -, hpos, htype, hlength, hplain⟩ := charType (length / 2 ^ 8) (by omega)
  have hlarge : 256 ≤ charMetadata length := by omega
  simp only [stringType, if_true, hlarge, hbyte0, hbyte1, htype, hlength, ne_eq, hplain]
  split
  · have hor : (length / 2 ^ 8) <<< 8 ||| length % 2 ^ 8 = length := by
      rw [← Nat.shiftLeft_add_eq_or_of_lt (Nat.mod_lt length (by omega)), Nat.shiftLeft_eq]
      omega
    rw [Nat.or_comm, hor]
  · rw [Prod.mk.injEq]
    exact ⟨rfl, by omega⟩

theorem type_enum {w : ℕ} (hw : w < 256) : Column.type ⟨.string, 247 * 2 ^ 8 + w⟩ = .enum := by
  have hcode : (247 * 2 ^ 8 + w) / 2 ^ 8 = 247 := by omega
  simp only [Column.type, hcode]
  rfl

theorem type_set {w : ℕ} (hw : w < 256) : Column.type ⟨.string, 248 * 2 ^ 8 + w⟩ = .set := by
  have hcode : (248 * 2 ^ 8 + w) / 2 ^ 8 = 248 := by omega
  simp only [Column.type, hcode]
  rfl

theorem printCounted_eq {w : ℕ} {bytes : List UInt8}
    (h : HoldsAt mem p (storeLittle w bytes.length ++ bytes)) (hlt : bytes.length < 256 ^ w)
    (hsize : bytes.length + w < 2 ^ 32) :
    printCounted w mem p = (writeQuoted bytes, (storeLittle w bytes.length ++ bytes).length) := by
  obtain ⟨hlength, hbytes⟩ := holdsAt_append.mp h
  rw [length_storeLittle] at hbytes
  rw [printCounted, hlength.uintKorr_eq hlt, hbytes.bytesAt_eq rfl, Nat.mod_eq_of_lt hsize,
    List.length_append, length_storeLittle, Nat.add_comm]

theorem writeQuotedWithLength_eq {length : ℕ} {bytes : List UInt8}
    (h : HoldsAt mem p (storeLittle (lengthBytes length) bytes.length ++ bytes))
    (hlength : length < 2 ^ 16) (hle : bytes.length ≤ length) :
    writeQuotedWithLength mem p length =
      (writeQuoted bytes, (storeLittle (lengthBytes length) bytes.length ++ bytes).length) := by
  unfold writeQuotedWithLength
  unfold lengthBytes at h ⊢
  split at h <;> next hlt =>
    simp only [hlt, if_true, if_false]
    exact printCounted_eq h (by omega) (by omega)

/-- What the text of a date or time is made of shows through the quotes. -/
theorem writeQuoted_bytesOf {t : Text} (h : ∀ c ∈ t, 0x1F < c.toNat ∧ c.toNat < 256) :
    writeQuoted (bytesOf t) = '\'' :: t ++ ['\''] := by
  have hquote : (bytesOf t).flatMap quoteByte = t := by
    induction t with
    | nil => rfl
    | cons a t ih =>
      rw [List.forall_mem_cons] at h
      have hbyte : (UInt8.ofNat a.toNat).toNat = a.toNat := by
        rw [UInt8.toNat_ofNat', Nat.mod_eq_of_lt h.1.2]
      have hhead : quoteByte (UInt8.ofNat a.toNat) = [a] := by
        rw [quoteByte, hbyte, if_pos h.1.1, Char.ofNat_toNat]
      change quoteByte (UInt8.ofNat a.toNat) ++ (bytesOf t).flatMap quoteByte = a :: t
      rw [hhead, ih h.2]
      rfl
  rw [writeQuoted, hquote]

/-- The characters that a quoted string shows as they are. -/
def Shown (t : Text) : Prop := ∀ c ∈ t, 0x1F < c.toNat ∧ c.toNat < 256

theorem shown_append {s t : Text} (hs : Shown s) (ht : Shown t) : Shown (s ++ t) := by
  intro c hc
  rcases List.mem_append.mp hc with hc | hc
  · exact hs c hc
  · exact ht c hc

theorem shown_cons {a : Char} {t : Text} (ha : Shown [a]) (ht : Shown t) : Shown (a :: t) :=
  shown_append ha ht

theorem shown_of_isDigit {t : Text} (h : ∀ c ∈ t, c.isDigit = true) : Shown t := by
  intro c hc
  have hdigit := h c hc
  simp only [Char.isDigit, Bool.and_eq_true, decide_eq_true_eq, UInt32.le_iff_toNat_le] at hdigit
  change 48 ≤ c.toNat ∧ c.toNat ≤ 57 at hdigit
  omega

theorem shown_fmtNumber (v d : ℕ) : Shown (fmtNumber v d) :=
  shown_of_isDigit fun _ h => isDigit_of_mem_fmtNumber h

theorem shown_printFraction (v : ℤ) (d : ℕ) : Shown (printFraction v d) := by
  unfold printFraction
  split
  · simp [Shown]
  · exact shown_cons (by simp [Shown]) (shown_fmtNumber _ _)

theorem shown_timeToStr (t : MysqlTime) (d : ℕ) : Shown (timeToStr t d) := by
  have hhour : ∀ n, Shown (if n > 99 then decimal n else fmtNumber n 2) := by
    intro n
    split
    · exact shown_of_isDigit fun _ h => isDigit_of_mem_decimal h
    · exact shown_fmtNumber n 2
  have hsign : Shown (if t.neg then ['-'] else []) := by split <;> simp [Shown]
  have hcolon : Shown [':'] := by simp [Shown]
  exact shown_append hsign (shown_append (hhour _) (shown_cons hcolon (shown_append
    (shown_fmtNumber _ _) (shown_cons hcolon (shown_append (shown_fmtNumber _ _)
      (shown_printFraction _ _))))))

theorem shown_datetimeToStr (t : MysqlTime) (d : ℕ) : Shown (datetimeToStr t d) := by
  have hsep : ∀ c ∈ ['-', ' ', ':'], Shown [c] := by simp [Shown]
  have hnumber : ∀ c ∈ ['-', ' ', ':'], ∀ v w t, Shown t → Shown (fmtNumber v w ++ c :: t) :=
    fun c hc v w t ht => shown_append (shown_fmtNumber v w) (shown_cons (hsep c hc) ht)
  unfold datetimeToStr
  apply hnumber '-' (by simp)
  apply hnumber '-' (by simp)
  apply hnumber ' ' (by simp)
  apply hnumber ':' (by simp)
  apply hnumber ':' (by simp)
  exact shown_append (shown_fmtNumber _ _) (shown_printFraction _ _)

theorem printInt_natCast (n : ℕ) : printInt n = decimal n := by
  simp [printInt]

/-- A value that a column takes is read back from its bytes. -/
theorem Column.Takes.print_value (h : c.Takes v) (hmem : HoldsAt mem p v.pack) :
    logEventPrintValue formats mem (some p) c.type c.metadata =
      (v.literal formats, v.pack.length) := by
  have hinteger : ∀ {w n : ℕ}, n < 256 ^ w → HoldsAt mem p (storeLittle w n) →
      printInteger w mem p = (writeSintAndUint (signed w n) n, w) := by
    intro w n hn hbytes
    rw [printInteger, sintKorr, hbytes.uintKorr_eq hn]
  cases h <;> simp only [Value.pack, Value.literal, length_storeLittle, length_storeBig] at hmem ⊢
  case tiny h | short h | int24 h | long h | longlong h => exact hinteger h hmem
  case timestamp h =>
    change (printInt (sintKorr 4 mem p), 4) = _
    rw [sintKorr, hmem.uintKorr_eq h]
  case datetime h =>
    change (printDatetime (uintKorr 8 mem p), 8) = _
    rw [hmem.uintKorr_eq (by omega)]
  case time hlow hhigh =>
    change (printTime (sintKorr 3 mem p), 3) = _
    rw [hmem.sintKorr_eq (by omega) (by omega)]
  case date h | newdate h =>
    change (printNewdate (uintKorr 3 mem p), 3) = _
    rw [hmem.uintKorr_eq h]
  case year h =>
    change (printPadded 4 (uintKorr 1 mem p + 1900 : ℕ), 1) = _
    rw [hmem.uintKorr_eq h]
  case bit bytes bits n hbytes hbits hpos h =>
    have hnbits : (bytes * 2 ^ 8 + bits) / 2 ^ 8 * 8 + (bytes * 2 ^ 8 + bits) % 2 ^ 8 =
      bytes * 8 + bits := by omega
    change (writeBit (bytesAt mem p ((_ + 7) / 8)) _, (_ + 7) / 8) = _
    rw [hnbits, hmem.bytesAt_eq (by simp)]
  case enum w n hw h =>
    have hwidth : (247 * 2 ^ 8 + w) % 2 ^ 8 = w := by omega
    rw [type_enum (by omega)]
    change printOfType formats mem (some p) .enum (247 * 2 ^ 8 + w) 0 = _
    simp only [printOfType, hwidth, hw, if_true, orNull, hmem.uintKorr_eq h, printInt_natCast]
  case set w n hpos hw h =>
    have hwidth : (248 * 2 ^ 8 + w) % 2 ^ 8 = w := by omega
    rw [type_set hw]
    change (writeBit (bytesAt mem p ((248 * 2 ^ 8 + w) % 2 ^ 8)) _, _) = _
    rw [hwidth, hmem.bytesAt_eq (by simp)]
  case varchar length bytes hlength h => exact writeQuotedWithLength_eq hmem hlength h
  case char length bytes hlength h =>
    rw [type_char hlength, logEventPrintValue, stringType_char hlength]
    exact writeQuotedWithLength_eq hmem (by omega) h
  case blob w bytes hw h hsize =>
    change printOfType formats mem (some p) .blob w 0 = _
    simp only [printOfType, hw, and_self, if_true, orNull]
    exact printCounted_eq hmem h hsize
  case timestamp2 dec sec usec hdec hsec husec hdvd =>
    change (timevalToStr (timestampFromBinary (bytesAt mem p (timestampBinaryLength dec)) dec) dec,
      timestampBinaryLength dec) = _
    rw [hmem.bytesAt_eq (length_timestampToBinary _ hdec).symm,
      timestamp_roundtrip (hsec.trans (by decide)) husec hdec hdvd, length_timestampToBinary _ hdec]
  case datetime2 dec t hdec h hdvd =>
    change (writeQuoted (bytesOf (datetimeToStr (datetimeFromPacked (datetimePackedFromBinary
      (bytesAt mem p (datetimeBinaryLength dec)) dec)) dec)), datetimeBinaryLength dec) = _
    rw [hmem.bytesAt_eq (length_datetimePackedToBinary _ hdec).symm, datetime_roundtrip h hdec hdvd,
      writeQuoted_bytesOf (shown_datetimeToStr t dec), length_datetimePackedToBinary _ hdec]
  case time2 dec t hdec h hdvd =>
    change (writeQuoted (bytesOf (timeToStr (timeFromPacked (timePackedFromBinary
      (bytesAt mem p (timeBinaryLength dec)) dec)) dec)), timeBinaryLength dec) = _
    rw [hmem.bytesAt_eq (length_timePackedToBinary _ hdec).symm, time_roundtrip h hdec hdvd,
      writeQuoted_bytesOf (shown_timeToStr t dec), length_timePackedToBinary _ hdec]
  case float bytes h =>
    change ((formats.float (bytesAt mem p 4)).text, 4) = _
    rw [hmem.bytesAt_eq h.symm, h]
  case double bytes h =>
    change ((formats.double (bytesAt mem p 8)).text, 8) = _
    rw [hmem.bytesAt_eq h.symm, h]
  case newdecimal precision scale bytes hscale _ hpos h =>
    have hprecision : (precision * 2 ^ 8 + scale) / 2 ^ 8 = precision := by omega
    have hrest : (precision * 2 ^ 8 + scale) % 2 ^ 8 = scale := by omega
    change printOfType formats mem (some p) .newdecimal (precision * 2 ^ 8 + scale) 0 = _
    simp only [printOfType, orNull, hprecision, hrest]
    rw [hmem.bytesAt_eq h.symm, h]

theorem HoldsAt.low_byte {w n : ℕ} (h : HoldsAt mem p (storeLittle (w + 1) n)) :
    uintKorr 1 mem p = n % 256 := by
  have hhead : HoldsAt mem p ([UInt8.ofInt n] ++ storeLittle w (n / 256)) := h
  have hlow : ((UInt8.ofInt n).toNat : ℤ) = (n : ℤ) % 256 := by
    simp only [UInt8.ofInt, UInt8.toNat_ofNat']
    omega
  rw [uintKorr, (holdsAt_append.mp hhead).1.bytesAt_eq (n := 1) rfl, little_cons, little_nil]
  omega

/-- The check of the event's end counts no more than the bytes of the value. -/
theorem Column.Takes.calcFieldSize_le (h : c.Takes v) (hmem : HoldsAt mem p v.pack) :
    calcFieldSize mem c p ≤ v.pack.length := by
  have hbyte := uintKorr_lt mem 1 p
  cases h <;> simp only [Value.pack, length_storeLittle, length_storeBig, List.length_append]
    at hmem ⊢
  case bit bytes bits n hbytes hbits hpos h =>
    simp only [calcFieldSize, Column.type]
    split <;> omega
  case enum w n hw h =>
    have hcode : (247 * 2 ^ 8 + w) / 2 ^ 8 = 247 := by omega
    simp only [calcFieldSize, type_enum (show w < 256 by omega), hcode]
    change (247 * 2 ^ 8 + w) % 2 ^ 8 ≤ w
    omega
  case set w n hpos hw h =>
    have hcode : (248 * 2 ^ 8 + w) / 2 ^ 8 = 248 := by omega
    simp only [calcFieldSize, type_set hw, hcode]
    change (248 * 2 ^ 8 + w) % 2 ^ 8 ≤ w
    omega
  case varchar length bytes hlength h =>
    have hread := (holdsAt_append.mp hmem).1
    simp only [calcFieldSize, Column.type]
    unfold lengthBytes at hread ⊢
    split at hread
    · rw [if_neg (by omega), hread.uintKorr_eq (by omega), if_pos (by omega)]
    · rw [if_pos (by omega), hread.uintKorr_eq (by omega), if_neg (by omega)]
  case char length bytes hlength h =>
    -- a long string has a length of two bytes, of which only the low one is counted
    have hread := (holdsAt_append.mp hmem).1
    rw [calcFieldSize_string mem (type_char hlength)]
    unfold lengthBytes at hread ⊢
    split at hread
    · rw [hread.low_byte, if_pos (by omega)]
      omega
    · rw [hread.low_byte, if_neg (by omega)]
      omega
  case blob w bytes hw h hsize =>
    have hread := (holdsAt_append.mp hmem).1
    simp only [calcFieldSize, Column.type, hw, and_self, if_true, hread.uintKorr_eq h]
    omega
  case timestamp2 dec sec usec hdec _ _ _ => exact (length_timestampToBinary _ hdec).ge
  case datetime2 dec t hdec _ _ => exact (length_datetimePackedToBinary _ hdec).ge
  case time2 dec t hdec _ _ => exact (length_timePackedToBinary _ hdec).ge
  case float bytes h => exact h.ge
  case double bytes h => exact h.ge
  case newdecimal precision scale bytes hscale _ hpos h =>
    have hprecision : (precision * 2 ^ 8 + scale) / 2 ^ 8 = precision := by omega
    have hrest : (precision * 2 ^ 8 + scale) % 2 ^ 8 = scale := by omega
    simp only [calcFieldSize, Column.type, hprecision, hrest]
    omega
  all_goals exact le_refl _

theorem Column.Takes.print_null (h : c.Takes v) (mem : Memory) :
    logEventPrintValue formats mem none c.type c.metadata = ("NULL".toList, 1) := by
  cases h
  case enum w n hw h =>
    have hwidth : (247 * 2 ^ 8 + w) % 2 ^ 8 = w := by omega
    rw [type_enum (by omega)]
    change printOfType formats mem none .enum (247 * 2 ^ 8 + w) 0 = _
    simp only [printOfType, hwidth, hw, if_true, orNull]
  case set w n hpos hw h =>
    rw [type_set hw]
    rfl
  case char length bytes hlength h =>
    rw [type_char hlength, logEventPrintValue, stringType_char hlength]
    rfl
  case blob w bytes hw h hsize =>
    change printOfType formats mem none .blob w 0 = _
    simp only [printOfType, hw, and_self, if_true, orNull]
  all_goals rfl

theorem Value.literal_line (v : Value) : '\n' ∉ v.literal formats := by
  have hquoted : ∀ {t : Text}, Shown t → '\n' ∉ '\'' :: t ++ ['\''] := by
    intro t ht hmem
    have hnl : '\n' ∈ t := by simpa using hmem
    exact absurd (ht '\n' hnl).1 (by decide)
  cases v with
  | integer w n => exact writeSintAndUint_line _ _
  | timestamp n => exact printInt_line _
  | datetime n => exact printDatetime_line _
  | time n => exact printTime_line _
  | newdate n => exact printNewdate_line _
  | year n => exact printPadded_line _ _
  | bit nbits n => exact writeBit_line _ _
  | enum w n => exact decimal_line _
  | set w n => exact writeBit_line _ _
  | counted w bytes => exact writeQuoted_line _
  | timestamp2 dec sec usec => exact timevalToStr_line _ _
  | datetime2 dec t => exact hquoted (shown_datetimeToStr t dec)
  | time2 dec t => exact hquoted (shown_timeToStr t dec)
  | float bytes => exact (formats.float bytes).line
  | double bytes => exact (formats.double bytes).line
  | newdecimal precision scale bytes => exact (formats.newdecimal precision scale bytes).line

/-- The text of a field, which may be null. -/
def fieldLiteral (v : Option Value) : Line :=
  match v with
  | none => ⟨"NULL".toList, by decide⟩
  | some v => ⟨v.literal formats, v.literal_line formats⟩

def markNull (nullBits nullMask : ℕ) (isNull : Bool) : ℕ :=
  if isNull then nullBits ||| nullMask else nullBits &&& (0xFF ^^^ nullMask)

/-- The loop of `pack_row` over the fields of the image: its null bytes and its values. -/
def packFields : List (Option Value) → ℕ → ℕ → List UInt8 × List UInt8
  | [], nullBits, nullMask => (if 1 < nullMask then [UInt8.ofNat nullBits] else [], [])
  | v :: fields, nullBits, nullMask =>
    let nullBits := markNull nullBits nullMask v.isNone
    let rest := if 2 * nullMask &&& 0xFF = 0 then packFields fields 0xFF 1
      else packFields fields nullBits (2 * nullMask)
    (if 2 * nullMask &&& 0xFF = 0 then UInt8.ofNat nullBits :: rest.1 else rest.1,
      v.elim [] Value.pack ++ rest.2)

/-- `pack_row` -/
def packRow (fields : List (Option Value)) : List UInt8 :=
  (packFields fields 0xFF 1).1 ++ (packFields fields 0xFF 1).2

theorem packFields_values (fields : List (Option Value)) (nullBits nullMask : ℕ) :
    (packFields fields nullBits nullMask).2 = fields.flatMap fun v => v.elim [] Value.pack := by
  induction fields generalizing nullBits nullMask with
  | nil => rfl
  | cons v fields ih =>
    simp only [packFields, List.flatMap_cons]
    split <;> rw [ih]

def nullBit (bytes : List UInt8) (k : ℕ) : Bool := (bytes.getD (k / 8) 0).toNat.testBit (k % 8)

theorem testBit_nullBits {nullBits j i : ℕ} (hi : i < 8) (isNull : Bool) :
    (markNull nullBits (2 ^ j) isNull).testBit i =
      if i = j then isNull else nullBits.testBit i := by
  have hff : ∀ i < 8, (0xFF : ℕ).testBit i = true := by decide
  unfold markNull
  cases isNull with
  | true =>
    simp only [if_true, Nat.testBit_or, Nat.testBit_two_pow, eq_comm (a := j)]
    split <;> simp [*]
  | false =>
    simp only [Bool.false_eq_true, if_false, Nat.testBit_and, Nat.testBit_xor, hff i hi,
      Nat.testBit_two_pow, eq_comm (a := j)]
    split <;> simp [*]

theorem nullBits_lt {nullBits j : ℕ} (hj : j < 8) (hlt : nullBits < 256) (isNull : Bool) :
    markNull nullBits (2 ^ j) isNull < 256 := by
  unfold markNull
  split
  · exact Nat.or_lt_two_pow (n := 8) hlt (Nat.pow_lt_pow_right (by omega) hj)
  · exact lt_of_le_of_lt Nat.and_le_left hlt

theorem nullBit_cons {b : ℕ} (hb : b < 256) (bytes : List UInt8) :
    (∀ i < 8, nullBit (UInt8.ofNat b :: bytes) i = b.testBit i) ∧
    ∀ k, nullBit (UInt8.ofNat b :: bytes) (k + 8) = nullBit bytes k := by
  constructor
  · intro i hi
    have hdiv : i / 8 = 0 := by omega
    rw [nullBit, hdiv, List.getD_cons_zero, UInt8.toNat_ofNat', Nat.mod_eq_of_lt hb,
      Nat.mod_eq_of_lt hi]
  · intro k
    have hdiv : (k + 8) / 8 = k / 8 + 1 := by omega
    rw [nullBit, nullBit, hdiv, List.getD_cons_succ, Nat.add_mod_right]

theorem packFields_last (v : Option Value) (fields : List (Option Value)) (nullBits : ℕ) :
    (packFields (v :: fields) nullBits (2 ^ 7)).1 =
      UInt8.ofNat (markNull nullBits (2 ^ 7) v.isNone) :: (packFields fields 0xFF (2 ^ 0)).1 := rfl

theorem packFields_next (v : Option Value) (fields : List (Option Value)) (nullBits : ℕ) {j : ℕ}
    (hj : j < 7) : (packFields (v :: fields) nullBits (2 ^ j)).1 =
      (packFields fields (markNull nullBits (2 ^ j) v.isNone) (2 ^ (j + 1))).1 := by
  have hmore : ∀ j < 7, 2 * 2 ^ j &&& 0xFF ≠ 0 := by decide
  simp only [packFields, hmore j hj, if_false, Nat.pow_succ']

/-- The null bit of each field, in the order of the fields. -/
theorem packFields_nullBytes (fields : List (Option Value)) (nullBits : ℕ) {j : ℕ} (hj : j < 8)
    (hlt : nullBits < 256) :
    (packFields fields nullBits (2 ^ j)).1.length = (j + fields.length + 7) / 8 ∧
    (∀ i < j, nullBit (packFields fields nullBits (2 ^ j)).1 i = nullBits.testBit i) ∧
    ∀ k (hk : k < fields.length),
      nullBit (packFields fields nullBits (2 ^ j)).1 (j + k) = (fields.get ⟨k, hk⟩).isNone := by
  induction fields generalizing nullBits j with
  | nil =>
    refine ⟨?_, ?_, fun k hk => absurd hk (by simp)⟩
    · cases j with
      | zero => rfl
      | succ j =>
        have hmask : 1 < 2 ^ (j + 1) := Nat.one_lt_two_pow (by omega)
        simp only [packFields, hmask, if_true, List.length_cons, List.length_nil]
        omega
    · intro i hi
      have hmask : 1 < 2 ^ j := Nat.one_lt_two_pow (by omega)
      simp only [packFields, hmask, if_true]
      exact (nullBit_cons hlt []).1 i (by omega)
  | cons v fields ih =>
    have hbit : ∀ i < 8, (markNull nullBits (2 ^ j) v.isNone).testBit i =
        if i = j then v.isNone else nullBits.testBit i := fun i hi => testBit_nullBits hi v.isNone
    have hlt' := nullBits_lt hj hlt v.isNone
    obtain rfl | h7 : j = 7 ∨ j < 7 := by omega
    · obtain ⟨hlength, -, hrest⟩ := ih 0xFF (j := 0) (by omega) (by omega)
      obtain ⟨hfirst, hnext⟩ := nullBit_cons hlt' (packFields fields 0xFF (2 ^ 0)).1
      rw [packFields_last]
      refine ⟨?_, ?_, ?_⟩
      · rw [List.length_cons, hlength, List.length_cons]
        omega
      · intro i hi
        rw [hfirst i (by omega), hbit i (by omega), if_neg (by omega)]
      · intro k hk
        cases k with
        | zero =>
          rw [Nat.add_zero, hfirst 7 (by omega), hbit 7 (by omega), if_pos rfl]
          rfl
        | succ k =>
          have hk' := hrest k (by simpa using hk)
          have hindex : 7 + (k + 1) = 0 + k + 8 := by omega
          rw [hindex, hnext, hk']
          rfl
    · obtain ⟨hlength, hlow, hrest⟩ := ih _ (j := j + 1) (by omega) hlt'
      rw [packFields_next v fields nullBits h7]
      refine ⟨?_, ?_, ?_⟩
      · rw [hlength, List.length_cons]
        omega
      · intro i hi
        rw [hlow i (by omega), hbit i (by omega), if_neg (by omega)]
      · intro k hk
        cases k with
        | zero =>
          change nullBit (packFields fields (markNull nullBits (2 ^ j) v.isNone)
            (2 ^ (j + 1))).1 j = _
          rw [hlow j (by omega), hbit j hj, if_pos rfl]
          rfl
        | succ k =>
          have hk' := hrest k (by simpa using hk)
          rw [← Nat.add_assoc, Nat.add_right_comm, hk']
          rfl

/-- The fields of an image that are packed, from column `i` on. -/
def packedFields (cols : List Bool) : ℕ → List (Option Value) → List (Option Value)
  | _, [] => []
  | i, v :: image =>
    if cols.getD i false then v :: packedFields cols (i + 1) image
    else packedFields cols (i + 1) image

/-- The cells in which they are printed. -/
def imageCells (cols : List Bool) : ℕ → List (Option Value) → List Cell
  | _, [] => []
  | i, v :: image =>
    if cols.getD i false then ⟨i + 1, fieldLiteral formats v⟩ :: imageCells cols (i + 1) image
    else imageCells cols (i + 1) image

/-- A column takes a value, and null as soon as it takes any value. -/
def Column.TakesField (c : Column) (v : Option Value) : Prop :=
  v.elim (∃ w, c.Takes w) c.Takes

def fieldBytes (v : Option Value) : List UInt8 := v.elim [] Value.pack

def cellLine (c : Cell) : Text :=
  textLine ("###   @".toList ++ decimal c.column ++ '=' :: c.value.text)

theorem cellLine_append (i : ℕ) (l : Line) (t : Text) :
    columnText i ++ l.text ++ '\n' :: t = cellLine ⟨i + 1, l⟩ ++ t := by
  have hassoc : ∀ start digits value : Text, start ++ digits ++ ['='] ++ value ++ '\n' :: t =
      start ++ digits ++ '=' :: value ++ ['\n'] ++ t := by simp
  unfold cellLine textLine columnText
  apply hassoc

section Image
variable {cols : List Bool} {rowsEnd value0 : ℕ}

/-- The null bits of the fields stand from bit `k` on. -/
def NullBitsAt (mem : Memory) (value0 k : ℕ) (fields : List (Option Value)) : Prop :=
  ∀ j (hj : j < fields.length), (mem (value0 + (k + j) / 8)).toNat.testBit ((k + j) % 8) =
    (fields.get ⟨j, hj⟩).isNone

theorem NullBitsAt.head {k : ℕ} {v : Option Value} {fields : List (Option Value)}
    (h : NullBitsAt mem value0 k (v :: fields)) (value : ℕ) :
    fieldPtr mem value0 k value = if v.isNone then none else some value := by
  have hbit := h 0 (by simp)
  simp only [Nat.add_zero, List.get_eq_getElem, List.getElem_cons_zero] at hbit
  rw [fieldPtr, hbit]

theorem NullBitsAt.tail {k : ℕ} {v : Option Value} {fields : List (Option Value)}
    (h : NullBitsAt mem value0 k (v :: fields)) : NullBitsAt mem value0 (k + 1) fields := by
  intro j hj
  have hbit := h (j + 1) (by simpa using hj)
  rw [Nat.add_assoc, Nat.add_comm 1, hbit]
  rfl

/-- The fields of an image are printed as its cells. -/
theorem printColumns_eq {td : List Column} {image : List (Option Value)}
    (htakes : List.Forall₂ Column.TakesField td image) (i k value : ℕ)
    (hnull : NullBitsAt mem value0 k (packedFields cols i image))
    (hbytes : HoldsAt mem value ((packedFields cols i image).flatMap fieldBytes))
    (hend : value + ((packedFields cols i image).flatMap fieldBytes).length ≤ rowsEnd) :
    printColumns formats mem rowsEnd cols value0 td i k value =
      ((imageCells formats cols i image).flatMap cellLine,
        value + ((packedFields cols i image).flatMap fieldBytes).length - value0) := by
  induction htakes generalizing i k value with
  | nil => rfl
  | @cons c v td image hfield htakes ih =>
    cases hi : cols.getD i false with
    | false =>
      simp only [packedFields, imageCells, hi, Bool.false_eq_true, if_false] at hnull hbytes hend ⊢
      rw [printColumns_skip formats hi]
      exact ih (i + 1) k value hnull hbytes hend
    | true =>
      simp only [packedFields, imageCells, hi, if_true, List.flatMap_cons] at hnull hbytes hend ⊢
      obtain ⟨hhead, hrest⟩ := holdsAt_append.mp hbytes
      rw [List.length_append] at hend ⊢
      have hptr := hnull.head value
      have ih := ih (i + 1) (k + 1) (value + (fieldBytes v).length) hnull.tail hrest (by omega)
      cases v with
      | none =>
        obtain ⟨w, hw⟩ := hfield
        have hline := cellLine_append i (fieldLiteral formats none)
          ((imageCells formats cols (i + 1) image).flatMap cellLine)
        simp only [fieldBytes, Option.elim_none, List.length_nil, Nat.add_zero,
          Nat.zero_add] at ih ⊢
        rw [printColumns_null formats hi hptr, hw.print_null formats mem, ih, ← hline]
        rfl
      | some v =>
        have hvalue := Column.Takes.print_value formats hfield hhead
        have hsize := Column.Takes.calcFieldSize_le hfield hhead
        have hpos := Column.Takes.length_pos hfield
        have hline := cellLine_append i (fieldLiteral formats (some v))
          ((imageCells formats cols (i + 1) image).flatMap cellLine)
        simp only [fieldBytes, Option.elim_some] at hhead hend ih ⊢
        rw [printColumns_value formats hi hptr, hvalue, ← hline]
        dsimp only
        rw [if_neg (by omega), if_neg (by omega), ih, Nat.add_assoc]
        rfl

theorem HoldsAt.getD {p i : ℕ} {bs : List UInt8} (h : HoldsAt mem p bs) (hi : i < bs.length) :
    bs.getD i 0 = mem (p + i) := by
  have hget : (bytesAt mem p bs.length).getD i 0 = mem (p + i) := by
    simp [bytesAt, List.getD, hi]
  rw [h] at hget
  exact hget

theorem length_packedFields {image : List (Option Value)} {i : ℕ}
    (h : (cols.drop i).length = image.length) :
    (packedFields cols i image).length = (cols.drop i).count true := by
  induction image generalizing i with
  | nil =>
    rw [List.length_nil, List.length_eq_zero_iff] at h
    rw [h]
    rfl
  | cons v image ih =>
    have hi : i < cols.length := by
      rw [List.length_drop, List.length_cons] at h
      omega
    rw [List.drop_eq_getElem_cons hi] at h ⊢
    have hget : cols.getD i false = cols[i] := by simp [hi]
    have ih := ih (i := i + 1) (Nat.succ_injective h)
    rw [packedFields, hget, List.count_cons, ← ih]
    cases cols[i] <;> simp

/-- One image is printed back. -/
theorem printVerboseOneRow_eq {td : List Column} {image : List (Option Value)}
    (htakes : List.Forall₂ Column.TakesField td image) (hcols : cols.length = td.length)
    {value : ℕ} (hbytes : HoldsAt mem value (packRow (packedFields cols 0 image)))
    (hend : value + (packRow (packedFields cols 0 image)).length ≤ rowsEnd) (clause : Text) :
    printVerboseOneRow formats mem rowsEnd td cols value clause =
      (printImage clause (imageCells formats cols 0 image),
        (packRow (packedFields cols 0 image)).length) := by
  have hcount : (packedFields cols 0 image).length = (cols.drop 0).count true :=
    length_packedFields (by rw [List.drop_zero, hcols, htakes.length_eq])
  rw [List.drop_zero] at hcount
  obtain ⟨hlength, -, hnull⟩ :=
    packFields_nullBytes (packedFields cols 0 image) 0xFF (j := 0) (by omega) (by omega)
  rw [pow_zero, Nat.zero_add] at hlength
  obtain ⟨hnulls, hvalues⟩ := holdsAt_append.mp hbytes
  rw [packFields_values] at hvalues
  have hwidth : (bitmapBitsSet cols + 7) / 8 =
      (packFields (packedFields cols 0 image) 0xFF 1).1.length := by
    rw [bitmapBitsSet, ← hcount, hlength]
  have hbits : NullBitsAt mem value 0 (packedFields cols 0 image) := by
    intro j hj
    have hj' : j / 8 < (packFields (packedFields cols 0 image) 0xFF 1).1.length := by omega
    rw [← hnull j hj, nullBit, pow_zero, Nat.zero_add, hnulls.getD hj']
  rw [packRow, List.length_append, packFields_values] at hend
  rw [printVerboseOneRow, hwidth, printColumns_eq formats htakes 0 0 _ hbits hvalues
    (by simpa [Nat.add_assoc, fieldBytes] using hend)]
  rw [packRow, List.length_append, packFields_values, Nat.add_assoc, Nat.add_sub_cancel_left]
  rfl

end Image

/-- The images of a row. The second is packed for an update only. -/
structure PackedRow where
  image1 : List (Option Value)
  image2 : List (Option Value)
  deriving DecidableEq, Repr

def rowBytes (e : RowsData) (row : PackedRow) : List UInt8 :=
  packRow (packedFields e.cols 0 row.image1) ++
    if e.type = .update then packRow (packedFields e.colsAi 0 row.image2) else []

def PackedRow.toRow (e : RowsData) (row : PackedRow) : Row :=
  ⟨imageCells formats e.cols 0 row.image1, imageCells formats e.colsAi 0 row.image2⟩

/-- A bitmap of the columns of the table, not all of them left out. -/
structure BitmapFits (td : List Column) (cols : List Bool) : Prop where
  length_eq : cols.length = td.length
  pos : 0 < bitmapBitsSet cols

/-- The columns take the values of a row. -/
structure RowTakes (td : List Column) (e : RowsData) (row : PackedRow) : Prop where
  cols : BitmapFits td e.cols
  image1 : List.Forall₂ Column.TakesField td row.image1
  colsAi : e.type = .update → BitmapFits td e.colsAi
  image2 : e.type = .update → List.Forall₂ Column.TakesField td row.image2

section Rows
variable {rowsEnd : ℕ} {td : List Column} {e : RowsData}

theorem packRow_pos {cols : List Bool} {image : List (Option Value)} (h : BitmapFits td cols)
    (htakes : List.Forall₂ Column.TakesField td image) :
    0 < (packRow (packedFields cols 0 image)).length := by
  have hcount : (packedFields cols 0 image).length = (cols.drop 0).count true :=
    length_packedFields (by rw [List.drop_zero, h.length_eq, htakes.length_eq])
  obtain ⟨hlength, -⟩ :=
    packFields_nullBytes (packedFields cols 0 image) 0xFF (j := 0) (by omega) (by omega)
  have hpos := h.pos
  rw [List.drop_zero, ← bitmapBitsSet] at hcount
  rw [pow_zero] at hlength
  rw [packRow, List.length_append]
  omega

theorem rowBytes_pos {row : PackedRow} (h : RowTakes td e row) : 0 < (rowBytes e row).length := by
  have hpos := packRow_pos h.cols h.image1
  rw [rowBytes, List.length_append]
  omega

theorem rows_eq_nil_iff {rows : List PackedRow} (h : ∀ row ∈ rows, RowTakes td e row) :
    (rows.flatMap (rowBytes e)).length = 0 ↔ rows = [] := by
  cases rows with
  | nil => simp
  | cons row rows =>
    have hpos := rowBytes_pos (h row List.mem_cons_self)
    rw [List.flatMap_cons, List.length_append]
    constructor
    · intro hzero
      omega
    · intro hnil
      cases hnil

/-- The images of a row are printed back. -/
theorem printRowImages_eq {row : PackedRow} (h : RowTakes td e row) {value : ℕ}
    (hbytes : HoldsAt mem value (rowBytes e row))
    (hend : value + (rowBytes e row).length ≤ rowsEnd) (name : Text) :
    textLine ("### ".toList ++ sqlCommand e.type ++ ' ' :: name) ++
        (printRowImages formats mem rowsEnd td e value).1 =
      printRow e.type name (row.toRow formats e) ∧
    (printRowImages formats mem rowsEnd td e value).2 = (rowBytes e row).length := by
  obtain ⟨hbytes₁, hbytes₂⟩ := holdsAt_append.mp hbytes
  have hlength : (rowBytes e row).length = (packRow (packedFields e.cols 0 row.image1)).length +
      (if e.type = .update then packRow (packedFields e.colsAi 0 row.image2) else []).length :=
    List.length_append
  have hpos₁ := packRow_pos h.cols h.image1
  have hend₁ : value + (packRow (packedFields e.cols 0 row.image1)).length ≤ rowsEnd := by omega
  have hfirst := printVerboseOneRow_eq formats h.image1 h.cols.length_eq hbytes₁ hend₁
    (sqlClause1 e.type)
  unfold printRowImages
  rw [hfirst]
  dsimp only
  rw [if_neg (by omega), hlength]
  by_cases htype : e.type = .update
  · rw [if_pos htype] at hbytes₂ hlength
    have hpos₂ := packRow_pos (h.colsAi htype) (h.image2 htype)
    have hend₂ : value + (packRow (packedFields e.cols 0 row.image1)).length +
        (packRow (packedFields e.colsAi 0 row.image2)).length ≤ rowsEnd := by omega
    have hsecond := printVerboseOneRow_eq formats (h.image2 htype) (h.colsAi htype).length_eq
      hbytes₂ hend₂ "### SET".toList
    rw [if_pos htype, if_pos htype, hsecond]
    dsimp only
    rw [if_neg (by omega), htype]
    exact ⟨rfl, rfl⟩
  · rw [if_neg htype, if_neg htype]
    cases hcase : e.type with
    | update => exact absurd hcase htype
    | write => exact ⟨rfl, rfl⟩
    | delete => exact ⟨rfl, rfl⟩

/-- The rows are printed back. -/
theorem printRows_eq {rows : List PackedRow} (h : ∀ row ∈ rows, RowTakes td e row) {value : ℕ}
    (hbytes : HoldsAt mem value (rows.flatMap (rowBytes e)))
    (hend : value + (rows.flatMap (rowBytes e)).length = rowsEnd) (name : Text) :
    printRows formats mem rowsEnd td e name value =
      ⟨(rows.map (PackedRow.toRow formats e)).flatMap (printRow e.type name), rows.length,
        false⟩ := by
  induction rows generalizing value with
  | nil =>
    rw [printRows, if_neg (by simp at hend; omega)]
    rfl
  | cons row rows ih =>
    obtain ⟨hrow, hrows⟩ := List.forall_mem_cons.mp h
    rw [List.flatMap_cons] at hbytes hend
    rw [List.length_append] at hend
    obtain ⟨hhead, hrest⟩ := holdsAt_append.mp hbytes
    have hpos := rowBytes_pos hrow
    have hle : value + (rowBytes e row).length ≤ rowsEnd := by omega
    obtain ⟨htext, hsize⟩ := printRowImages_eq formats hrow hhead hle name
    have ih := ih hrows hrest (by omega)
    rw [printRows, if_pos (by omega)]
    dsimp only
    rw [hsize, if_neg (by omega), ih, htext]
    rfl

/-- The rows event that is printed for packed rows. -/
def rowsEventOf (e : RowsData) (stmtEnd : Bool) (rows : List PackedRow) : RowsEvent where
  type := e.type
  preGa := false
  tableId := e.tableId
  stmtEnd := stmtEnd
  extra := e.extraRowData.map fun extra => ⟨extraRowText extra, extraRowText_line extra⟩
  rows := rows.map (PackedRow.toRow formats e)

def tableNames (tables : List (ℕ × TableDef)) : List (ℕ × Text × Text) :=
  tables.map fun t => (t.1, t.2.db, t.2.table)

theorem lookup_tableNames (tables : List (ℕ × TableDef)) (id : ℕ) :
    (tableNames tables).lookup id = (tables.lookup id).map fun t => (t.db, t.table) := by
  induction tables with
  | nil => rfl
  | cons t tables ih =>
    obtain ⟨i, t⟩ := t
    simp only [tableNames, List.map_cons, List.lookup_cons]
    cases id == i with
    | true => rfl
    | false => exact ih

theorem printVerbose_count (tables : List (ℕ × Text × Text)) (ev : RowsEvent) :
    (printVerbose tables ev).2 = if tables.lookup ev.tableId = none then 0 else ev.rows.length := by
  unfold printVerbose
  cases tables.lookup ev.tableId with
  | none => rfl
  | some t =>
    dsimp only
    split
    · next hempty => simp [hempty.2]
    · simp

theorem extraRowLine_eq (e : RowsData) (stmtEnd : Bool) (rows : List PackedRow) :
    extraRowLine e = extraText (rowsEventOf formats e stmtEnd rows) := by
  unfold extraRowLine extraText rowsEventOf
  cases e.extraRowData <;> rfl

/-- What the master packed into a rows event is what the event is printed as. -/
theorem printVerboseRows_eq {tables : List (ℕ × TableDef)} {rows : List PackedRow}
    (h : ∀ map, tables.lookup e.tableId = some map → ∀ row ∈ rows, RowTakes map.columns e row)
    (hbytes : HoldsAt mem 0 (rows.flatMap (rowBytes e)))
    (hend : (rows.flatMap (rowBytes e)).length = rowsEnd) (stmtEnd : Bool) :
    printVerboseRows formats mem rowsEnd tables e =
      let printed := printVerbose (tableNames tables) (rowsEventOf formats e stmtEnd rows)
      ⟨printed.1, printed.2, false⟩ := by
  have hlookup : (tableNames tables).lookup (rowsEventOf formats e stmtEnd rows).tableId =
    (tables.lookup e.tableId).map fun t => (t.db, t.table) := lookup_tableNames tables e.tableId
  have hextra := extraRowLine_eq formats e stmtEnd rows
  have hcount := printVerbose_count (tableNames tables) (rowsEventOf formats e stmtEnd rows)
  unfold printVerboseRows
  cases hl : tables.lookup e.tableId with
  | none =>
    rw [hl, Option.map_none] at hlookup
    rw [hlookup, if_pos rfl] at hcount
    dsimp only
    rw [hcount, printVerbose_unknown hlookup, hextra]
    rfl
  | some map =>
    rw [hl, Option.map_some] at hlookup
    rw [hlookup, if_neg (by simp)] at hcount
    have hrows := h map hl
    have hempty := rows_eq_nil_iff hrows
    rw [hend] at hempty
    have hnil : (rowsEventOf formats e stmtEnd rows).rows = [] ↔ rows = [] := by
      simp [rowsEventOf]
    dsimp only
    rw [hcount, printVerbose_known hlookup, hextra, printRows_eq formats hrows hbytes (by omega)]
    by_cases hwrite : e.type = .write ∧ rowsEnd = 0
    · have hwrite' : (rowsEventOf formats e stmtEnd rows).type = .write ∧
          (rowsEventOf formats e stmtEnd rows).rows = [] :=
        ⟨hwrite.1, hnil.mpr (hempty.mp hwrite.2)⟩
      rw [if_pos hwrite, if_pos hwrite', hwrite'.2]
      rfl
    · have hwrite' : ¬((rowsEventOf formats e stmtEnd rows).type = .write ∧
          (rowsEventOf formats e stmtEnd rows).rows = []) :=
        fun h => hwrite ⟨h.1, hempty.mpr (hnil.mp h.2)⟩
      rw [if_neg hwrite, if_neg hwrite']
      simp [rowsEventOf]

/-- A table of a number and a string, in which a row is updated whose string was null. -/
def updateTables : List (ℕ × TableDef) :=
  [(4, ⟨"db".toList, "t".toList, [⟨.long, 0⟩, ⟨.varchar, 20⟩]⟩)]

def updateData : RowsData := ⟨.update, 4, none, [true, true], [false, true]⟩

def namedRow (bytes : List UInt8) : PackedRow :=
  ⟨[some (.integer 4 7), none], [none, some (.counted 1 bytes)]⟩

def updateRow : PackedRow := namedRow [97, 98]

theorem namedRow_takes {bytes : List UInt8} (h : bytes.length ≤ 20) :
    ∀ map, updateTables.lookup updateData.tableId = some map →
      ∀ row ∈ [namedRow bytes], RowTakes map.columns updateData row := by
  intro map hmap row hrow
  obtain rfl := Option.some.inj hmap
  obtain rfl := List.mem_singleton.mp hrow
  have hlong : Column.TakesField ⟨.long, 0⟩ (some (.integer 4 7)) := .long (by decide)
  have hvarchar : Column.TakesField ⟨.varchar, 20⟩ (some (.counted 1 bytes)) :=
    .varchar (by decide) h
  exact ⟨⟨rfl, by decide⟩, .cons hlong (.cons ⟨_, hvarchar⟩ .nil), fun _ => ⟨rfl, by decide⟩,
    fun _ => .cons ⟨_, hlong⟩ (.cons hvarchar .nil)⟩

theorem printVerboseRows_eq_update :
    printVerboseRows noFormats (memoryOf (rowBytes updateData updateRow)) 9 updateTables
      updateData =
      let printed := printVerbose (tableNames updateTables)
        (rowsEventOf noFormats updateData true [updateRow])
      ⟨printed.1, printed.2, false⟩ :=
  printVerboseRows_eq noFormats (namedRow_takes (by decide)) (holdsAt_memoryOf _)
    (by decide +kernel) true

end Rows

end BinlogCapture
