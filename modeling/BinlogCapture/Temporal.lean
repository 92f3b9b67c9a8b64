import BinlogCapture.Lib.Bytes
import BinlogCapture.Lib.CString
import Mathlib.Tactic.IntervalCases

/-! `TIME`, `DATETIME` and `TIMESTAMP` values with a fraction of a second: packed into a number,
as bytes of a row, and as text. -/
namespace BinlogCapture
open Bytes CString

/-- `MYSQL_TIME` -/
structure MysqlTime where
  neg : Bool
  year : ℕ
  month : ℕ
  day : ℕ
  hour : ℕ
  minute : ℕ
  second : ℕ
  secondPart : ℕ
  deriving DecidableEq, Repr

/-- `MY_PACKED_TIME_MAKE` -/
def myPackedTimeMake (i f : ℤ) : ℤ := i * 2 ^ 24 + f

/-- `MY_PACKED_TIME_GET_INT_PART`, an arithmetic shift. -/
def intPart (x : ℤ) : ℤ := x / 2 ^ 24

/-- `MY_PACKED_TIME_GET_FRAC_PART`, with the sign of the number. -/
def fracPart (x : ℤ) : ℤ := x.tmod (2 ^ 24)

def timeToPacked (t : MysqlTime) : ℤ :=
  let hms := (t.day * 24 + t.hour) <<< 12 ||| t.minute <<< 6 ||| t.second
  let tmp := myPackedTimeMake hms t.secondPart
  if t.neg then -tmp else tmp

def timeFromPacked (tmp : ℤ) : MysqlTime :=
  let hms := tmp.natAbs / 2 ^ 24
  { neg := decide (tmp < 0), year := 0, month := 0, day := 0
    hour := hms / 2 ^ 12 % 2 ^ 10
    minute := hms / 2 ^ 6 % 2 ^ 6
    second := hms % 2 ^ 6
    secondPart := tmp.natAbs % 2 ^ 24 }

def timeBinaryLength (dec : ℕ) : ℕ := 3 + (dec + 1) / 2

def timefOfs : ℤ := 0x800000000000
def timefIntOfs : ℤ := 0x800000

/-- `my_time_packed_to_binary` -/
def timePackedToBinary (nr : ℤ) (dec : ℕ) : List UInt8 :=
  match dec with
  | 1 | 2 => storeBig 3 (timefIntOfs + intPart nr) ++ storeBig 1 ((fracPart nr).tdiv 10000)
  | 3 | 4 => storeBig 3 (timefIntOfs + intPart nr) ++ storeBig 2 ((fracPart nr).tdiv 100)
  | 5 | 6 => storeBig 6 (nr + timefOfs)
  | _ => storeBig 3 (timefIntOfs + intPart nr)

/-- The fraction of a negative value is stored in reverse order, as `base` minus its absolute
value. -/
def packedOfReverse (int : ℤ) (frac base : ℕ) (unit : ℤ) : ℤ :=
  if int < 0 ∧ frac ≠ 0 then myPackedTimeMake (int + 1) ((frac - base) * unit)
  else myPackedTimeMake int (frac * unit)

/-- `my_time_packed_from_binary` -/
def timePackedFromBinary (ptr : List UInt8) (dec : ℕ) : ℤ :=
  let int := (big (ptr.take 3) : ℤ) - timefIntOfs
  match dec with
  | 1 | 2 => packedOfReverse int (big ((ptr.drop 3).take 1)) 0x100 10000
  | 3 | 4 => packedOfReverse int (big ((ptr.drop 3).take 2)) 0x10000 100
  | 5 | 6 => (big (ptr.take 6) : ℤ) - timefOfs
  | _ => myPackedTimeMake int 0

def datetimeToPacked (t : MysqlTime) : ℤ :=
  let ymd := (t.year * 13 + t.month) <<< 5 ||| t.day
  let hms := t.hour <<< 12 ||| t.minute <<< 6 ||| t.second
  let tmp := myPackedTimeMake ((ymd <<< 17 ||| hms : ℕ) : ℤ) t.secondPart
  if t.neg then -tmp else tmp

def datetimeFromPacked (tmp : ℤ) : MysqlTime :=
  let ymdhms := tmp.natAbs / 2 ^ 24
  let ymd := ymdhms / 2 ^ 17
  let ym := ymd / 2 ^ 5
  let hms := ymdhms % 2 ^ 17
  { neg := decide (tmp < 0)
    year := ym / 13
    month := ym % 13
    day := ymd % 2 ^ 5
    hour := hms / 2 ^ 12
    minute := hms / 2 ^ 6 % 2 ^ 6
    second := hms % 2 ^ 6
    secondPart := tmp.natAbs % 2 ^ 24 }

def datetimeBinaryLength (dec : ℕ) : ℕ := 5 + (dec + 1) / 2

def datetimefIntOfs : ℤ := 0x8000000000

/-- The bytes of a fraction behind a `DATETIME` or a `TIMESTAMP`. -/
def storeFraction (frac : ℤ) (dec : ℕ) : List UInt8 :=
  match dec with
  | 1 | 2 => storeBig 1 (frac.tdiv 10000)
  | 3 | 4 => storeBig 2 (frac.tdiv 100)
  | 5 | 6 => storeBig 3 frac
  | _ => []

/-- The fraction in such bytes, of which a single one is read by `readByte`. -/
def readFraction (readByte : ℕ → ℤ) (ptr : List UInt8) (dec : ℕ) : ℤ :=
  match dec with
  | 1 | 2 => readByte (big (ptr.take 1)) * 10000
  | 3 | 4 => signed 2 (big (ptr.take 2)) * 100
  | 5 | 6 => signed 3 (big (ptr.take 3))
  | _ => 0

/-- `my_datetime_packed_to_binary` -/
def datetimePackedToBinary (nr : ℤ) (dec : ℕ) : List UInt8 :=
  storeBig 5 (intPart nr + datetimefIntOfs) ++ storeFraction (fracPart nr) dec

/-- `my_datetime_packed_from_binary` -/
def datetimePackedFromBinary (ptr : List UInt8) (dec : ℕ) : ℤ :=
  myPackedTimeMake ((big (ptr.take 5) : ℤ) - datetimefIntOfs)
    (readFraction (signed 1) (ptr.drop 5) dec)

/-- `struct timeval` -/
structure Timeval where
  sec : ℕ
  usec : ℤ
  deriving DecidableEq, Repr

def timestampBinaryLength (dec : ℕ) : ℕ := 4 + (dec + 1) / 2

/-- `my_timestamp_to_binary` -/
def timestampToBinary (tm : Timeval) (dec : ℕ) : List UInt8 :=
  storeBig 4 tm.sec ++ storeFraction tm.usec dec

/-- `my_timestamp_from_binary` -/
def timestampFromBinary (ptr : List UInt8) (dec : ℕ) : Timeval :=
  { sec := big (ptr.take 4), usec := readFraction (fun n => n) (ptr.drop 4) dec }

/-- `fmt_number`: the last digits of a number. -/
def fmtNumber (val : ℕ) : ℕ → Text
  | 0 => []
  | digits + 1 => fmtNumber (val / 10) digits ++ [Nat.digitChar (val % 10)]

/-- `sec_part_shift`, converted to `uint`. -/
def secPartShift (secondPart : ℤ) (digits : ℕ) : ℕ :=
  (secondPart.tdiv (10 ^ (6 - digits)) % 2 ^ 32).toNat

def printFraction (secondPart : ℤ) (digits : ℕ) : Text :=
  if digits = 0 then [] else '.' :: fmtNumber (secPartShift secondPart digits) digits

/-- `my_time_to_str` -/
def timeToStr (t : MysqlTime) (digits : ℕ) : Text :=
  let day := if t.year ≠ 0 ∨ t.month ≠ 0 then 0 else t.day
  let hour := day * 24 + t.hour
  (if t.neg then ['-'] else []) ++
    ((if hour > 99 then decimal hour else fmtNumber hour 2) ++ ':' :: (fmtNumber t.minute 2 ++
      ':' :: (fmtNumber t.second 2 ++ printFraction t.secondPart digits)))

/-- `my_datetime_to_str` -/
def datetimeToStr (t : MysqlTime) (digits : ℕ) : Text :=
  fmtNumber t.year 4 ++ '-' :: (fmtNumber t.month 2 ++ '-' :: (fmtNumber t.day 2 ++ ' ' ::
    (fmtNumber t.hour 2 ++ ':' :: (fmtNumber t.minute 2 ++ ':' ::
      (fmtNumber t.second 2 ++ printFraction t.secondPart digits)))))

/-- `tv_sec`, a 32-bit `long`, as `longlong10_to_str` prints it: widened, and without a sign. -/
def tvSec (sec : ℕ) : ℕ := if sec < 2 ^ 31 then sec else sec + (2 ^ 64 - 2 ^ 32)

/-- `my_timeval_to_str` -/
def timevalToStr (tm : Timeval) (dec : ℕ) : Text :=
  decimal (tvSec tm.sec) ++ printFraction tm.usec dec

theorem hms_eq {h m s : ℕ} (hm : m < 2 ^ 6) (hs : s < 2 ^ 6) :
    h <<< 12 ||| m <<< 6 ||| s = h * 2 ^ 12 + m * 2 ^ 6 + s := by
  have hlow : m <<< 6 < 2 ^ 12 := by
    rw [Nat.shiftLeft_eq]
    omega
  have hhm : h <<< 12 ||| m <<< 6 = (h * 2 ^ 6 + m) <<< 6 := by
    rw [← Nat.shiftLeft_add_eq_or_of_lt hlow]
    simp only [Nat.shiftLeft_eq]
    omega
  rw [hhm, ← Nat.shiftLeft_add_eq_or_of_lt hs, Nat.shiftLeft_eq]
  omega

/-- A number of 24 bits for the seconds, with a fraction and a sign. -/
def packed (neg : Bool) (int frac : ℕ) : ℤ :=
  if neg then -myPackedTimeMake int frac else myPackedTimeMake int frac

section Packed
variable {int frac : ℕ} (hf : frac < 10 ^ 6)
include hf

theorem intPart_packed_false : intPart (packed false int frac) = int := by
  simp only [packed, intPart, myPackedTimeMake, Bool.false_eq_true, if_false]
  omega

theorem fracPart_packed (neg : Bool) :
    fracPart (packed neg int frac) = if neg then -(frac : ℤ) else frac := by
  have hpos : (myPackedTimeMake int frac).tmod (2 ^ 24) = frac := by
    rw [Int.tmod_eq_emod_of_nonneg (by simp only [myPackedTimeMake]; omega)]
    simp only [myPackedTimeMake]
    omega
  cases neg with
  | false => simpa [packed, fracPart] using hpos
  | true => simpa [packed, fracPart, Int.neg_tmod] using hpos

theorem intPart_packed_true :
    intPart (packed true int frac) = if frac = 0 then -(int : ℤ) else -int - 1 := by
  simp only [packed, intPart, myPackedTimeMake, if_true]
  split <;> omega

theorem natAbs_packed (neg : Bool) : (packed neg int frac).natAbs = int * 2 ^ 24 + frac := by
  cases neg <;> simp only [packed, myPackedTimeMake, Bool.false_eq_true, if_false, if_true] <;>
    omega

end Packed

theorem tdiv_signed (neg : Bool) (unit k : ℕ) (hu : 0 < unit) :
    (if neg then -((unit * k : ℕ) : ℤ) else (unit * k : ℕ)).tdiv unit =
      if neg then -(k : ℤ) else k := by
  have h : ((unit * k : ℕ) : ℤ).tdiv unit = k := by
    push_cast
    exact Int.mul_tdiv_cancel_left _ (by omega)
  cases neg with
  | false => simpa using h
  | true => simpa [Int.neg_tdiv] using h

theorem big_take_storeBig (w : ℕ) (n : ℤ) (bs : List UInt8) :
    (big ((storeBig w n ++ bs).take w) : ℤ) = n % 256 ^ w := by
  rw [List.take_left' (length_storeBig w n), big_storeBig]

theorem big_drop_storeBig (v w : ℕ) (m n : ℤ) :
    (big (((storeBig v m ++ storeBig w n).drop v).take w) : ℤ) = n % 256 ^ w := by
  rw [List.drop_left' (length_storeBig v m), List.take_of_length_le (by simp), big_storeBig]

theorem packedOfReverse_eq (neg : Bool) {int k unit base : ℕ} (hk : k < base)
    (hint : int < 2 ^ 22) {b : ℕ} {i : ℤ} (hb : (b : ℤ) = (if neg then -(k : ℤ) else k) % base)
    (hi : i = if neg then (if k = 0 then -(int : ℤ) else -int - 1) else int) :
    packedOfReverse i b base unit = packed neg int (unit * k) := by
  cases neg with
  | false =>
    simp only [Bool.false_eq_true, if_false] at hb hi
    rw [Int.emod_eq_of_lt (by omega) (by omega)] at hb
    have hnot : ¬(i < 0 ∧ b ≠ 0) := by omega
    rw [packedOfReverse, if_neg hnot, hi, hb, packed, if_neg (by simp)]
    push_cast
    rw [Int.mul_comm]
  | true =>
    simp only [if_true] at hb hi
    by_cases hk0 : k = 0
    · subst hk0
      simp at hb hi
      simp [packedOfReverse, packed, hb, hi, myPackedTimeMake]
    · have hbk : (b : ℤ) = base - k := by
        rw [hb, ← Int.add_emod_right, Int.emod_eq_of_lt (by omega) (by omega)]
        omega
      rw [if_neg hk0] at hi
      have hcond : i < 0 ∧ b ≠ 0 := by omega
      rw [packedOfReverse, if_pos hcond, hi, hbk, packed, if_pos rfl, myPackedTimeMake,
        myPackedTimeMake]
      push_cast
      ring

theorem big_int_storeBig {int frac : ℕ} (neg : Bool) (hint : int < 2 ^ 22)
    (hfrac : frac < 10 ^ 6) (bs : List UInt8) :
    (big ((storeBig 3 (timefIntOfs + intPart (packed neg int frac)) ++ bs).take 3) : ℤ) -
      timefIntOfs = if neg then (if frac = 0 then -(int : ℤ) else -int - 1) else int := by
  rw [big_take_storeBig, timefIntOfs]
  cases neg with
  | false =>
    rw [intPart_packed_false hfrac, if_neg (by simp)]
    omega
  | true =>
    rw [intPart_packed_true hfrac, if_pos rfl]
    split <;> omega

theorem packedOfReverse_store {int k : ℕ} (neg : Bool) (w unit : ℕ) (hint : int < 2 ^ 22)
    (hunit : 0 < unit) (hk : k < 256 ^ w) (hfrac : unit * k < 10 ^ 6) :
    let ptr := storeBig 3 (timefIntOfs + intPart (packed neg int (unit * k))) ++
      storeBig w ((fracPart (packed neg int (unit * k))).tdiv unit)
    packedOfReverse ((big (ptr.take 3) : ℤ) - timefIntOfs) (big ((ptr.drop 3).take w))
      (256 ^ w) unit = packed neg int (unit * k) := by
  intro ptr
  have hb : (big ((ptr.drop 3).take w) : ℤ) = (if neg then -(k : ℤ) else k) % (256 ^ w : ℕ) := by
    rw [big_drop_storeBig, fracPart_packed hfrac, tdiv_signed neg unit k hunit]
    push_cast
    rfl
  have hi := big_int_storeBig neg hint hfrac
    (storeBig w ((fracPart (packed neg int (unit * k))).tdiv unit))
  apply packedOfReverse_eq neg hk hint hb
  have hzero : unit * k = 0 ↔ k = 0 := by simp [hunit.ne']
  simpa only [hzero] using hi

/-- A `TIME` value is read back from its bytes when its fraction has no more digits than are
stored. -/
theorem timePacked_roundtrip (neg : Bool) {int frac dec : ℕ} (hint : int < 2 ^ 22)
    (hfrac : frac < 10 ^ 6) (hdec : dec ≤ 6) (hdvd : 10 ^ (6 - dec) ∣ frac) :
    timePackedFromBinary (timePackedToBinary (packed neg int frac) dec) dec =
      packed neg int frac := by
  obtain rfl | hlow | hmid | hhigh : dec = 0 ∨ (dec = 1 ∨ dec = 2) ∨ (dec = 3 ∨ dec = 4) ∨
      (dec = 5 ∨ dec = 6) := by omega
  · -- no fraction is stored, and there is none
    obtain rfl : frac = 0 := by omega
    have h := big_int_storeBig neg hint hfrac []
    rw [List.append_nil] at h
    have hread : timePackedFromBinary (timePackedToBinary (packed neg int 0) 0) 0 =
      myPackedTimeMake ((big ((storeBig 3 (timefIntOfs + intPart (packed neg int 0))).take 3) : ℤ) -
        timefIntOfs) 0 := rfl
    rw [hread, h]
    cases neg <;> simp [packed, myPackedTimeMake]
  · obtain ⟨k, rfl⟩ : 10000 ∣ frac := by rcases hlow with rfl | rfl <;> omega
    have h := packedOfReverse_store neg 1 10000 hint (by omega) (by omega) hfrac
    rcases hlow with rfl | rfl <;> simpa [timePackedToBinary, timePackedFromBinary] using h
  · obtain ⟨k, rfl⟩ : 100 ∣ frac := by rcases hmid with rfl | rfl <;> omega
    have h := packedOfReverse_store neg 2 100 hint (by omega) (by omega) hfrac
    rcases hmid with rfl | rfl <;> simpa [timePackedToBinary, timePackedFromBinary] using h
  · have h : (big ((storeBig 6 (packed neg int frac + timefOfs)).take 6) : ℤ) - timefOfs =
        packed neg int frac := by
      rw [List.take_of_length_le (by simp), big_storeBig, timefOfs]
      cases neg <;> simp only [packed, myPackedTimeMake, if_true, Bool.false_eq_true, if_false] <;>
        omega
    rcases hhigh with rfl | rfl <;> exact h

theorem fraction_roundtrip (readByte : ℕ → ℤ) (hbyte : ∀ n < 100, readByte n = n) {frac dec : ℕ}
    (hfrac : frac < 10 ^ 6) (hdec : dec ≤ 6) (hdvd : 10 ^ (6 - dec) ∣ frac) :
    readFraction readByte (storeFraction frac dec) dec = frac := by
  obtain rfl | hlow | hmid | hhigh : dec = 0 ∨ (dec = 1 ∨ dec = 2) ∨ (dec = 3 ∨ dec = 4) ∨
      (dec = 5 ∨ dec = 6) := by omega
  · obtain rfl : frac = 0 := by omega
    rfl
  · obtain ⟨k, rfl⟩ : 10000 ∣ frac := by rcases hlow with rfl | rfl <;> omega
    have hk : ((10000 * k : ℕ) : ℤ).tdiv 10000 = k := by simp
    have hread : readByte (big ((storeBig 1 k).take 1)) * 10000 = (10000 * k : ℕ) := by
      rw [List.take_of_length_le (by simp), big_store (by omega), hbyte k (by omega)]
      omega
    rw [← hk] at hread
    rcases hlow with rfl | rfl <;> exact hread
  · obtain ⟨k, rfl⟩ : 100 ∣ frac := by rcases hmid with rfl | rfl <;> omega
    have hk : ((100 * k : ℕ) : ℤ).tdiv 100 = k := by simp
    have hread : signed 2 (big ((storeBig 2 k).take 2)) * 100 = (100 * k : ℕ) := by
      rw [List.take_of_length_le (by simp), signed_big_store (by omega) (by omega)]
      omega
    rw [← hk] at hread
    rcases hmid with rfl | rfl <;> exact hread
  · have hread : signed 3 (big ((storeBig 3 frac).take 3)) = frac := by
      rw [List.take_of_length_le (by simp), signed_big_store (by omega) (by omega)]
    rcases hhigh with rfl | rfl <;> exact hread

/-- A `DATETIME` value is read back from its bytes when its fraction has no more digits than are
stored. -/
theorem datetimePacked_roundtrip {int frac dec : ℕ} (hint : int < 2 ^ 39)
    (hfrac : frac < 10 ^ 6) (hdec : dec ≤ 6) (hdvd : 10 ^ (6 - dec) ∣ frac) :
    datetimePackedFromBinary (datetimePackedToBinary (packed false int frac) dec) dec =
      packed false int frac := by
  have hbyte : ∀ n < 100, signed 1 n = n := by
    intro n hn
    exact signed_emod 1 (by omega) (by omega) (by omega)
  have hf : fracPart (packed false int frac) = frac := by simpa using fracPart_packed hfrac false
  rw [datetimePackedFromBinary, datetimePackedToBinary, big_take_storeBig,
    List.drop_left' (length_storeBig 5 _), hf, fraction_roundtrip _ hbyte hfrac hdec hdvd,
    intPart_packed_false hfrac, datetimefIntOfs, Int.emod_eq_of_lt (by omega) (by omega)]
  simp only [packed, Bool.false_eq_true, if_false, Int.add_sub_cancel]

/-- A `TIMESTAMP` value is read back from its bytes when its fraction has no more digits than are
stored. -/
theorem timestamp_roundtrip {sec usec dec : ℕ} (hsec : sec < 2 ^ 32) (husec : usec < 10 ^ 6)
    (hdec : dec ≤ 6) (hdvd : 10 ^ (6 - dec) ∣ usec) :
    timestampFromBinary (timestampToBinary ⟨sec, usec⟩ dec) dec = ⟨sec, usec⟩ := by
  have hs : big ((storeBig 4 sec ++ storeFraction usec dec).take 4) = sec := by
    rw [List.take_left' (length_storeBig 4 _), big_store (by omega)]
  rw [timestampFromBinary, timestampToBinary, hs, List.drop_left' (length_storeBig 4 _),
    fraction_roundtrip _ (fun _ _ => rfl) husec hdec hdvd]

/-- A `TIME` value of less than 1024 hours that is not a negative zero. -/
structure IsTime (t : MysqlTime) : Prop where
  year : t.year = 0
  month : t.month = 0
  day : t.day = 0
  hour : t.hour < 2 ^ 10
  minute : t.minute < 2 ^ 6
  second : t.second < 2 ^ 6
  secondPart : t.secondPart < 10 ^ 6
  sign : t.neg = true → 0 < t.hour + t.minute + t.second + t.secondPart

structure IsDatetime (t : MysqlTime) : Prop where
  neg : t.neg = false
  year : t.year < 10 ^ 4
  month : t.month < 13
  day : t.day < 2 ^ 5
  hour : t.hour < 2 ^ 5
  minute : t.minute < 2 ^ 6
  second : t.second < 2 ^ 6
  secondPart : t.secondPart < 10 ^ 6

theorem IsTime.timeToPacked {t : MysqlTime} (h : IsTime t) : timeToPacked t =
    packed t.neg (t.hour * 2 ^ 12 + t.minute * 2 ^ 6 + t.second) t.secondPart := by
  rw [BinlogCapture.timeToPacked, hms_eq h.minute h.second, h.day]
  simp only [Nat.zero_mul, Nat.zero_add, packed]

theorem IsTime.timeFromPacked {t : MysqlTime} (h : IsTime t) : timeFromPacked
    (packed t.neg (t.hour * 2 ^ 12 + t.minute * 2 ^ 6 + t.second) t.secondPart) = t := by
  obtain ⟨hyear, hmonth, hday, hhour, hminute, hsecond, hpart, hsign⟩ := h
  obtain ⟨neg, year, month, day, hour, minute, second, secondPart⟩ := t
  simp only at hyear hmonth hday hhour hminute hsecond hpart hsign
  have hneg : decide (packed neg (hour * 2 ^ 12 + minute * 2 ^ 6 + second) secondPart < 0) =
      neg := by
    cases neg with
    | false => simp only [packed, myPackedTimeMake, Bool.false_eq_true, if_false]; simp; omega
    | true =>
      have := hsign rfl
      simp only [packed, myPackedTimeMake, if_true]; simp; omega
  simp only [BinlogCapture.timeFromPacked, natAbs_packed hpart, hneg, MysqlTime.mk.injEq, true_and]
  omega

theorem IsDatetime.datetimeToPacked {t : MysqlTime} (h : IsDatetime t) : datetimeToPacked t =
    packed false (((t.year * 13 + t.month) * 2 ^ 5 + t.day) * 2 ^ 17 +
      (t.hour * 2 ^ 12 + t.minute * 2 ^ 6 + t.second)) t.secondPart := by
  have hhms : t.hour * 2 ^ 12 + t.minute * 2 ^ 6 + t.second < 2 ^ 17 := by
    have := h.hour
    have := h.minute
    have := h.second
    omega
  rw [BinlogCapture.datetimeToPacked, hms_eq h.minute h.second,
    ← Nat.shiftLeft_add_eq_or_of_lt h.day, ← Nat.shiftLeft_add_eq_or_of_lt hhms, h.neg]
  simp only [packed, Nat.shiftLeft_eq, Bool.false_eq_true, if_false]

theorem IsDatetime.datetimeFromPacked {t : MysqlTime} (h : IsDatetime t) : datetimeFromPacked
    (packed false (((t.year * 13 + t.month) * 2 ^ 5 + t.day) * 2 ^ 17 +
      (t.hour * 2 ^ 12 + t.minute * 2 ^ 6 + t.second)) t.secondPart) = t := by
  obtain ⟨hneg, hyear, hmonth, hday, hhour, hminute, hsecond, hpart⟩ := h
  obtain ⟨neg, year, month, day, hour, minute, second, secondPart⟩ := t
  simp only at hneg hyear hmonth hday hhour hminute hsecond hpart
  have hpos : decide (packed false (((year * 13 + month) * 2 ^ 5 + day) * 2 ^ 17 +
      (hour * 2 ^ 12 + minute * 2 ^ 6 + second)) secondPart < 0) = neg := by
    rw [hneg]
    simp only [packed, myPackedTimeMake, Bool.false_eq_true, if_false]; simp; omega
  simp only [BinlogCapture.datetimeFromPacked, natAbs_packed hpart, hpos, MysqlTime.mk.injEq,
    true_and]
  omega

theorem time_roundtrip {t : MysqlTime} (h : IsTime t) {dec : ℕ} (hdec : dec ≤ 6)
    (hdvd : 10 ^ (6 - dec) ∣ t.secondPart) :
    timeFromPacked (timePackedFromBinary (timePackedToBinary (timeToPacked t) dec) dec) = t := by
  have hint : t.hour * 2 ^ 12 + t.minute * 2 ^ 6 + t.second < 2 ^ 22 := by
    have := h.hour
    have := h.minute
    have := h.second
    omega
  rw [h.timeToPacked, timePacked_roundtrip t.neg hint h.secondPart hdec hdvd, h.timeFromPacked]

theorem datetime_roundtrip {t : MysqlTime} (h : IsDatetime t) {dec : ℕ} (hdec : dec ≤ 6)
    (hdvd : 10 ^ (6 - dec) ∣ t.secondPart) :
    datetimeFromPacked (datetimePackedFromBinary (datetimePackedToBinary (datetimeToPacked t) dec)
      dec) = t := by
  have hint : ((t.year * 13 + t.month) * 2 ^ 5 + t.day) * 2 ^ 17 +
      (t.hour * 2 ^ 12 + t.minute * 2 ^ 6 + t.second) < 2 ^ 39 := by
    have := h.year
    have := h.month
    have := h.day
    have := h.hour
    have := h.minute
    have := h.second
    omega
  rw [h.datetimeToPacked, datetimePacked_roundtrip hint h.secondPart hdec hdvd,
    h.datetimeFromPacked]

theorem length_storeFraction (frac : ℤ) {dec : ℕ} (hdec : dec ≤ 6) :
    (storeFraction frac dec).length = (dec + 1) / 2 := by
  unfold storeFraction
  interval_cases dec <;> simp

theorem length_timePackedToBinary (nr : ℤ) {dec : ℕ} (hdec : dec ≤ 6) :
    (timePackedToBinary nr dec).length = timeBinaryLength dec := by
  unfold timePackedToBinary timeBinaryLength
  interval_cases dec <;> simp

theorem length_datetimePackedToBinary (nr : ℤ) {dec : ℕ} (hdec : dec ≤ 6) :
    (datetimePackedToBinary nr dec).length = datetimeBinaryLength dec := by
  simp [datetimePackedToBinary, datetimeBinaryLength, length_storeFraction _ hdec]

theorem length_timestampToBinary (tm : Timeval) {dec : ℕ} (hdec : dec ≤ 6) :
    (timestampToBinary tm dec).length = timestampBinaryLength dec := by
  simp [timestampToBinary, timestampBinaryLength, length_storeFraction _ hdec]

section Printed

theorem isDigit_of_mem_fmtNumber {val digits : ℕ} {c : Char} (h : c ∈ fmtNumber val digits) :
    c.isDigit = true := by
  induction digits generalizing val with
  | zero => simp [fmtNumber] at h
  | succ digits ih =>
    rw [fmtNumber, List.mem_append] at h
    rcases h with h | h
    · exact ih h
    · rw [List.mem_singleton.mp h, Nat.isDigit_digitChar]
      exact decide_eq_true (Nat.mod_lt _ (by omega))

@[simp] theorem length_fmtNumber (val digits : ℕ) : (fmtNumber val digits).length = digits := by
  induction digits generalizing val with
  | zero => rfl
  | succ digits ih => simp [fmtNumber, ih]

theorem not_mem_fmtNumber {c : Char} (hc : c.isDigit = false) (val digits : ℕ) :
    c ∉ fmtNumber val digits := by
  intro h
  simp [isDigit_of_mem_fmtNumber h] at hc

theorem ofDigitChars_fmtNumber (val digits : ℕ) :
    Nat.ofDigitChars 10 (fmtNumber val digits) 0 = val % 10 ^ digits := by
  induction digits generalizing val with
  | zero => simp [fmtNumber, Nat.mod_one]
  | succ digits ih =>
    have hlast : (Nat.digitChar (val % 10)).toNat - '0'.toNat = val % 10 :=
      Nat.toNat_digitChar_sub_48_of_lt_ten (Nat.mod_lt _ (by omega))
    rw [fmtNumber, Nat.ofDigitChars_append, ih, Nat.ofDigitChars_cons, hlast, Nat.ofDigitChars_nil,
      Nat.pow_succ', Nat.mod_mul]
    omega

theorem fmtNumber_injective {v w digits : ℕ} (hv : v < 10 ^ digits) (hw : w < 10 ^ digits)
    (h : fmtNumber v digits = fmtNumber w digits) : v = w := by
  rw [← Nat.mod_eq_of_lt hv, ← Nat.mod_eq_of_lt hw, ← ofDigitChars_fmtNumber, h,
    ofDigitChars_fmtNumber]

/-- The stored digits of a fraction that has no others. -/
theorem secPartShift_eq {k digits : ℕ} (hdigits : digits ≤ 6)
    (hk : 10 ^ (6 - digits) * k < 10 ^ 6) :
    secPartShift ((10 ^ (6 - digits) * k : ℕ) : ℤ) digits = k ∧ k < 10 ^ digits := by
  have hpow : 10 ^ (6 - digits) * 10 ^ digits = 10 ^ 6 := by
    rw [← pow_add, Nat.sub_add_cancel hdigits]
  have hlt : k < 10 ^ digits := by
    rw [← hpow] at hk
    exact Nat.lt_of_mul_lt_mul_left hk
  have hle : k ≤ 10 ^ (6 - digits) * k := Nat.le_mul_of_pos_left _ (by positivity)
  constructor
  · rw [secPartShift]
    push_cast
    rw [Int.mul_tdiv_cancel_left _ (by positivity)]
    omega
  · exact hlt

theorem printFraction_injective {v w digits : ℕ} (hdigits : digits ≤ 6) (hv : v < 10 ^ 6)
    (hw : w < 10 ^ 6) (hv' : 10 ^ (6 - digits) ∣ v) (hw' : 10 ^ (6 - digits) ∣ w)
    (h : printFraction v digits = printFraction w digits) : v = w := by
  by_cases h0 : digits = 0
  · subst h0
    omega
  · obtain ⟨j, rfl⟩ := hv'
    obtain ⟨k, rfl⟩ := hw'
    obtain ⟨hj, hjlt⟩ := secPartShift_eq hdigits hv
    obtain ⟨hk, hklt⟩ := secPartShift_eq hdigits hw
    simp only [printFraction, h0, if_false, hj, hk, List.cons.injEq, true_and] at h
    rw [fmtNumber_injective hjlt hklt h]

/-- The hours of a `TIME` value, with two digits or more. -/
def hourText (hour : ℕ) : Text := if hour > 99 then decimal hour else fmtNumber hour 2

theorem ofDigitChars_hourText (hour : ℕ) : Nat.ofDigitChars 10 (hourText hour) 0 = hour := by
  unfold hourText
  split
  · exact Nat.ofDigitChars_ten_toDigits
  · rw [ofDigitChars_fmtNumber]
    omega

theorem not_mem_hourText {c : Char} (hc : c.isDigit = false) (hour : ℕ) : c ∉ hourText hour := by
  unfold hourText
  split
  · exact not_mem_decimal hc hour
  · exact not_mem_fmtNumber hc hour 2

theorem timeToStr_eq {t : MysqlTime} (h : IsTime t) (digits : ℕ) : timeToStr t digits =
    (if t.neg then ['-'] else []) ++ (hourText t.hour ++ ':' :: (fmtNumber t.minute 2 ++
      ':' :: (fmtNumber t.second 2 ++ printFraction t.secondPart digits))) := by
  simp [timeToStr, hourText, h.year, h.month, h.day]

/-- The sign and the hours of a `TIME` value. -/
def signedHourText (t : MysqlTime) : Text := (if t.neg then ['-'] else []) ++ hourText t.hour

theorem not_mem_signedHourText (t : MysqlTime) : ':' ∉ signedHourText t := by
  have h := not_mem_hourText (c := ':') rfl t.hour
  unfold signedHourText
  split <;> simp [h]

theorem signedHourText_injective {t u : MysqlTime} (h : signedHourText t = signedHourText u) :
    t.neg = u.neg ∧ t.hour = u.hour := by
  have hdash := not_mem_hourText (c := '-') rfl
  have hhour : ∀ m n, hourText m = hourText n → m = n := by
    intro m n hmn
    rw [← ofDigitChars_hourText m, hmn, ofDigitChars_hourText]
  unfold signedHourText at h
  cases ht : t.neg <;> cases hu : u.neg <;> simp [ht, hu] at h
  · exact ⟨rfl, hhour _ _ h⟩
  · exact absurd (h ▸ List.mem_cons_self) (hdash t.hour)
  · exact absurd (h ▸ List.mem_cons_self) (hdash u.hour)
  · exact ⟨rfl, hhour _ _ h⟩

/-- A `TIME` value is known from its text. -/
theorem timeToStr_injective {t u : MysqlTime} (ht : IsTime t) (hu : IsTime u) {digits : ℕ}
    (hdigits : digits ≤ 6) (ht' : 10 ^ (6 - digits) ∣ t.secondPart)
    (hu' : 10 ^ (6 - digits) ∣ u.secondPart) (h : timeToStr t digits = timeToStr u digits) :
    t = u := by
  have hcolon : ∀ val, ':' ∉ fmtNumber val 2 := fun val => not_mem_fmtNumber rfl val 2
  rw [timeToStr_eq ht, timeToStr_eq hu, ← List.append_assoc, ← List.append_assoc] at h
  obtain ⟨hhour, h⟩ := append_sep_injective ':' (not_mem_signedHourText t)
    (not_mem_signedHourText u) h
  obtain ⟨hminute, h⟩ := append_sep_injective ':' (hcolon _) (hcolon _) h
  obtain ⟨hsecond, hfrac⟩ := List.append_inj h (by simp [length_fmtNumber])
  obtain ⟨hneg, hhour⟩ := signedHourText_injective hhour
  have := ht.minute
  have := hu.minute
  have := ht.second
  have := hu.second
  have hminute := fmtNumber_injective (by omega) (by omega) hminute
  have hsecond := fmtNumber_injective (by omega) (by omega) hsecond
  have hpart := printFraction_injective hdigits ht.secondPart hu.secondPart ht' hu' hfrac
  obtain ⟨hyear, hmonth, hday, -, -, -, -, -⟩ := ht
  obtain ⟨hyear', hmonth', hday', -, -, -, -, -⟩ := hu
  cases t
  cases u
  simp_all

/-- A `DATETIME` value is known from its text. -/
theorem datetimeToStr_injective {t u : MysqlTime} (ht : IsDatetime t) (hu : IsDatetime u)
    {digits : ℕ} (hdigits : digits ≤ 6) (ht' : 10 ^ (6 - digits) ∣ t.secondPart)
    (hu' : 10 ^ (6 - digits) ∣ u.secondPart)
    (h : datetimeToStr t digits = datetimeToStr u digits) : t = u := by
  have hsep : ∀ c v w d r s, c.isDigit = false →
      fmtNumber v d ++ c :: r = fmtNumber w d ++ c :: s → fmtNumber v d = fmtNumber w d ∧ r = s :=
    fun c v w d r s hc => append_sep_injective c (not_mem_fmtNumber hc v d)
      (not_mem_fmtNumber hc w d)
  unfold datetimeToStr at h
  obtain ⟨hyear, h⟩ := hsep _ _ _ _ _ _ rfl h
  obtain ⟨hmonth, h⟩ := hsep _ _ _ _ _ _ rfl h
  obtain ⟨hday, h⟩ := hsep _ _ _ _ _ _ rfl h
  obtain ⟨hhour, h⟩ := hsep _ _ _ _ _ _ rfl h
  obtain ⟨hminute, h⟩ := hsep _ _ _ _ _ _ rfl h
  obtain ⟨hsecond, hfrac⟩ := List.append_inj h (by simp [length_fmtNumber])
  obtain ⟨hn, hy, hm, hd, hh, hmi, hs, hp⟩ := ht
  obtain ⟨hn', hy', hm', hd', hh', hmi', hs', hp'⟩ := hu
  have hyear := fmtNumber_injective hy hy' hyear
  have hmonth := fmtNumber_injective (by omega) (by omega) hmonth
  have hday := fmtNumber_injective (by omega) (by omega) hday
  have hhour := fmtNumber_injective (by omega) (by omega) hhour
  have hminute := fmtNumber_injective (by omega) (by omega) hminute
  have hsecond := fmtNumber_injective (by omega) (by omega) hsecond
  have hpart := printFraction_injective hdigits hp hp' ht' hu' hfrac
  cases t
  cases u
  simp_all

theorem tvSec_of_lt {sec : ℕ} (h : sec < 2 ^ 31) : tvSec sec = sec := if_pos h

/-- A `TIMESTAMP` value is known from its text. -/
theorem timevalToStr_injective {s t : ℕ} {v w digits : ℕ} (hdigits : digits ≤ 6)
    (hs : s < 2 ^ 31) (ht : t < 2 ^ 31)
    (hv : v < 10 ^ 6) (hw : w < 10 ^ 6) (hv' : 10 ^ (6 - digits) ∣ v)
    (hw' : 10 ^ (6 - digits) ∣ w)
    (h : timevalToStr ⟨s, v⟩ digits = timevalToStr ⟨t, w⟩ digits) : s = t ∧ v = w := by
  have hdecimal : ∀ {m n : ℕ}, decimal m = decimal n → m = n := by
    intro m n hmn
    rw [← digitsValue_decimal m, hmn, digitsValue_decimal]
  by_cases h0 : digits = 0
  · subst h0
    simp only [timevalToStr, tvSec_of_lt hs, tvSec_of_lt ht, printFraction, if_true,
      List.append_nil] at h
    exact ⟨hdecimal h, by omega⟩
  · have hdot : ∀ sec frac, sec < 2 ^ 31 → timevalToStr ⟨sec, frac⟩ digits =
        decimal sec ++ '.' :: fmtNumber (secPartShift frac digits) digits := by
      intro sec frac hsec
      simp [timevalToStr, tvSec_of_lt hsec, printFraction, h0]
    rw [hdot s v hs, hdot t w ht] at h
    obtain ⟨hsec, hfrac⟩ := append_sep_injective '.' (not_mem_decimal rfl s)
      (not_mem_decimal rfl t) h
    constructor
    · exact hdecimal hsec
    · apply printFraction_injective hdigits hv hw hv' hw'
      simp [printFraction, h0, hfrac]

end Printed

end BinlogCapture
