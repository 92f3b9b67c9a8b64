import BinlogCapture.RowPacking

/-! What the printed rows say about the rows: a value is known from its literal when no string has a
backslash, and so are the bytes of all rows from the text of the event. -/
namespace BinlogCapture
open Bytes CString

section Numbers

theorem decimal_injective {m n : ℕ} (h : decimal m = decimal n) : m = n := by
  rw [← digitsValue_decimal m, h, digitsValue_decimal]

theorem printInt_injective {m n : ℤ} (h : printInt m = printInt n) : m = n := by
  have hdash : ∀ k, '-' ∉ decimal k := fun k => not_mem_decimal rfl k
  unfold printInt at h
  split at h <;> split at h
  · have := decimal_injective (List.cons.inj h).2
    omega
  · exact absurd (h ▸ List.mem_cons_self) (hdash n.natAbs)
  · exact absurd (h ▸ List.mem_cons_self) (hdash m.natAbs)
  · have := decimal_injective h
    omega

theorem signed_injective {w m n : ℕ} (hm : m < 256 ^ w) (hn : n < 256 ^ w)
    (h : signed w m = signed w n) : m = n := by
  have hpow : (256 : ℤ) ^ w = (256 ^ w : ℕ) := by push_cast; rfl
  unfold signed at h
  rw [hpow] at h
  split at h <;> split at h <;> omega

theorem writeSintAndUint_injective {w m n : ℕ} (hm : m < 256 ^ w) (hn : n < 256 ^ w)
    (h : writeSintAndUint (signed w m) m = writeSintAndUint (signed w n) n) : m = n := by
  have hblank : ∀ k, ' ' ∉ printInt k := by
    intro k
    have := not_mem_decimal (c := ' ') rfl k.natAbs
    unfold printInt
    split <;> simp [this]
  have hparens : " (".toList = [' ', '('] := rfl
  unfold writeSintAndUint at h
  rw [hparens] at h
  apply signed_injective hm hn
  split at h <;> split at h
  · simp only [List.cons_append] at h
    exact printInt_injective (append_sep_injective ' ' (hblank _) (hblank _) h).1
  · rw [List.append_nil] at h
    exact absurd (h ▸ by simp) (hblank (signed w n))
  · rw [List.append_nil] at h
    exact absurd (h ▸ by simp) (hblank (signed w m))
  · simp only [List.append_nil] at h
    exact printInt_injective h

theorem printPadded_natCast (w n : ℕ) : printPadded w n = List.leftpad w '0' (decimal n) := by
  rw [printPadded, printInt_natCast]

theorem isDigit_of_mem_printPadded {w n : ℕ} {c : Char} (h : c ∈ printPadded w n) :
    c.isDigit = true := by
  rw [printPadded_natCast, List.leftpad, List.mem_append] at h
  rcases h with h | h
  · rw [List.eq_of_mem_replicate h]
    rfl
  · exact isDigit_of_mem_decimal h

theorem not_mem_printPadded {c : Char} (hc : c.isDigit = false) (w n : ℕ) :
    c ∉ printPadded w n := by
  intro h
  simp [isDigit_of_mem_printPadded h] at hc

theorem ofDigitChars_printPadded (w n : ℕ) : Nat.ofDigitChars 10 (printPadded w n) 0 = n := by
  rw [printPadded_natCast, List.leftpad, Nat.ofDigitChars_append, Nat.ofDigitChars_replicate_zero,
    Nat.mul_zero]
  exact Nat.ofDigitChars_ten_toDigits

theorem printPadded_injective {w m n : ℕ} (h : printPadded w m = printPadded w n) : m = n := by
  rw [← ofDigitChars_printPadded w m, h, ofDigitChars_printPadded]

/-- A padded number is known from the text up to a character that is no digit. -/
theorem padded_sep {w m n : ℕ} {c : Char} {r s : Text} (hc : c.isDigit = false)
    (h : printPadded w m ++ c :: r = printPadded w n ++ c :: s) : m = n ∧ r = s := by
  obtain ⟨hnumber, hrest⟩ := append_sep_injective c (not_mem_printPadded hc w m)
    (not_mem_printPadded hc w n) h
  exact ⟨printPadded_injective hnumber, hrest⟩

theorem printDatetime_injective {m n : ℕ} (hm : m < 10 ^ 14) (hn : n < 10 ^ 14)
    (h : printDatetime m = printDatetime n) : m = n := by
  obtain ⟨h₁, h⟩ := padded_sep rfl (List.cons.inj h).2
  obtain ⟨h₂, h⟩ := padded_sep rfl h
  obtain ⟨h₃, h⟩ := padded_sep rfl h
  obtain ⟨h₄, h⟩ := padded_sep rfl h
  obtain ⟨h₅, h⟩ := padded_sep rfl h
  obtain ⟨h₆, -⟩ := padded_sep rfl h
  omega

theorem printTime_injective {m n : ℤ} (h : printTime m = printTime n) : m = n := by
  have hsign : ∀ (k : ℤ) (j : ℕ), ':' ∉ (if k < 0 then ['-'] else []) ++ printPadded 2 j := by
    intro k j
    have := not_mem_printPadded (c := ':') rfl 2 j
    split <;> simp [this]
  have hdash : ∀ j : ℕ, '-' ∉ printPadded 2 j := fun j => not_mem_printPadded rfl 2 j
  have h := (List.cons.inj h).2
  rw [← List.append_assoc, ← List.append_assoc] at h
  obtain ⟨h₁, h⟩ := append_sep_injective ':' (hsign m _) (hsign n _) h
  obtain ⟨h₂, h⟩ := padded_sep rfl h
  obtain ⟨h₃, -⟩ := padded_sep rfl h
  split at h₁ <;> split at h₁
  · have := printPadded_injective (List.cons.inj h₁).2
    omega
  · rw [List.nil_append] at h₁
    exact absurd (by rw [← h₁]; simp) (hdash (n.natAbs / 10000))
  · rw [List.nil_append] at h₁
    exact absurd (by rw [h₁]; simp) (hdash (m.natAbs / 10000))
  · have := printPadded_injective h₁
    omega

theorem toNat_ofNat {n : ℕ} (hn : n < 256) : (Char.ofNat n).toNat = n := by
  have hvalid : n.isValidChar := Or.inl (by omega)
  rw [Char.ofNat, dif_pos hvalid]
  rfl

theorem printNewdate_injective {m n : ℕ} (hm : m < 256 ^ 3) (hn : n < 256 ^ 3)
    (h : printNewdate m = printNewdate n) : m = n := by
  have hzero : '0'.toNat = 48 := rfl
  obtain ⟨h₁, h⟩ := List.cons.inj (List.cons.inj h).2
  obtain ⟨h₂, h⟩ := append_sep_injective ':' (not_mem_fmtNumber rfl _ _)
    (not_mem_fmtNumber rfl _ _) h
  obtain ⟨h₃, h⟩ := append_sep_injective ':' (not_mem_fmtNumber rfl _ _)
    (not_mem_fmtNumber rfl _ _) h
  obtain ⟨h₄, -⟩ := append_sep_injective '\'' (not_mem_fmtNumber rfl _ _)
    (not_mem_fmtNumber rfl _ _) h
  have h₁ := congrArg Char.toNat h₁
  rw [hzero, toNat_ofNat (by omega), toNat_ofNat (by omega)] at h₁
  have h₂ := congrArg (Nat.ofDigitChars 10 · 0) h₂
  have h₃ := congrArg (Nat.ofDigitChars 10 · 0) h₃
  have h₄ := congrArg (Nat.ofDigitChars 10 · 0) h₄
  simp only [ofDigitChars_fmtNumber] at h₂ h₃ h₄
  omega

end Numbers

section Bits

theorem toNat_getD_storeLittle {w j n : ℕ} (hj : j < w) :
    ((storeLittle w n).getD j 0).toNat = n / 256 ^ j % 256 := by
  induction w generalizing j n with
  | zero => omega
  | succ w ih =>
    cases j with
    | zero =>
      have hlow : ((UInt8.ofInt n).toNat : ℤ) = (n : ℤ) % 256 := by
        simp only [UInt8.ofInt, UInt8.toNat_ofNat']
        omega
      rw [storeLittle, List.getD_cons_zero, pow_zero, Nat.div_one]
      omega
    | succ j =>
      have hdiv : ((n : ℤ) / 256) = ((n / 256 : ℕ) : ℤ) := by omega
      rw [storeLittle, List.getD_cons_succ, hdiv, ih (by omega), Nat.div_div_eq_div_mul,
        Nat.pow_succ']

/-- Bit `8 * j + i` of a number is bit `i` of byte `j`. -/
theorem testBit_storeLittle {w n i : ℕ} (hi : i < 8 * w) :
    ((storeLittle w n).getD (i / 8) 0).toNat.testBit (i % 8) = n.testBit i := by
  have hpow : (256 : ℕ) ^ (i / 8) = 2 ^ (8 * (i / 8)) := by
    rw [pow_mul]
    rfl
  have hbyte : (256 : ℕ) = 2 ^ 8 := rfl
  rw [toNat_getD_storeLittle (by omega), hpow, hbyte, Nat.testBit_mod_two_pow,
    Nat.testBit_div_two_pow, Nat.mod_add_div]
  simp
  omega

theorem testBit_storeBig {w n i : ℕ} (hi : i < 8 * w) :
    ((storeBig w n).getD (w - 1 - i / 8) 0).toNat.testBit (i % 8) = n.testBit i := by
  have hrev : (storeBig w n).getD (w - 1 - i / 8) 0 = (storeLittle w n).getD (i / 8) 0 := by
    rw [storeBig, List.getD_eq_getElem?_getD, List.getD_eq_getElem?_getD, List.getElem?_reverse]
    · congr 2
      rw [length_storeLittle]
      omega
    · rw [length_storeLittle]
      omega
  rw [hrev, testBit_storeLittle hi]

theorem writeBit_bits {bs bs' : List UInt8} {nbits : ℕ} (h : writeBit bs nbits = writeBit bs' nbits)
    {b : ℕ} (hlow : (nbits + 7) / 8 * 8 - nbits ≤ b) (hhigh : b < (nbits + 7) / 8 * 8) :
    (bs.getD (b / 8) 0).toNat.testBit (7 - b % 8) =
      (bs'.getD (b / 8) 0).toNat.testBit (7 - b % 8) := by
  have hmap := List.append_cancel_left (List.append_cancel_right h)
  have hbit := List.map_inj_left.mp hmap b (by rw [List.mem_range'_1]; omega)
  split at hbit <;> split at hbit <;> simp_all

theorem writeBit_storeBig_injective {nbits m n : ℕ} (hm : m < 2 ^ nbits) (hn : n < 2 ^ nbits)
    (h : writeBit (storeBig ((nbits + 7) / 8) m) nbits =
      writeBit (storeBig ((nbits + 7) / 8) n) nbits) : m = n := by
  apply Nat.eq_of_testBit_eq
  intro i
  by_cases hi : i < nbits
  · have hbit := writeBit_bits h (b := (nbits + 7) / 8 * 8 - 1 - i) (by omega) (by omega)
    have hbyte : ((nbits + 7) / 8 * 8 - 1 - i) / 8 = (nbits + 7) / 8 - 1 - i / 8 := by omega
    have hpos : 7 - ((nbits + 7) / 8 * 8 - 1 - i) % 8 = i % 8 := by omega
    rwa [hbyte, hpos, testBit_storeBig (by omega), testBit_storeBig (by omega)] at hbit
  · have hzero : ∀ {k}, k < 2 ^ nbits → k.testBit i = false := fun hk =>
      Nat.testBit_lt_two_pow (lt_of_lt_of_le hk (Nat.pow_le_pow_right (by omega) (by omega)))
    rw [hzero hm, hzero hn]

theorem writeBit_storeLittle_injective {w m n : ℕ} (hm : m < 256 ^ w) (hn : n < 256 ^ w)
    (h : writeBit (storeLittle w m) (w * 8) = writeBit (storeLittle w n) (w * 8)) : m = n := by
  have hpow : (256 : ℕ) ^ w = 2 ^ (8 * w) := by
    rw [pow_mul]
    rfl
  rw [hpow] at hm hn
  apply Nat.eq_of_testBit_eq
  intro i
  by_cases hi : i < 8 * w
  · have hbit := writeBit_bits h (b := i / 8 * 8 + (7 - i % 8)) (by omega) (by omega)
    have hbyte : (i / 8 * 8 + (7 - i % 8)) / 8 = i / 8 := by omega
    have hpos : 7 - (i / 8 * 8 + (7 - i % 8)) % 8 = i % 8 := by omega
    rwa [hbyte, hpos, testBit_storeLittle hi, testBit_storeLittle hi] at hbit
  · have hzero : ∀ {k}, k < 2 ^ (8 * w) → k.testBit i = false := fun hk =>
      Nat.testBit_lt_two_pow (lt_of_lt_of_le hk (Nat.pow_le_pow_right (by omega) (by omega)))
    rw [hzero hm, hzero hn]

end Bits

section Strings

def backslash : UInt8 := 92

theorem quoteByte_control {b : UInt8} (h : b.toNat ≤ 0x1F) : quoteByte b =
    ['\\', 'x', Nat.digitChar (b.toNat / 16), Nat.digitChar (b.toNat % 16)] := by
  have hquote : '\''.toNat = 39 := rfl
  have hback : '\\'.toNat = 92 := rfl
  rw [quoteByte, if_neg (by omega), if_neg (by omega), if_neg (by omega)]

theorem quoteByte_char {b : UInt8} (h : 0x1F < b.toNat) : quoteByte b = [Char.ofNat b.toNat] := by
  rw [quoteByte, if_pos h]

theorem ofNat_injective {m n : ℕ} (hm : m < 256) (hn : n < 256)
    (h : Char.ofNat m = Char.ofNat n) : m = n := by
  rw [← toNat_ofNat hm, h, toNat_ofNat hn]

theorem digitChar_injective : ∀ m < 16, ∀ n < 16, Nat.digitChar m = Nat.digitChar n → m = n := by
  decide

/-- Without backslashes in the string, those of its text mark the control characters. -/
theorem quoteByte_injective {b c : UInt8} (hb : b ≠ backslash) (hc : c ≠ backslash) {s t : Text}
    (h : quoteByte b ++ s = quoteByte c ++ t) : b = c ∧ s = t := by
  have hb' := b.toNat_lt
  have hc' := c.toNat_lt
  have hchar : ∀ {x : UInt8}, x ≠ backslash → Char.ofNat x.toNat ≠ '\\' := by
    intro x hx heq
    apply hx
    apply UInt8.toNat_inj.mp
    exact ofNat_injective x.toNat_lt (by decide) heq
  rcases Nat.lt_or_ge 0x1F b.toNat with hlb | hlb <;>
    rcases Nat.lt_or_ge 0x1F c.toNat with hlc | hlc
  · rw [quoteByte_char hlb, quoteByte_char hlc] at h
    obtain ⟨hhead, htail⟩ := List.cons.inj h
    exact ⟨UInt8.toNat_inj.mp (ofNat_injective hb' hc' hhead), htail⟩
  · rw [quoteByte_char hlb, quoteByte_control hlc] at h
    exact absurd (List.cons.inj h).1 (hchar hb)
  · rw [quoteByte_control hlb, quoteByte_char hlc] at h
    exact absurd (List.cons.inj h).1.symm (hchar hc)
  · rw [quoteByte_control hlb, quoteByte_control hlc] at h
    simp only [List.cons_append, List.nil_append, List.cons.injEq, true_and] at h
    obtain ⟨hhigh, hlow, htail⟩ := h
    have hhigh := digitChar_injective _ (by omega) _ (by omega) hhigh
    have hlow := digitChar_injective _ (by omega) _ (by omega) hlow
    exact ⟨UInt8.toNat_inj.mp (by omega), htail⟩

theorem writeQuoted_injective {bs cs : List UInt8} (hbs : backslash ∉ bs) (hcs : backslash ∉ cs)
    (h : writeQuoted bs = writeQuoted cs) : bs = cs := by
  have h := List.append_cancel_right h
  have h := (List.cons.inj h).2
  clear * - h hbs hcs
  induction bs generalizing cs with
  | nil =>
    cases cs with
    | nil => rfl
    | cons c cs =>
      have hne : quoteByte c ≠ [] := by
        unfold quoteByte
        split <;> (try split) <;> (try split) <;> simp
      simp [hne] at h
  | cons b bs ih =>
    cases cs with
    | nil =>
      have hne : quoteByte b ≠ [] := by
        unfold quoteByte
        split <;> (try split) <;> (try split) <;> simp
      simp [hne] at h
    | cons c cs =>
      rw [List.mem_cons, not_or] at hbs hcs
      rw [List.flatMap_cons, List.flatMap_cons] at h
      obtain ⟨rfl, hrest⟩ := quoteByte_injective (Ne.symm hbs.1) (Ne.symm hcs.1) h
      rw [ih hbs.2 hcs.2 hrest]

end Strings

section Values
variable (formats : Formats) {c : Column} {v : Value}

/-- A value whose literal shows all of it. -/
def Value.Exact : Value → Prop
  | .counted _ bytes => backslash ∉ bytes
  | .float _ | .double _ | .newdecimal _ _ _ => False
  | _ => True

/-- How the values of a column are packed. -/
inductive Shape where
  | integer (w : ℕ) | timestamp | datetime | time | newdate | year | bit (nbits : ℕ) | enum (w : ℕ)
  | set (w : ℕ) | counted (w : ℕ) | timestamp2 (dec : ℕ) | datetime2 (dec : ℕ) | time2 (dec : ℕ)
  | number
  deriving DecidableEq, Repr

def Value.shape : Value → Shape
  | .integer w _ => .integer w
  | .timestamp _ => .timestamp
  | .datetime _ => .datetime
  | .time _ => .time
  | .newdate _ => .newdate
  | .year _ => .year
  | .bit nbits _ => .bit nbits
  | .enum w _ => .enum w
  | .set w _ => .set w
  | .counted w _ => .counted w
  | .timestamp2 dec _ _ => .timestamp2 dec
  | .datetime2 dec _ => .datetime2 dec
  | .time2 dec _ => .time2 dec
  | .float _ | .double _ | .newdecimal _ _ _ => .number

def Column.shape (c : Column) : Shape :=
  match c.type with
  | .tiny => .integer 1
  | .short => .integer 2
  | .int24 => .integer 3
  | .long => .integer 4
  | .longlong => .integer 8
  | .timestamp => .timestamp
  | .datetime => .datetime
  | .time => .time
  | .newdate => .newdate
  | .year => .year
  | .bit => .bit (c.metadata / 2 ^ 8 * 8 + c.metadata % 2 ^ 8)
  | .enum => .enum (c.metadata % 2 ^ 8)
  | .set => .set (c.metadata % 2 ^ 8)
  | .varchar => .counted (lengthBytes c.metadata)
  | .string => .counted (lengthBytes (stringType .string c.metadata).2)
  | .blob => .counted c.metadata
  | .timestamp2 => .timestamp2 c.metadata
  | .datetime2 => .datetime2 c.metadata
  | .time2 => .time2 c.metadata
  | _ => .number

/-- The values of a column are all of one shape. -/
theorem Column.Takes.shape_eq (h : c.Takes v) : v.shape = c.shape := by
  cases h
  case bit bytes bits n hbytes hbits hpos h =>
    change Shape.bit (bytes * 8 + bits) =
      Shape.bit ((bytes * 2 ^ 8 + bits) / 2 ^ 8 * 8 + (bytes * 2 ^ 8 + bits) % 2 ^ 8)
    congr 1
    omega
  case enum w n hw h =>
    rw [Column.shape, type_enum (by omega)]
    change Shape.enum w = Shape.enum ((247 * 2 ^ 8 + w) % 2 ^ 8)
    congr 1
    omega
  case set w n hpos hw h =>
    rw [Column.shape, type_set hw]
    change Shape.set w = Shape.set ((248 * 2 ^ 8 + w) % 2 ^ 8)
    congr 1
    omega
  case char length bytes hlength h =>
    rw [Column.shape, type_char hlength]
    dsimp only
    rw [stringType_char hlength]
    rfl
  all_goals rfl

/-- The bounds of a value that some column takes. -/
def Value.Bounded : Value → Prop
  | .integer w n => n < 256 ^ w
  | .timestamp n => n < 256 ^ 4
  | .datetime n => n < 10 ^ 14
  | .newdate n => n < 256 ^ 3
  | .bit nbits n => n < 2 ^ nbits
  | .set w n => n < 256 ^ w
  | .timestamp2 dec sec usec =>
    dec ≤ 6 ∧ sec < 2 ^ 31 ∧ usec < 10 ^ 6 ∧ 10 ^ (6 - dec) ∣ usec
  | .datetime2 dec t => dec ≤ 6 ∧ IsDatetime t ∧ 10 ^ (6 - dec) ∣ t.secondPart
  | .time2 dec t => dec ≤ 6 ∧ IsTime t ∧ 10 ^ (6 - dec) ∣ t.secondPart
  | _ => True

theorem Column.Takes.bounded (h : c.Takes v) : v.Bounded := by
  cases h <;> simp_all [Value.Bounded]

/-- Two values of one shape with the same literal are the same value. -/
theorem literal_injective_of_shape {v w : Value} (hshape : v.shape = w.shape) (hv : v.Bounded)
    (hw : w.Bounded) (hv' : v.Exact) (hw' : w.Exact)
    (h : v.literal formats = w.literal formats) : v = w := by
  cases v <;> cases w <;> simp only [Value.shape, reduceCtorEq, Shape.integer.injEq,
    Shape.bit.injEq, Shape.enum.injEq, Shape.set.injEq, Shape.counted.injEq,
    Shape.timestamp2.injEq, Shape.datetime2.injEq, Shape.time2.injEq] at hshape
  case integer.integer =>
    subst hshape
    rw [writeSintAndUint_injective hv hw h]
  case timestamp.timestamp => rw [signed_injective hv hw (printInt_injective h)]
  case datetime.datetime => rw [printDatetime_injective hv hw h]
  case time.time => rw [printTime_injective h]
  case newdate.newdate => rw [printNewdate_injective hv hw h]
  case year.year => rw [Nat.add_right_cancel (printPadded_injective h)]
  case bit.bit =>
    subst hshape
    rw [writeBit_storeBig_injective hv hw h]
  case enum.enum =>
    subst hshape
    rw [decimal_injective h]
  case set.set =>
    subst hshape
    rw [writeBit_storeLittle_injective hv hw h]
  case counted.counted =>
    subst hshape
    rw [writeQuoted_injective hv' hw' h]
  case timestamp2.timestamp2 =>
    subst hshape
    obtain ⟨hdec, hs, hu, hdvd⟩ := hv
    obtain ⟨-, hs', hu', hdvd'⟩ := hw
    obtain ⟨hsec, husec⟩ := timevalToStr_injective hdec hs hs' hu hu' hdvd hdvd' h
    rw [hsec, husec]
  case datetime2.datetime2 =>
    subst hshape
    have h := (List.cons.inj (List.append_cancel_right h)).2
    rw [datetimeToStr_injective hv.2.1 hw.2.1 hv.1 hv.2.2 hw.2.2 h]
  case time2.time2 =>
    subst hshape
    have h := (List.cons.inj (List.append_cancel_right h)).2
    rw [timeToStr_injective hv.2.1 hw.2.1 hv.1 hv.2.2 hw.2.2 h]
  all_goals exact absurd hv' id

theorem Value.literal_injective {v w : Value} (hv : c.Takes v) (hw : c.Takes w) (hv' : v.Exact)
    (hw' : w.Exact) (h : v.literal formats = w.literal formats) : v = w :=
  literal_injective_of_shape formats (hv.shape_eq.trans hw.shape_eq.symm) hv.bounded hw.bounded
    hv' hw' h

/-- No literal of such a value is the text of a null field. -/
theorem Value.literal_ne_null (hv : v.Exact) : v.literal formats ≠ "NULL".toList := by
  have hmem : ∀ {t : Text}, 'N' ∉ t → t ≠ "NULL".toList :=
    fun ht heq => ht (heq ▸ List.mem_cons_self)
  have hhead : ∀ {c : Char} {t : Text}, c ≠ 'N' → c :: t ≠ "NULL".toList :=
    fun hc heq => hc (List.cons.inj heq).1
  have hdigits : ∀ k, 'N' ∉ decimal k := fun k => not_mem_decimal rfl k
  have hint : ∀ k, 'N' ∉ printInt k := by
    intro k
    unfold printInt
    split <;> simp [hdigits]
  cases v with
  | integer w n =>
    apply hmem
    have hparens : " (".toList = [' ', '('] := rfl
    change 'N' ∉ writeSintAndUint (signed w n) n
    unfold writeSintAndUint
    rw [hparens]
    split <;> simp [hint, hdigits]
  | timestamp n => exact hmem (hint _)
  | enum w n => exact hmem (hdigits n)
  | timestamp2 dec sec usec =>
    apply hmem
    have hfraction : 'N' ∉ printFraction usec dec := by
      unfold printFraction
      split <;> simp [not_mem_fmtNumber (c := 'N') rfl]
    change 'N' ∉ decimal (tvSec sec) ++ printFraction usec dec
    simp [hdigits, hfraction]
  | year n => exact hmem (not_mem_printPadded rfl 4 (n + 1900))
  | datetime | time | newdate | bit | set | counted | datetime2 | time2 => exact hhead (by decide)
  | float | double | newdecimal => exact absurd hv id

end Values

section Fields
variable (formats : Formats) {td : List Column} {cols : List Bool}

def ExactField (v : Option Value) : Prop := v.elim True Value.Exact

theorem fieldLiteral_injective {c : Column} {v w : Option Value} (hv : c.TakesField v)
    (hw : c.TakesField w) (hv' : ExactField v) (hw' : ExactField w)
    (h : (fieldLiteral formats v).text = (fieldLiteral formats w).text) : v = w := by
  cases v with
  | none =>
    cases w with
    | none => rfl
    | some w => exact absurd h.symm (Value.literal_ne_null formats hw')
  | some v =>
    cases w with
    | none => exact absurd h (Value.literal_ne_null formats hv')
    | some w => rw [Value.literal_injective formats hv hw hv' hw' h]

/-- The value of a printed field is known, and where it ends. -/
theorem cellLine_append_injective {column : ℕ} {l m : Line} {s t : Text}
    (h : cellLine ⟨column, l⟩ ++ s = cellLine ⟨column, m⟩ ++ t) : l.text = m.text ∧ s = t := by
  have hassoc : ∀ start digits value rest : Text,
      start ++ digits ++ '=' :: value ++ ['\n'] ++ rest =
        (start ++ digits ++ ['=']) ++ (value ++ '\n' :: rest) := by simp
  unfold cellLine textLine at h
  rw [hassoc, hassoc] at h
  exact append_sep_injective '\n' l.line m.line (List.append_cancel_left h)

/-- The packed fields of an image are known from its cells, and where these end. -/
theorem imageCells_append_injective {image image' : List (Option Value)}
    (h : List.Forall₂ Column.TakesField td image) (h' : List.Forall₂ Column.TakesField td image')
    (i : ℕ) (hexact : ∀ v ∈ packedFields cols i image, ExactField v)
    (hexact' : ∀ v ∈ packedFields cols i image', ExactField v) {s t : Text}
    (htext : (imageCells formats cols i image).flatMap cellLine ++ s =
      (imageCells formats cols i image').flatMap cellLine ++ t) :
    packedFields cols i image = packedFields cols i image' ∧ s = t := by
  induction h generalizing image' i with
  | nil =>
    cases h'
    exact ⟨rfl, htext⟩
  | @cons c v td image hv hrest ih =>
    cases h' with
    | @cons _ w _ image' hw hrest' =>
      cases hi : cols.getD i false with
      | false =>
        simp only [packedFields, imageCells, hi, Bool.false_eq_true, if_false]
          at hexact hexact' htext ⊢
        exact ih hrest' (i + 1) hexact hexact' htext
      | true =>
        simp only [packedFields, imageCells, hi, if_true, List.flatMap_cons, List.append_assoc,
          List.forall_mem_cons] at hexact hexact' htext ⊢
        obtain ⟨hvalue, hcells⟩ := cellLine_append_injective htext
        obtain ⟨hfields, hend⟩ := ih hrest' (i + 1) hexact.2 hexact'.2 hcells
        rw [fieldLiteral_injective formats hv hw hexact.1 hexact'.1 hvalue, hfields]
        exact ⟨rfl, hend⟩

theorem printImage_append_injective {image image' : List (Option Value)} {clause : Text}
    (h : List.Forall₂ Column.TakesField td image) (h' : List.Forall₂ Column.TakesField td image')
    (hexact : ∀ v ∈ packedFields cols 0 image, ExactField v)
    (hexact' : ∀ v ∈ packedFields cols 0 image', ExactField v) {s t : Text}
    (htext : printImage clause (imageCells formats cols 0 image) ++ s =
      printImage clause (imageCells formats cols 0 image') ++ t) :
    packedFields cols 0 image = packedFields cols 0 image' ∧ s = t := by
  unfold printImage at htext
  rw [List.append_assoc, List.append_assoc] at htext
  exact imageCells_append_injective formats h h' 0 hexact hexact' (List.append_cancel_left htext)

end Fields

section Rows
variable (formats : Formats) {td : List Column} {e : RowsData}

/-- All that is packed of a row shows in its text. -/
structure PackedRow.Exact (e : RowsData) (row : PackedRow) : Prop where
  image1 : ∀ v ∈ packedFields e.cols 0 row.image1, ExactField v
  image2 : e.type = .update → ∀ v ∈ packedFields e.colsAi 0 row.image2, ExactField v

theorem printRow_append_injective {row row' : PackedRow} (h : RowTakes td e row)
    (h' : RowTakes td e row') (hexact : row.Exact e) (hexact' : row'.Exact e) {name s t : Text}
    (htext : printRow e.type name (row.toRow formats e) ++ s =
      printRow e.type name (row'.toRow formats e) ++ t) :
    rowBytes e row = rowBytes e row' ∧ s = t := by
  have hcancel : ∀ {head body body' s t : Text}, head ++ body ++ s = head ++ body' ++ t →
      body ++ s = body' ++ t := by
    intro head body body' s t heq
    rw [List.append_assoc, List.append_assoc] at heq
    exact List.append_cancel_left heq
  unfold printRow PackedRow.toRow at htext
  unfold rowBytes
  cases htype : e.type with
  | write | delete =>
    rw [htype] at htext
    have htext := hcancel htext
    obtain ⟨himage, hend⟩ := printImage_append_injective formats h.image1 h'.image1 hexact.image1
      hexact'.image1 htext
    rw [himage]
    exact ⟨rfl, hend⟩
  | update =>
    rw [htype] at htext
    have htext := hcancel htext
    dsimp only at htext
    rw [List.append_assoc, List.append_assoc] at htext
    obtain ⟨himage₁, htext⟩ := printImage_append_injective formats h.image1 h'.image1
      hexact.image1 hexact'.image1 htext
    obtain ⟨himage₂, hend⟩ := printImage_append_injective formats (h.image2 htype)
      (h'.image2 htype) (hexact.image2 htype) (hexact'.image2 htype) htext
    rw [himage₁, himage₂]
    exact ⟨rfl, hend⟩

theorem printRow_ne_nil (type : RowsType) (name : Text) (row : Row) :
    printRow type name row ≠ [] := by
  simp [printRow, textLine]

theorem printRows_injective {rows rows' : List PackedRow}
    (h : ∀ row ∈ rows, RowTakes td e row) (h' : ∀ row ∈ rows', RowTakes td e row)
    (hexact : ∀ row ∈ rows, row.Exact e) (hexact' : ∀ row ∈ rows', row.Exact e) {name : Text}
    (htext : (rows.map (PackedRow.toRow formats e)).flatMap (printRow e.type name) =
      (rows'.map (PackedRow.toRow formats e)).flatMap (printRow e.type name)) :
    rows.map (rowBytes e) = rows'.map (rowBytes e) := by
  induction rows generalizing rows' with
  | nil =>
    cases rows' with
    | nil => rfl
    | cons row' rows' =>
      have hne := printRow_ne_nil e.type name (row'.toRow formats e)
      simp [hne] at htext
  | cons row rows ih =>
    cases rows' with
    | nil =>
      have hne := printRow_ne_nil e.type name (row.toRow formats e)
      simp [hne] at htext
    | cons row' rows' =>
      rw [List.forall_mem_cons] at h h' hexact hexact'
      rw [List.map_cons, List.map_cons, List.flatMap_cons, List.flatMap_cons] at htext
      obtain ⟨hrow, hrest⟩ := printRow_append_injective formats h.1 h'.1 hexact.1 hexact'.1 htext
      rw [List.map_cons, List.map_cons, hrow, ih h.2 h'.2 hexact.2 hexact'.2 hrest]

/-- The line of an insert without rows begins none with rows. -/
theorem insertValues_ne (name : Text) (row : Row) (rows : List Row) :
    textLine ("### INSERT INTO ".toList ++ name ++ " VALUES ()".toList) ≠
      (row :: rows).flatMap (printRow .write name) := by
  have hhead : "### INSERT INTO ".toList = "### ".toList ++ sqlCommand .write ++ [' '] := rfl
  have hvalues : " VALUES ()".toList = ' ' :: "VALUES ()".toList := rfl
  have hnone : ∀ start last : Text, textLine (start ++ [' '] ++ name ++ ' ' :: last) =
      (start ++ ' ' :: name) ++ ' ' :: (last ++ ['\n']) := by simp [textLine]
  have hsome : ∀ line images rest : Text, textLine line ++ images ++ rest =
      line ++ '\n' :: (images ++ rest) := by simp [textLine]
  intro heq
  rw [hhead, hvalues, hnone, List.flatMap_cons, printRow, hsome] at heq
  exact absurd (List.cons.inj (List.append_cancel_left heq)).1 (by decide)

/-- What a rows event prints tells the bytes of its rows, as long as no string in them has a
backslash and no value is a number whose format rounds. -/
theorem printVerboseRows_injective {mem mem' : Memory} {rowsEnd rowsEnd' : ℕ}
    {tables : List (ℕ × TableDef)} {map : TableDef} (hmap : tables.lookup e.tableId = some map)
    {rows rows' : List PackedRow} (h : ∀ row ∈ rows, RowTakes map.columns e row)
    (h' : ∀ row ∈ rows', RowTakes map.columns e row) (hexact : ∀ row ∈ rows, row.Exact e)
    (hexact' : ∀ row ∈ rows', row.Exact e) (hbytes : HoldsAt mem 0 (rows.flatMap (rowBytes e)))
    (hbytes' : HoldsAt mem' 0 (rows'.flatMap (rowBytes e)))
    (hend : (rows.flatMap (rowBytes e)).length = rowsEnd)
    (hend' : (rows'.flatMap (rowBytes e)).length = rowsEnd')
    (htext : (printVerboseRows formats mem rowsEnd tables e).text =
      (printVerboseRows formats mem' rowsEnd' tables e).text) :
    rows.map (rowBytes e) = rows'.map (rowBytes e) := by
  have hempty : rowsEnd = 0 ↔ rows = [] := hend ▸ rows_eq_nil_iff h
  have hempty' : rowsEnd' = 0 ↔ rows' = [] := hend' ▸ rows_eq_nil_iff h'
  unfold printVerboseRows at htext
  rw [hmap] at htext
  dsimp only at htext
  rw [printRows_eq formats h hbytes (by omega), printRows_eq formats h' hbytes' (by omega)] at htext
  by_cases hnone : e.type = .write ∧ rowsEnd = 0 <;>
    by_cases hnone' : e.type = .write ∧ rowsEnd' = 0
  · rw [hempty.mp hnone.2, hempty'.mp hnone'.2]
  · rw [if_pos hnone, if_neg hnone'] at htext
    have htext := List.append_cancel_left htext
    cases rows' with
    | nil => rw [hempty.mp hnone.2]
    | cons row' rows' =>
      rw [hnone.1] at htext
      exact absurd htext (insertValues_ne _ _ _)
  · rw [if_neg hnone, if_pos hnone'] at htext
    have htext := List.append_cancel_left htext
    cases rows with
    | nil => rw [hempty'.mp hnone'.2]
    | cons row rows =>
      rw [hnone'.1] at htext
      exact absurd htext.symm (insertValues_ne _ _ _)
  · rw [if_neg hnone, if_neg hnone'] at htext
    exact printRows_injective formats h h' hexact hexact' (List.append_cancel_left htext)

theorem namedRow_exact {bytes : List UInt8} (h : backslash ∉ bytes) :
    ∀ row ∈ [namedRow bytes], row.Exact updateData := by
  intro row hrow
  obtain rfl := List.mem_singleton.mp hrow
  constructor
  · intro v hv
    have hv : v ∈ [some (.integer 4 7), none] := hv
    simp only [List.mem_cons, List.not_mem_nil, or_false] at hv
    rcases hv with rfl | rfl <;> exact trivial
  · intro _ v hv
    have hv : v ∈ [some (.counted 1 bytes)] := hv
    obtain rfl := List.mem_singleton.mp hv
    exact h

/-- Two updates to different strings are printed as different texts. -/
theorem printVerboseRows_injective_update :
    (printVerboseRows noFormats (memoryOf (rowBytes updateData (namedRow [97, 98]))) 9
        updateTables updateData).text ≠
      (printVerboseRows noFormats (memoryOf (rowBytes updateData (namedRow [97, 39, 98]))) 10
        updateTables updateData).text := by
  intro htext
  have hmap : updateTables.lookup updateData.tableId =
    some ⟨"db".toList, "t".toList, [⟨.long, 0⟩, ⟨.varchar, 20⟩]⟩ := rfl
  have hbytes := printVerboseRows_injective noFormats hmap
    (namedRow_takes (show [97, 98].length ≤ 20 by decide) _ hmap)
    (namedRow_takes (show [97, 39, 98].length ≤ 20 by decide) _ hmap)
    (namedRow_exact (by decide)) (namedRow_exact (by decide)) (holdsAt_memoryOf _)
    (holdsAt_memoryOf _) rfl rfl htext
  exact absurd hbytes (by decide)

end Rows

end BinlogCapture
