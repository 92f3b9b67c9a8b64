import BinlogCapture.Shared
import BinlogCapture.Lib.Bytes

/-! The XAI file: one packed `BinLogSequence`, which `SaveInDisk` writes over the one before and
which the next process reads in `InitParam`. `DSPXAI` shows it and `CRTXAI` sets it. -/
namespace BinlogCapture
open Bytes CString

/-- A packed `BinLogSequence` in memory. Behind its terminator the name holds anything. -/
structure SequenceRecord where
  szBinLogName : List UInt8
  ulPosition : ℕ
  ulIndex : ℕ
  length_name : szBinLogName.length = 50
  position_lt : ulPosition < 256 ^ 4
  index_lt : ulIndex < 256 ^ 4
  deriving DecidableEq, Repr

/-- `sizeof(BinLogSequence)` -/
def sizeofSequence : ℕ := 58

def SequenceRecord.bytes (r : SequenceRecord) : List UInt8 :=
  r.szBinLogName ++ (storeLittle 4 r.ulPosition ++ storeLittle 4 r.ulIndex)

def SequenceRecord.ofBytes (bs : List UInt8) (h : bs.length = sizeofSequence) : SequenceRecord where
  szBinLogName := bs.take 50
  ulPosition := little ((bs.drop 50).take 4)
  ulIndex := little (bs.drop 54)
  length_name := by
    rw [List.length_take, h]
    rfl
  position_lt := by
    have hlt := little_lt ((bs.drop 50).take 4)
    rwa [List.length_take, List.length_drop, h] at hlt
  index_lt := by
    have hlt := little_lt (bs.drop 54)
    rwa [List.length_drop, h] at hlt

/-- `memset` to zero. -/
def SequenceRecord.zero : SequenceRecord where
  szBinLogName := List.replicate 50 0
  ulPosition := 0
  ulIndex := 0
  length_name := rfl
  position_lt := by decide
  index_lt := by decide

/-- The text up to the terminator. A name that fills its field runs on into the numbers. -/
def SequenceRecord.name (r : SequenceRecord) : Text :=
  (r.bytes.takeWhile (· ≠ 0)).map fun b => Char.ofNat b.toNat

/-- What the record means. -/
def SequenceRecord.toSequence (r : SequenceRecord) : BinLogSequence :=
  ⟨r.name, r.ulPosition, r.ulIndex⟩

/-- The file of the XAI, if it exists. -/
abbrev XaiFile := Option (List UInt8)

/-- `InitParam`: the record is cleared, and what the file holds is read into it. -/
def initParam : XaiFile → SequenceRecord
  | none => .zero
  | some file => .ofBytes
      (file.take sizeofSequence ++ SequenceRecord.zero.bytes.drop (file.take sizeofSequence).length)
      (by simp [SequenceRecord.bytes, SequenceRecord.zero, sizeofSequence])

/-- `SaveInDisk`. The file was opened, and created, by `InitParam`. -/
def saveInDisk (file : XaiFile) (r : SequenceRecord) : XaiFile :=
  some (r.bytes ++ (file.getD []).drop sizeofSequence)

/-- `DspXAI` -/
def dspXai (szPathName : Text) : XaiFile → Text
  | none => "Error open ".toList ++ szPathName ++ ['\n']
  | some file =>
    if h : (file.take sizeofSequence).length = sizeofSequence then
      let stSequence := SequenceRecord.ofBytes (file.take sizeofSequence) h
      "BinLogName:<".toList ++ stSequence.name ++ "> Position:".toList ++
        decimal stSequence.ulPosition ++ " Index:".toList ++ decimal stSequence.ulIndex ++ ['\n']
    else if file.length = 0 then "read ".toList ++ szPathName ++ " no data available\n".toList
    else "Error read ".toList ++ szPathName ++ " read:".toList ++ decimal file.length ++
      " expected:".toList ++ decimal sizeofSequence ++ ['\n']

/-- `strcpy` of a name that fits. -/
def SequenceRecord.copyName (r : SequenceRecord) (name : Text) (h : name.length < 50) :
    SequenceRecord :=
  { r with
    szBinLogName := name.map (fun c => UInt8.ofNat c.toNat) ++
      0 :: r.szBinLogName.drop (name.length + 1)
    length_name := by simp [r.length_name]; omega }

/-- `CrtXAI`, with the record it finds on the stack: the new file, and the copy of the old one. -/
def crtXai (stack : SequenceRecord) (file : XaiFile) (szBinLogName : Text)
    (hname : szBinLogName.length < 50) (szPosition szIndex : Text) : XaiFile × XaiFile :=
  let stSequence : SequenceRecord := { stack.copyName szBinLogName hname with
    ulPosition := toULong (atol szPosition)
    ulIndex := toULong (atol szIndex)
    position_lt := by unfold toULong; omega
    index_lt := by unfold toULong; omega }
  (saveInDisk file stSequence, file)

section Bytes
variable (r : SequenceRecord)

@[simp] theorem SequenceRecord.length_bytes : r.bytes.length = sizeofSequence := by
  simp [SequenceRecord.bytes, r.length_name, sizeofSequence]

/-- The record is read back from its bytes. -/
theorem SequenceRecord.ofBytes_bytes (h : r.bytes.length = sizeofSequence) :
    .ofBytes r.bytes h = r := by
  have hname : r.bytes.take 50 = r.szBinLogName := by
    rw [SequenceRecord.bytes, List.take_left' r.length_name]
  have hdrop : r.bytes.drop 50 = storeLittle 4 r.ulPosition ++ storeLittle 4 r.ulIndex := by
    rw [SequenceRecord.bytes, List.drop_left' r.length_name]
  have hposition : (r.bytes.drop 50).take 4 = storeLittle 4 r.ulPosition := by
    rw [hdrop, List.take_left' (by simp)]
  have hindex : r.bytes.drop 54 = storeLittle 4 r.ulIndex := by
    have hsplit : r.bytes.drop 54 = (r.bytes.drop 50).drop 4 := by rw [List.drop_drop]
    rw [hsplit, hdrop, List.drop_left' (by simp)]
  obtain ⟨name, position, index, hlength, hp, hi⟩ := r
  unfold SequenceRecord.ofBytes
  simp only [hname, hposition, hindex, little_store hp, little_store hi]

theorem take_saveInDisk (file : XaiFile) :
    (r.bytes ++ (file.getD []).drop sizeofSequence).take sizeofSequence = r.bytes :=
  List.take_left' r.length_bytes

/-- The next process reads what was saved, whatever the file has held before. -/
theorem initParam_saveInDisk (file : XaiFile) : initParam (saveInDisk file r) = r := by
  unfold saveInDisk initParam
  dsimp only
  have hbytes : (r.bytes ++ (file.getD []).drop sizeofSequence).take sizeofSequence ++
      SequenceRecord.zero.bytes.drop
        ((r.bytes ++ (file.getD []).drop sizeofSequence).take sizeofSequence).length = r.bytes := by
    rw [take_saveInDisk, List.drop_of_length_le (by simp), List.append_nil]
  simp only [hbytes]
  exact r.ofBytes_bytes _

end Bytes

/-- The records that a process saves, one over the other. -/
def saveAll (file : XaiFile) (rs : List SequenceRecord) : XaiFile := rs.foldl saveInDisk file

/-- The next process begins with the last record, or with that of the process before when none was
saved. -/
theorem initParam_saveAll (file : XaiFile) (rs : List SequenceRecord) :
    initParam (saveAll file rs) = rs.getLast?.getD (initParam file) := by
  induction rs generalizing file with
  | nil => rfl
  | cons r rs ih =>
    change initParam (saveAll (saveInDisk file r) rs) = _
    rw [ih, initParam_saveInDisk]
    cases rs with
    | nil => rfl
    | cons s rs => simp [List.getLast?_cons]

/-- In the terms of the shared variables: the next process begins at the position that is persisted.
-/
theorem toSequence_initParam (file : XaiFile) (rs : List SequenceRecord) {g : Shared}
    (hxai : g.xai = rs.map SequenceRecord.toSequence) :
    (initParam (saveAll file rs)).toSequence = g.persisted.getD (initParam file).toSequence := by
  rw [initParam_saveAll, Shared.persisted, hxai, List.getLast?_map]
  cases rs.getLast? <;> rfl

section Names
variable {name : Text}

/-- A name of a binlog that fits its field. -/
structure NameFits (name : Text) : Prop where
  length_lt : name.length < 50
  char : ∀ c ∈ name, 0 < c.toNat ∧ c.toNat < 256

theorem toChars_ofChars (h : ∀ c ∈ name, c.toNat < 256) :
    (name.map fun c => UInt8.ofNat c.toNat).map (fun b => Char.ofNat b.toNat) = name := by
  induction name with
  | nil => rfl
  | cons c name ih =>
    rw [List.forall_mem_cons] at h
    rw [List.map_cons, List.map_cons, ih h.2, UInt8.toNat_ofNat', Nat.mod_eq_of_lt h.1,
      Char.ofNat_toNat]

/-- A name is read back from its field, whatever stands behind its terminator. -/
theorem SequenceRecord.name_eq {r : SequenceRecord} {rest : List UInt8} (h : NameFits name)
    (hfield : r.szBinLogName = name.map (fun c => UInt8.ofNat c.toNat) ++ 0 :: rest) :
    r.name = name := by
  have hnul : (0 : UInt8) ∉ name.map fun c => UInt8.ofNat c.toNat := by
    intro hmem
    obtain ⟨c, hc, hzero⟩ := List.mem_map.mp hmem
    have hchar := h.char c hc
    have htoNat := congrArg UInt8.toNat hzero
    simp [Nat.mod_eq_of_lt hchar.2] at htoNat
    omega
  have htake : r.bytes.takeWhile (· ≠ 0) = name.map fun c => UInt8.ofNat c.toNat := by
    rw [SequenceRecord.bytes, hfield, List.append_assoc, List.cons_append,
      List.takeWhile_append_of_pos]
    · simp
    · intro b hb
      have hne : b ≠ 0 := by
        rintro rfl
        exact hnul hb
      simpa using hne
  rw [SequenceRecord.name, htake, toChars_ofChars fun c hc => (h.char c hc).2]

/-- The line that `DSPXAI` prints, with the texts around the two numbers. -/
theorem dspXai_saveInDisk (szPathName : Text) (file : XaiFile) (r : SequenceRecord) :
    dspXai szPathName (saveInDisk file r) =
      "BinLogName:<".toList ++ r.name ++ "> Position:".toList ++ decimal r.ulPosition ++
        " Index:".toList ++ decimal r.ulIndex ++ ['\n'] := by
  unfold saveInDisk dspXai
  dsimp only
  have hlen : ((r.bytes ++ (file.getD []).drop sizeofSequence).take sizeofSequence).length =
      sizeofSequence := by
    rw [take_saveInDisk, r.length_bytes]
  have hrecord : SequenceRecord.ofBytes
      ((r.bytes ++ (file.getD []).drop sizeofSequence).take sizeofSequence) hlen = r := by
    simp only [take_saveInDisk]
    exact r.ofBytes_bytes _
  rw [dif_pos hlen, hrecord]

/-- Two numbers are read off such a line. -/
theorem numbers_injective {front mid back : Text} {m n m' n' : ℕ}
    (h : front ++ decimal m ++ ' ' :: mid ++ decimal n ++ '\n' :: back =
      front ++ decimal m' ++ ' ' :: mid ++ decimal n' ++ '\n' :: back) : m = m' ∧ n = n' := by
  have hvalue : ∀ {i j : ℕ}, decimal i = decimal j → i = j := by
    intro i j hij
    rw [← digitsValue_decimal i, hij, digitsValue_decimal]
  simp only [List.append_assoc, List.cons_append] at h
  obtain ⟨hm, htail⟩ := append_sep_injective ' ' (not_mem_decimal rfl m) (not_mem_decimal rfl m')
    (List.append_cancel_left h)
  obtain ⟨hn, -⟩ := append_sep_injective '\n' (not_mem_decimal rfl n) (not_mem_decimal rfl n')
    (List.append_cancel_left htail)
  exact ⟨hvalue hm, hvalue hn⟩

/-- What `DSPXAI` shows can be set again with `CRTXAI`, so that it shows the same, exactly if the
numbers fit a signed `long`. -/
theorem dspXai_crtXai_iff (szPathName : Text) (stack : SequenceRecord) (file file' : XaiFile)
    {r : SequenceRecord} {rest : List UInt8} (h : NameFits name)
    (hfield : r.szBinLogName = name.map (fun c => UInt8.ofNat c.toNat) ++ 0 :: rest) :
    dspXai szPathName (crtXai stack file' name h.length_lt (decimal r.ulPosition)
        (decimal r.ulIndex)).1 = dspXai szPathName (saveInDisk file r) ↔
      r.ulPosition < 2 ^ 31 ∧ r.ulIndex < 2 ^ 31 := by
  unfold crtXai
  dsimp only
  rw [dspXai_saveInDisk, dspXai_saveInDisk, SequenceRecord.name_eq h hfield,
    SequenceRecord.name_eq h rfl]
  dsimp only
  rw [toULong_atol_decimal, toULong_atol_decimal]
  have hmid : " Index:".toList = ' ' :: "Index:".toList := rfl
  rw [hmid]
  constructor
  · intro htext
    obtain ⟨hposition, hindex⟩ := numbers_injective htext
    omega
  · rintro ⟨hposition, hindex⟩
    rw [Nat.min_eq_left (by omega), Nat.min_eq_left (by omega)]

end Names

/-- The record of a position in the first binlog. -/
def firstRecord (ulPosition : ℕ) (h : ulPosition < 256 ^ 4) : SequenceRecord :=
  { SequenceRecord.zero.copyName "bin.000001".toList (by decide) with
    ulPosition := ulPosition
    position_lt := h }

theorem nameFits_first : NameFits "bin.000001".toList where
  length_lt := by decide
  char := by
    intro c hc
    have hall : "bin.000001".toList.all (fun c => 0 < c.toNat && c.toNat < 256) = true := rfl
    simpa using List.all_eq_true.mp hall c hc

/-- A position behind 2 GB is set to another one. -/
theorem dspXai_crtXai_first : ∃ r : SequenceRecord, r.ulPosition = 2 ^ 31 ∧
    dspXai [] (crtXai .zero none "bin.000001".toList nameFits_first.length_lt
      (decimal r.ulPosition) (decimal r.ulIndex)).1 ≠ dspXai [] (saveInDisk none r) := by
  refine ⟨firstRecord (2 ^ 31) (by decide), rfl, fun heq => ?_⟩
  have hshort := (dspXai_crtXai_iff [] .zero none none nameFits_first rfl).mp heq
  exact absurd hshort.1 (lt_irrefl _)

end BinlogCapture
