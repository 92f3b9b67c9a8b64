import BinlogCapture.PrintedText
import BinlogCapture.ReadJournal

/-! The way of a binlog name: the packed record it is stored in, the lines of a pass it is printed
in, and the record it is copied to when the listener has read it back. -/
namespace BinlogCapture
open CString Fallible LineFeed

/-- The size of `szBinLogName` in `BinLogInfo` and `BinLogSequence`. -/
def lenBinLogName : ℕ := 50

/-- A 32-bit number in memory, lowest byte first. -/
def bytes32 (n : ℕ) : Text :=
  [Char.ofNat (n % 256), Char.ofNat (n / 2 ^ 8 % 256), Char.ofNat (n / 2 ^ 16 % 256),
    Char.ofNat (n / 2 ^ 24 % 256)]

/-- A packed `BinLogInfo` or `BinLogSequence` in the memory `mem`: the name is copied, and then the
two numbers behind it are assigned. -/
def storeRecord (mem name : Text) (a b : ℕ) : Text :=
  poke (poke (strcpy mem 0 name) lenBinLogName (bytes32 a)) (lenBinLogName + 4) (bytes32 b)

/-- The name of a record, as `strcmp`, `strcpy` and `%s` read it. -/
def recordName (mem : Text) : Text := strAt mem 0

/-- The bytes of the two numbers of a record. -/
def recordNumbers (mem : Text) : Text × Text :=
  ((mem.drop lenBinLogName).take 4, (mem.drop (lenBinLogName + 4)).take 4)

/-- A record of this name and these numbers is stored as such, whatever was in its memory. -/
def RecordHolds (name : Text) (a b : ℕ) : Prop :=
  ∀ mem : Text, lenBinLogName + 8 ≤ mem.length →
    recordName (storeRecord mem name a b) = name ∧
      recordNumbers (storeRecord mem name a b) = (bytes32 a, bytes32 b)

/-- The line that is printed is read back with this name, in every state of the listener. -/
def LineNames (printed : Option Text) (name : Text) : Prop :=
  ∃ t, printed = some t ∧ ∀ (seq : BinLogSequence) (loc : Locals),
    ∃ line ∈ (completeLines t).head?, ∃ h, dispatch seq loc line = .ok h ∧
      h.loc.szBinLogName = name

/-- The name from `SHOW MASTER LOGS` to the XAI record: every record it is stored in holds it,
whatever its numbers are, and the two lines it is read back from bring it. -/
structure NameCarried (name : Text) : Prop where
  records : ∀ a b, a < 2 ^ 32 → b < 2 ^ 32 → RecordHolds name a b
  firstBinlog : ∀ ulIndex date,
    LineNames (printfResult (passLine firstBinlogTag name ulIndex date)) name
  startBinlog : ∀ ulIndex, LineNames (some (fileLine startBinlogTag name ulIndex)) name
  lastBinlog : ∀ ulIndex date, printfResult (passLine lastBinlogTag name ulIndex date) =
    some (passLine lastBinlogTag name ulIndex date)

section Records
variable {mem name : Text} {a b : ℕ}

/-- The numbers stand behind the first 50 bytes of what `strcpy` leaves. -/
theorem storeRecord_eq (hmem : lenBinLogName + 8 ≤ mem.length) :
    storeRecord mem name a b = (strcpy mem 0 name).take lenBinLogName ++
      (bytes32 a ++ (bytes32 b ++ (strcpy mem 0 name).drop (lenBinLogName + 8))) := by
  have hlen : lenBinLogName + 8 ≤ (strcpy mem 0 name).length := by
    rw [strcpy, length_poke (Nat.zero_le _)]
    exact hmem.trans (Nat.le_max_left _ _)
  rw [storeRecord]
  generalize strcpy mem 0 name = m at hlen
  have htake : (m.take lenBinLogName).length = lenBinLogName := by
    rw [List.length_take]
    omega
  have hpoke : poke m lenBinLogName (bytes32 a) =
      (m.take lenBinLogName ++ bytes32 a) ++ m.drop (lenBinLogName + 4) := rfl
  have hfour : lenBinLogName + 4 = (m.take lenBinLogName ++ bytes32 a).length := by
    rw [List.length_append, htake]
    rfl
  rw [hpoke, poke_append hfour, List.drop_drop]
  simp only [List.append_assoc]
  rfl

theorem recordNumbers_storeRecord (hmem : lenBinLogName + 8 ≤ mem.length) :
    recordNumbers (storeRecord mem name a b) = (bytes32 a, bytes32 b) := by
  have htake : ((strcpy mem 0 name).take lenBinLogName).length = lenBinLogName := by
    have hlen : mem.length ≤ (strcpy mem 0 name).length := by
      rw [strcpy, length_poke (Nat.zero_le _)]
      exact Nat.le_max_left _ _
    rw [List.length_take]
    omega
  rw [recordNumbers, storeRecord_eq hmem]
  generalize (strcpy mem 0 name).take lenBinLogName = front at htake
  generalize (strcpy mem 0 name).drop (lenBinLogName + 8) = rest
  have hdrop : (front ++ (bytes32 a ++ (bytes32 b ++ rest))).drop lenBinLogName =
      bytes32 a ++ (bytes32 b ++ rest) := List.drop_left' htake
  rw [← List.drop_drop, hdrop]
  rfl

theorem recordName_of_length_lt (hname : nul ∉ name) (hlen : name.length < lenBinLogName)
    (hmem : lenBinLogName + 8 ≤ mem.length) : recordName (storeRecord mem name a b) = name := by
  rw [storeRecord_eq hmem, strcpy_zero, List.take_append, List.take_of_length_le hlen.le]
  obtain ⟨k, hk⟩ : ∃ k, lenBinLogName - name.length = k + 1 :=
    ⟨lenBinLogName - name.length - 1, by omega⟩
  rw [hk, List.take_succ_cons, List.append_assoc, List.cons_append]
  exact strAt_zero_append hname _

/-- A name of 50 bytes runs on into the number behind it, a longer one is cut by it. -/
theorem length_lt_of_recordHolds (hname : nul ∉ name)
    (h : ∀ a b, a < 2 ^ 32 → b < 2 ^ 32 → RecordHolds name a b) :
    name.length < lenBinLogName := by
  by_contra hlen
  obtain ⟨mem, hmem⟩ : ∃ mem : Text, lenBinLogName + 8 ≤ mem.length :=
    ⟨List.replicate (lenBinLogName + 8) nul, by simp⟩
  have htake : ∀ m, (name ++ m).take lenBinLogName = name.take lenBinLogName :=
    fun m => List.take_append_of_le_length (by omega)
  rcases Nat.eq_or_lt_of_le (Nat.le_of_not_lt hlen) with heq | hlt
  · have hread := (h 1 0 (by decide) (by decide) mem hmem).1
    rw [storeRecord_eq hmem, strcpy_zero, htake, List.take_of_length_le heq.ge] at hread
    have hone : bytes32 1 = '\x01' :: nul :: [nul, nul] := rfl
    have hrun : ∀ rest, strAt (name ++ ('\x01' :: nul :: rest)) 0 = name ++ ['\x01'] := by
      intro rest
      have hnul : nul ∉ name ++ ['\x01'] := by
        rw [List.mem_append, not_or]
        exact ⟨hname, by decide⟩
      have hs := strAt_zero_append hnul rest
      rwa [List.append_assoc] at hs
    rw [hone, List.cons_append, List.cons_append, recordName, hrun] at hread
    have := congrArg List.length hread
    rw [List.length_append, List.length_singleton] at this
    omega
  · have hread := (h 0 0 (by decide) (by decide) mem hmem).1
    have hnul : nul ∉ name.take lenBinLogName := fun hm => hname (List.mem_of_mem_take hm)
    have hzero : bytes32 0 = nul :: [nul, nul, nul] := rfl
    have hcut : ∀ rest, strAt (name.take lenBinLogName ++ (nul :: rest)) 0 =
        name.take lenBinLogName := fun rest => strAt_zero_append hnul rest
    rw [storeRecord_eq hmem, strcpy_zero, htake, hzero, List.cons_append, recordName,
      hcut] at hread
    have := congrArg List.length hread
    rw [List.length_take] at this
    omega

end Records

section Lines
variable {name : Text}

theorem newline_not_mem_date (date : DateText) : '\n' ∉ date.text := by
  intro h
  rcases date.digits _ h with hd | hd
  · exact absurd hd (by decide)
  · exact absurd hd (by decide)

theorem completeLines_fileLine {tag : Text} (htag : '\n' ∉ tag) (hname : '\n' ∉ name)
    (ulIndex : ℕ) : completeLines (fileLine tag name ulIndex) =
      [tag ++ (name ++ '!' :: (decimal ulIndex ++ "!*".toList))] := by
  apply completeLines_textLine
  simp only [List.mem_append, List.mem_cons, not_or]
  exact ⟨htag, hname, by decide, newline_not_mem_decimal ulIndex, by decide⟩

theorem completeLines_passLine {tag : Text} (htag : '\n' ∉ tag) (hname : '\n' ∉ name)
    (ulIndex : ℕ) (date : DateText) : completeLines (passLine tag name ulIndex date) =
      [tag ++ (name ++ '!' :: (decimal ulIndex ++ '!' :: (date.text ++ "!*".toList)))] := by
  apply completeLines_textLine
  simp only [List.mem_append, List.mem_cons, not_or]
  exact ⟨htag, hname, by decide, newline_not_mem_decimal ulIndex, by decide,
    newline_not_mem_date date, by decide⟩

/-- The name that is read from a line ends at its first separator. -/
theorem separator_not_mem_of_lineNames (hname : '\n' ∉ name) {ulIndex : ℕ}
    (h : LineNames (some (fileLine startBinlogTag name ulIndex)) name) : '!' ∉ name := by
  obtain ⟨t, ht, h⟩ := h
  obtain ⟨line, hline, hh, hd, hread⟩ := h .zero {}
  rw [← Option.some.inj ht, completeLines_fileLine (by decide) hname] at hline
  rw [← Option.mem_some.mp hline, dispatch_startBinlog, startBinlogLine] at hd
  obtain ⟨p, hp, hd⟩ := bind_eq_ok_iff.mp hd
  rw [← Except.ok.inj hd] at hread
  rw [field] at hp
  split at hp
  · cases hp
  · next r hr =>
    rw [← hread, ← Except.ok.inj hp]
    exact (strchr_eq_some hr).2

theorem lineNames_startBinlog (hname : '\n' ∉ name) (hsep : '!' ∉ name) (ulIndex : ℕ) :
    LineNames (some (fileLine startBinlogTag name ulIndex)) name := by
  refine ⟨_, rfl, fun seq loc => ?_⟩
  rw [completeLines_fileLine (by decide) hname]
  obtain ⟨h, hd, hread, -⟩ := acts_startBinlog hsep (decimal ulIndex ++ "!*".toList) seq loc
  exact ⟨_, rfl, h, hd, hread⟩

theorem lineNames_firstBinlog (hname : '\n' ∉ name) (hsep : '!' ∉ name) (hconv : '%' ∉ name)
    (ulIndex : ℕ) (date : DateText) :
    LineNames (printfResult (passLine firstBinlogTag name ulIndex date)) name := by
  refine ⟨_, printfResult_eq_self_iff.mpr ?_, fun seq loc => ?_⟩
  · rw [percent_mem_passLine (by decide)]
    exact hconv
  · rw [completeLines_passLine (by decide) hname]
    obtain ⟨h, hd, hread, -⟩ := acts_firstBinlog hsep
      (decimal ulIndex ++ '!' :: (date.text ++ "!*".toList)) seq loc
    exact ⟨_, rfl, h, hd, hread⟩

end Lines

end BinlogCapture
