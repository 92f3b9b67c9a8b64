import BinlogCapture.Dump

/-! One pass of `ReadJournal` over the binlog files: the lines that frame what `StartReadBinLog`
prints, and the pointer to the entry of the current file. -/
namespace BinlogCapture
open CString

/-- What `GetDateTime` returns: digits and their separators. -/
structure DateText where
  text : Text
  digits : ∀ c ∈ text, c.isDigit ∨ c ∈ ['-', ' ', ':', '.']
  deriving DecidableEq

/-- What `GetLocalTime` fills in. -/
structure SystemTime where
  wYear : UInt16
  wMonth : UInt16
  wDay : UInt16
  wHour : UInt16
  wMinute : UInt16
  wSecond : UInt16
  wMilliseconds : UInt16

/-- A number with leading zeros, as `%02d` and its like print it. -/
def zeroPadded (width : ℕ) (n : UInt16) : Text := List.leftpad width '0' (decimal n.toNat)

theorem isDigit_of_mem_zeroPadded {width : ℕ} {n : UInt16} {c : Char}
    (h : c ∈ zeroPadded width n) : c.isDigit := by
  rw [zeroPadded, List.leftpad, List.mem_append] at h
  rcases h with h | h
  · rw [List.eq_of_mem_replicate h]
    rfl
  · exact isDigit_of_mem_decimal h

/-- The format `%04d-%02d-%02d %02d:%02d:%02d.%03d`. -/
def SystemTime.text (time : SystemTime) : Text :=
  zeroPadded 4 time.wYear ++ '-' :: (zeroPadded 2 time.wMonth ++ '-' :: (zeroPadded 2 time.wDay ++
    ' ' :: (zeroPadded 2 time.wHour ++ ':' :: (zeroPadded 2 time.wMinute ++
      ':' :: (zeroPadded 2 time.wSecond ++ '.' :: zeroPadded 3 time.wMilliseconds)))))

theorem SystemTime.text_digits (time : SystemTime) :
    ∀ c ∈ time.text, c.isDigit ∨ c ∈ ['-', ' ', ':', '.'] := by
  have hnum : ∀ {width : ℕ} {n : UInt16}, ∀ c ∈ zeroPadded width n,
      c.isDigit ∨ c ∈ ['-', ' ', ':', '.'] := fun c hc => .inl (isDigit_of_mem_zeroPadded hc)
  have hsep : ∀ sep ∈ ['-', ' ', ':', '.'], ∀ c ∈ [sep], c.isDigit ∨ c ∈ ['-', ' ', ':', '.'] :=
    fun sep hsep c hc => .inr (List.mem_singleton.mp hc ▸ hsep)
  unfold SystemTime.text
  simp only [List.forall_mem_append, List.forall_mem_cons]
  exact ⟨hnum, by decide, hnum, by decide, hnum, by decide, hnum, by decide, hnum, by decide, hnum,
    by decide, hnum⟩

/-- `GetDateTime` -/
def getDateTime (time : SystemTime) : DateText := ⟨time.text, time.text_digits⟩

/-- `PrintfResult`: the message is its own format. A conversion takes an argument that is not
passed, so what it prints is undefined. -/
def printfResult : Text → Option Text
  | [] => some []
  | ['%'] => none
  | '%' :: c :: t => if c = '%' then (printfResult t).map ('%' :: ·) else none
  | c :: t => (printfResult t).map (c :: ·)

/-- A line `*!TAG!name!index!date!*`. -/
def passLine (tag name : Text) (ulIndex : ℕ) (date : DateText) : Text :=
  textLine (tag ++ (name ++ '!' :: (decimal ulIndex ++ '!' :: (date.text ++ "!*".toList))))

/-- What the loop over the files meets: the outcome of `StartReadBinLog` with the text it prints
between its two lines, and the exit flag behind it. -/
structure FileOutcome where
  status : ExitStatus
  text : Text
  fExitApp : Bool
  deriving DecidableEq, Repr

inductive Piece where
  | frame (line : Text)
  | body (text : Text)
  deriving DecidableEq, Repr

def Piece.isFrame : Piece → Bool
  | .frame _ => true
  | .body _ => false

def fileFrame (ulIndex : ℕ) (info : BinLogInfo) : List Piece :=
  [.frame (fileLine startBinlogTag info.szBinLogName ulIndex),
    .frame (fileLine endBinlogTag info.szBinLogName ulIndex)]

/-- The loop over the entries from `pStBinLogInfo` on. No outcome ends it, only the exit flag
does, and then the pointer is not advanced. -/
def readFiles (ulIndex : ℕ) (outcome : ℕ → FileOutcome) : List BinLogInfo → ℕ → List Piece × ℕ
  | [], pStBinLogInfo => ([], pStBinLogInfo)
  | info :: more, pStBinLogInfo =>
    let o := outcome pStBinLogInfo
    let pieces := [.frame (fileLine startBinlogTag info.szBinLogName ulIndex), .body o.text,
      .frame (fileLine endBinlogTag info.szBinLogName ulIndex)]
    if o.fExitApp then (pieces, pStBinLogInfo)
    else
      let (rest, p) := readFiles ulIndex outcome more (pStBinLogInfo + 1)
      (pieces ++ rest, p)

/-- The entry that a pointer points to, if it points inside the list. -/
def entryAt (infos : List BinLogInfo) (p : ℤ) : Option BinLogInfo :=
  if 0 ≤ p then infos[p.toNat]? else none

structure PassFrame where
  pieces : List Piece
  stBinLogInfoLast : BinLogInfo
  pStBinLogInfo : ℤ
  deriving DecidableEq

/-- The pass from the entry `iStartIdx` on. It is undefined when a pointer is followed outside of
the list, or when a frame line is printed with a conversion. -/
def readJournalPass (ulIndex : ℕ) (date date' : DateText) (infos : List BinLogInfo)
    (iStartIdx : ℕ) (outcome : ℕ → FileOutcome) : Option PassFrame := do
  let first ← entryAt infos iStartIdx
  let firstLine ← printfResult (passLine firstBinlogTag first.szBinLogName ulIndex date)
  let (pieces, p) := readFiles ulIndex outcome (infos.drop iStartIdx) iStartIdx
  let last ← entryAt infos ((p : ℤ) - 1)
  let lastLine ← printfResult (passLine lastBinlogTag last.szBinLogName ulIndex date')
  return ⟨.frame firstLine :: (pieces ++ [.frame lastLine]), last, (p : ℤ) - 1⟩

/-- The frame of a pass that has read the entries from `first` to `last`. -/
def frameLines (ulIndex : ℕ) (date date' : DateText) (first : BinLogInfo)
    (files : List BinLogInfo) (last : BinLogInfo) : List Piece :=
  .frame (passLine firstBinlogTag first.szBinLogName ulIndex date) ::
    (files.flatMap (fileFrame ulIndex) ++
      [.frame (passLine lastBinlogTag last.szBinLogName ulIndex date')])

/-- The frame of the pass names the files from the start entry to an entry `e`, and the pass ends
with the entry `e`. -/
def WellFramed (ulIndex : ℕ) (date date' : DateText) (infos : List BinLogInfo) (iStartIdx : ℕ)
    (outcome : ℕ → FileOutcome) : Prop :=
  ∃ r e first last, readJournalPass ulIndex date date' infos iStartIdx outcome = some r ∧
    iStartIdx ≤ e ∧ infos[iStartIdx]? = some first ∧ infos[e]? = some last ∧
    r.pieces.filter Piece.isFrame = frameLines ulIndex date date' first
      ((infos.drop iStartIdx).take (e + 1 - iStartIdx)) last ∧
    r.stBinLogInfoLast = last ∧ r.pStBinLogInfo = e

section Printf

theorem printfResult_length {t u : Text} (h : printfResult t = some u) :
    u.length ≤ t.length ∧ ('%' ∈ t → u.length < t.length) := by
  fun_induction printfResult t generalizing u with
  | case1 =>
    rw [← Option.some.inj h]
    simp
  | case2 => cases h
  | case3 t ih =>
    obtain ⟨v, hv, rfl⟩ := Option.map_eq_some_iff.mp h
    have := (ih hv).1
    simp only [List.length_cons]
    omega
  | case4 => cases h
  | case5 c t hc hc' ih =>
    obtain ⟨v, hv, rfl⟩ := Option.map_eq_some_iff.mp h
    obtain ⟨hle, hlt⟩ := ih hv
    have hne : '%' ≠ c := by
      rintro rfl
      cases t with
      | nil => exact hc rfl rfl
      | cons d t => exact hc' d t rfl rfl
    simp only [List.length_cons, List.mem_cons, hne, false_or]
    exact ⟨by omega, fun hm => by have := hlt hm; omega⟩

/-- A message prints itself exactly when it brings no conversion. -/
theorem printfResult_eq_self_iff {t : Text} : printfResult t = some t ↔ '%' ∉ t := by
  constructor
  · intro h hm
    exact absurd ((printfResult_length h).2 hm) (Nat.lt_irrefl _)
  · intro h
    fun_induction printfResult t with
    | case1 => rfl
    | case2 => simp at h
    | case3 t ih => simp at h
    | case4 => simp at h
    | case5 c t hc hc' ih =>
      rw [ih fun hm => h (List.mem_cons_of_mem _ hm)]
      rfl

theorem percent_not_mem_date (date : DateText) : '%' ∉ date.text := by
  intro h
  rcases date.digits _ h with hd | hd
  · exact absurd hd (by decide)
  · exact absurd hd (by decide)

theorem percent_mem_passLine {tag : Text} (htag : '%' ∉ tag) (name : Text) (ulIndex : ℕ)
    (date : DateText) : '%' ∈ passLine tag name ulIndex date ↔ '%' ∈ name := by
  have hdate := percent_not_mem_date date
  have hdec : '%' ∉ decimal ulIndex := not_mem_decimal (by decide) ulIndex
  simp [passLine, textLine, htag, hdate, hdec]

end Printf

section Pass
variable {ulIndex : ℕ} {date date' : DateText} {infos : List BinLogInfo} {iStartIdx : ℕ}
  {outcome : ℕ → FileOutcome}

variable (ulIndex outcome) in
/-- The loop ends behind the last entry, or at the first entry with the exit flag set behind it. -/
theorem readFiles_frames (more : List BinLogInfo) (p : ℕ) :
    (∃ k < more.length, (outcome (p + k)).fExitApp = true ∧
        (∀ i < k, (outcome (p + i)).fExitApp = false) ∧
        (readFiles ulIndex outcome more p).2 = p + k ∧
        (readFiles ulIndex outcome more p).1.filter Piece.isFrame =
          (more.take (k + 1)).flatMap (fileFrame ulIndex)) ∨
      (∀ i < more.length, (outcome (p + i)).fExitApp = false) ∧
        (readFiles ulIndex outcome more p).2 = p + more.length ∧
        (readFiles ulIndex outcome more p).1.filter Piece.isFrame =
          more.flatMap (fileFrame ulIndex) := by
  induction more generalizing p with
  | nil => exact .inr ⟨by simp, rfl, rfl⟩
  | cons info more ih =>
    rw [readFiles]
    cases hexit : (outcome p).fExitApp with
    | true =>
      refine .inl ⟨0, Nat.succ_pos _, hexit, fun i hi => absurd hi (Nat.not_lt_zero i), ?_⟩
      simp only [if_true]
      exact ⟨rfl, rfl⟩
    | false =>
      have hstep : ∀ {i : ℕ}, p + 1 + i = p + (i + 1) := by omega
      simp only [Bool.false_eq_true, if_false, List.filter_append]
      rcases ih (p + 1) with ⟨k, hk, hk', hbefore, hp, hframes⟩ | ⟨hall, hp, hframes⟩
      · refine .inl ⟨k + 1, Nat.succ_lt_succ hk, hstep ▸ hk', fun i hi => ?_, ?_, ?_⟩
        · cases i with
          | zero => exact hexit
          | succ i => exact hstep ▸ hbefore i (Nat.lt_of_succ_lt_succ hi)
        · omega
        · rw [hframes, List.take_succ_cons, List.flatMap_cons]
          rfl
      · refine .inr ⟨fun i hi => ?_, ?_, ?_⟩
        · cases i with
          | zero => exact hexit
          | succ i => exact hstep ▸ hall i (Nat.lt_of_succ_lt_succ hi)
        · rw [List.length_cons]
          omega
        · rw [hframes, List.flatMap_cons]
          rfl

theorem entryAt_natCast (infos : List BinLogInfo) (i : ℕ) :
    entryAt infos (i : ℤ) = infos[i]? := by
  simp [entryAt]

/-- The pass, by what its steps find. -/
theorem readJournalPass_eq_some_iff {r : PassFrame} :
    readJournalPass ulIndex date date' infos iStartIdx outcome = some r ↔
      ∃ first firstLine last lastLine, infos[iStartIdx]? = some first ∧
        printfResult (passLine firstBinlogTag first.szBinLogName ulIndex date) = some firstLine ∧
        entryAt infos (((readFiles ulIndex outcome (infos.drop iStartIdx) iStartIdx).2 : ℤ) - 1) =
          some last ∧
        printfResult (passLine lastBinlogTag last.szBinLogName ulIndex date') = some lastLine ∧
        r = ⟨.frame firstLine ::
            ((readFiles ulIndex outcome (infos.drop iStartIdx) iStartIdx).1 ++ [.frame lastLine]),
          last, ((readFiles ulIndex outcome (infos.drop iStartIdx) iStartIdx).2 : ℤ) - 1⟩ := by
  unfold readJournalPass
  rw [entryAt_natCast]
  simp only [Option.bind_eq_bind, Option.bind_eq_some_iff, Option.pure_def, Option.some.injEq]
  constructor
  · rintro ⟨first, hfirst, firstLine, hfl, last, hlast, lastLine, hll, rfl⟩
    exact ⟨first, firstLine, last, lastLine, hfirst, hfl, hlast, hll, rfl⟩
  · rintro ⟨first, firstLine, last, lastLine, hfirst, hfl, hlast, hll, rfl⟩
    exact ⟨first, hfirst, firstLine, hfl, last, hlast, lastLine, hll, rfl⟩

theorem length_flatMap_fileFrame (files : List BinLogInfo) :
    (files.flatMap (fileFrame ulIndex)).length = 2 * files.length := by
  induction files with
  | nil => rfl
  | cons info files ih =>
    rw [List.flatMap_cons, List.length_append, ih, List.length_cons, fileFrame, List.length_cons,
      List.length_singleton]
    omega

/-- The exit flag is not seen behind any file, and the names in the lines that are printed as
formats bring no conversion. -/
def RunsThrough (infos : List BinLogInfo) (iStartIdx : ℕ) (outcome : ℕ → FileOutcome) : Prop :=
  (∀ i, iStartIdx ≤ i → i < infos.length → (outcome i).fExitApp = false) ∧
    (∀ first ∈ infos[iStartIdx]?, '%' ∉ first.szBinLogName) ∧
    ∀ last ∈ infos.getLast?, '%' ∉ last.szBinLogName

theorem runsThrough_of_wellFramed (hidx : iStartIdx < infos.length)
    (h : WellFramed ulIndex date date' infos iStartIdx outcome) :
    RunsThrough infos iStartIdx outcome := by
  obtain ⟨r, e, first, last, hr, hle, hfirst, hlast, hframes, -, hp⟩ := h
  obtain ⟨first', firstLine, last', lastLine, hfirst', hfl, hlast', hll, rfl⟩ :=
    readJournalPass_eq_some_iff.mp hr
  obtain rfl := Option.some.inj (hfirst.symm.trans hfirst')
  have hlen : (infos.drop iStartIdx).length = infos.length - iStartIdx := List.length_drop
  simp only [List.filter_cons, Piece.isFrame, if_true, List.filter_append, List.filter_nil,
    frameLines] at hframes
  obtain ⟨hhead, htail⟩ := List.cons.inj hframes
  rcases readFiles_frames ulIndex outcome (infos.drop iStartIdx) iStartIdx
    with ⟨k, hk, -, -, hpk, hfk⟩ | ⟨hall, hpn, hfn⟩
  · -- the pointer is one entry short of the files that were started
    have hcount := congrArg List.length htail
    rw [hfk] at hcount
    simp only [List.length_append, length_flatMap_fileFrame, List.length_take,
      List.length_singleton] at hcount
    rw [hpk] at hp
    dsimp only at hp
    omega
  · rw [hpn] at hp
    dsimp only at hp
    have he : e + 1 = infos.length := by omega
    refine ⟨fun i hi hi' => ?_, fun f hf => ?_, fun l hl => ?_⟩
    · have := hall (i - iStartIdx) (by omega)
      rwa [Nat.add_sub_cancel' hi] at this
    · rw [hfirst] at hf
      obtain rfl := Option.mem_some.mp hf
      rw [Piece.frame.inj hhead] at hfl
      rw [← percent_mem_passLine (show '%' ∉ firstBinlogTag by decide)]
      exact printfResult_eq_self_iff.mp hfl
    · have hlast'' : l = last := by
        rw [List.getLast?_eq_getElem?, ← he, Nat.add_sub_cancel, hlast] at hl
        exact (Option.mem_some.mp hl).symm
      have hsame : last' = last := by
        rw [hpn, hlen] at hlast'
        have hidx' : ((iStartIdx + (infos.length - iStartIdx) : ℕ) : ℤ) - 1 = (e : ℤ) := by omega
        rw [hidx', entryAt_natCast, hlast] at hlast'
        exact (Option.some.inj hlast').symm
      have hend := congrArg List.getLast? htail
      rw [List.getLast?_concat, List.getLast?_concat] at hend
      rw [Piece.frame.inj (Option.some.inj hend), hsame] at hll
      rw [hlast'', ← percent_mem_passLine (show '%' ∉ lastBinlogTag by decide)]
      exact printfResult_eq_self_iff.mp hll

theorem wellFramed_of_runsThrough (hidx : iStartIdx < infos.length)
    (h : RunsThrough infos iStartIdx outcome) :
    WellFramed ulIndex date date' infos iStartIdx outcome := by
  obtain ⟨hexit, hfirst, hlast⟩ := h
  have hlen : (infos.drop iStartIdx).length = infos.length - iStartIdx := List.length_drop
  have hget : infos[iStartIdx]? = some infos[iStartIdx] := List.getElem?_eq_getElem hidx
  have hget' : infos[infos.length - 1]? = some infos[infos.length - 1] :=
    List.getElem?_eq_getElem (by omega)
  rcases readFiles_frames ulIndex outcome (infos.drop iStartIdx) iStartIdx
    with ⟨k, hk, hexit', -⟩ | ⟨-, hp, hframes⟩
  · rw [hexit (iStartIdx + k) (by omega) (by omega)] at hexit'
    cases hexit'
  · have hpe : ((readFiles ulIndex outcome (infos.drop iStartIdx) iStartIdx).2 : ℤ) - 1 =
        ((infos.length - 1 : ℕ) : ℤ) := by omega
    have hfl : '%' ∉ passLine firstBinlogTag infos[iStartIdx].szBinLogName ulIndex date := by
      rw [percent_mem_passLine (by decide)]
      exact hfirst _ hget
    have hll : '%' ∉ passLine lastBinlogTag infos[infos.length - 1].szBinLogName ulIndex date' := by
      rw [percent_mem_passLine (by decide)]
      apply hlast
      rw [List.getLast?_eq_getElem?]
      exact hget'
    refine ⟨_, infos.length - 1, infos[iStartIdx], infos[infos.length - 1],
      readJournalPass_eq_some_iff.mpr ⟨_, _, infos[infos.length - 1], _, hget,
        printfResult_eq_self_iff.mpr hfl, ?_, printfResult_eq_self_iff.mpr hll, rfl⟩,
      by omega, hget, hget', ?_, rfl, hpe⟩
    · rw [hpe, entryAt_natCast]
      exact hget'
    · simp only [List.filter_cons, Piece.isFrame, if_true, List.filter_append, List.filter_nil,
        hframes, frameLines]
      rw [List.take_of_length_le (by omega)]

/-- A pass is well framed exactly when the exit flag does not cut the loop short and the names
print as they are. -/
theorem wellFramed_iff (ulIndex : ℕ) (date date' : DateText) (infos : List BinLogInfo)
    (iStartIdx : ℕ) (hidx : iStartIdx < infos.length) (outcome : ℕ → FileOutcome) :
    WellFramed ulIndex date date' infos iStartIdx outcome ↔
      RunsThrough infos iStartIdx outcome :=
  ⟨runsThrough_of_wellFramed hidx, wellFramed_of_runsThrough hidx⟩

/-- 2022-03-01 12:30:00.250 -/
def someDate : DateText := getDateTime ⟨2022, 3, 1, 12, 30, 0, 250⟩

def twoInfos : List BinLogInfo := [⟨"bin.000001".toList, 4⟩, ⟨"bin.000002".toList, 4⟩]

theorem wellFramed_twoInfos :
    WellFramed 1 someDate someDate twoInfos 0 fun _ => ⟨.errorStop, [], false⟩ := by
  rw [wellFramed_iff 1 someDate someDate twoInfos 0 (by decide)]
  refine ⟨fun _ _ _ => rfl, fun first hfirst => ?_, fun last hlast => ?_⟩
  · rw [← Option.mem_some.mp hfirst]
    decide
  · rw [← Option.mem_some.mp hlast]
    decide

/-- The exit flag is set while the first file is read: the pointer is moved in front of the list. -/
theorem not_wellFramed_exit :
    ¬∀ (ulIndex : ℕ) (date date' : DateText) (infos : List BinLogInfo) (iStartIdx : ℕ),
      iStartIdx < infos.length → ∀ outcome : ℕ → FileOutcome,
        WellFramed ulIndex date date' infos iStartIdx outcome := by
  intro h
  have hframed := h 1 someDate someDate twoInfos 0 (by decide) fun _ => ⟨.okStop, [], true⟩
  have hexit := (runsThrough_of_wellFramed (by decide) hframed).1 0 (by decide) (by decide)
  cases hexit

end Pass

end BinlogCapture
