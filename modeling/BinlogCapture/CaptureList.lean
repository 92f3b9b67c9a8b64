import BinlogCapture.CaptureChain

/-! A restart over any listing of the capture files: the numbers that `BuildCaptureList` reads
from the names, and the file that `OpenCapture` then opens. -/
namespace BinlogCapture
open CString Fallible

/-- The size of `szNum`, with the terminating NUL. -/
def lenNum : ℕ := 11

/-- The text that is copied to `szNum`. -/
def numText (name : Text) : Option Text :=
  (strstr captureTag name).bind fun t => (strchr '.' t).map Prod.fst

/-- The number of the file is read back from its name, through a copy that stays in `szNum`. -/
def Recovers (j : Journal) (n : ℕ) : Prop :=
  captureNum (captureFileName j n) = .ok n ∧
    ∀ t ∈ numText (captureFileName j n), t.length < lenNum

/-- The opened file is new, and the marker goes to the file with the greatest number. -/
structure FreshFile (env : Env) (ns : List ℕ) (files : List CaptureFile) (c : Capture) : Prop where
  greater : ∀ n ∈ ns, n < c.ulCaptureNum
  name : c.szFileName = captureFileName env.toJournal c.ulCaptureNum
  absent : ∀ f ∈ files, f.szFileName ≠ c.szFileName
  marked : ∀ m ∈ ns, (∀ n ∈ ns, n ≤ m) → ∃ date date', c.files =
    appendFile (captureFileName env.toJournal m)
      (eofLine (fullName env.toJournal (captureFileName env.toJournal m)) c.ulCaptureNum date)
      files ++ [openFile env.toJournal c.ulCaptureNum date' []]

/-- A restart over the listing `files` of the files numbered `ns`. -/
def Restarts (env : Env) (ns : List ℕ) (files : List CaptureFile) : Prop :=
  (∀ n ∈ ns, Recovers env.toJournal n) ∧
    ∃ c, openCapture env { Capture.empty with files := files } false = .ok c ∧
      FreshFile env ns files c

/-- The text behind the first `_capture_` of the name is the number, in the range of `long`; or it
is text of the journal name that happens to be the number. -/
def NumberReadsBack (j : Journal) (n : ℕ) : Prop :=
  j.TagOnce ∧ n < 2 ^ 31 ∨
    ∃ t s r, strstr captureTag (j.szJrn ++ captureTag) = some t ∧ strchr '.' t = some (s, r) ∧
      s.length < lenNum ∧ toULong (atol s) = n

/-- The listing ends with the greatest number, and there is a number behind it. -/
def GreatestLast (ns : List ℕ) : Prop :=
  ∀ m ∈ ns.getLast?, m + 1 < 2 ^ 32 ∧ ∀ n ∈ ns, n ≤ m

section Numbers
variable {j : Journal} {n : ℕ}

theorem exists_strstr (p t : Text) (hp : p ≠ []) : ∃ r, strstr p (t ++ p) = some r := by
  induction t with
  | nil =>
    cases p with
    | nil => exact absurd rfl hp
    | cons c cs =>
      refine ⟨(c :: cs).drop (c :: cs).length, ?_⟩
      rw [List.nil_append, strstr, if_pos (startsWith_iff.mpr List.prefix_rfl)]
  | cons a t ih =>
    rw [List.cons_append, strstr]
    split
    · exact ⟨_, rfl⟩
    · exact ih

theorem dot_not_mem_decimal010 (n : ℕ) : '.' ∉ decimal010 n :=
  fun h => absurd (isDigit_of_mem_decimal010 h) (by decide)

theorem length_decimal010 (h : n < 2 ^ 32) : (decimal010 n).length = 10 := by
  have hlen : (decimal n).length ≤ 10 :=
    (Nat.length_toDigits_le_iff (by decide) (by decide)).mpr (by omega)
  rw [decimal010, List.length_leftpad]
  omega

/-- What is read from the name, by the text behind the first tag in it. -/
theorem numText_captureFileName {t : Text}
    (ht : strstr captureTag (j.szJrn ++ captureTag) = some t) (n : ℕ) :
    numText (captureFileName j n) =
        (strchr '.' (t ++ (decimal010 n ++ ".jrn".toList))).map Prod.fst ∧
      ∀ s ∈ numText (captureFileName j n),
        captureNum (captureFileName j n) = .ok (toULong (atol s)) := by
  have hstr : strstr captureTag (captureFileName j n) =
      some (t ++ (decimal010 n ++ ".jrn".toList)) := by
    rw [captureFileName, List.append_assoc]
    exact strstr_append ht (by decide) _
  rw [numText, captureNum, hstr]
  refine ⟨rfl, fun s hs => ?_⟩
  obtain ⟨p, hp, rfl⟩ := Option.map_eq_some_iff.mp hs
  simp only [hp]

theorem recovers_iff (hn : n < 2 ^ 32) : Recovers j n ↔ NumberReadsBack j n := by
  obtain ⟨t, ht⟩ := exists_strstr captureTag j.szJrn (by decide)
  obtain ⟨hnum, hread⟩ := numText_captureFileName ht n
  have hlen := length_decimal010 hn
  cases hdot : strchr '.' t with
  | some p =>
    -- the dot that ends the number stands in the journal name
    obtain ⟨s, r⟩ := p
    obtain ⟨hsplit, hs⟩ := strchr_eq_some hdot
    have htext : numText (captureFileName j n) = some s := by
      rw [hnum, hsplit, List.append_assoc, List.cons_append, strchr_append hs]
      rfl
    have hne : t ≠ [] := by simp [hsplit]
    rw [Recovers, htext, hread s htext, Except.ok.injEq]
    constructor
    · rintro ⟨hval, hshort⟩
      exact .inr ⟨t, s, r, ht, hdot, hshort s rfl, hval⟩
    · rintro (⟨hj, -⟩ | ⟨t', s', r', ht', hdot', hshort, hval⟩)
      · exact absurd (Option.some.inj (ht.symm.trans hj)) hne
      · obtain rfl := Option.some.inj (ht.symm.trans ht')
        obtain ⟨rfl, rfl⟩ := Prod.mk.inj (Option.some.inj (hdot.symm.trans hdot'))
        exact ⟨hval, fun u hu => Option.mem_some.mp hu ▸ hshort⟩
  | none =>
    have hs : '.' ∉ t ++ decimal010 n := by
      rw [List.mem_append, not_or]
      exact ⟨strchr_eq_none_iff.mp hdot, dot_not_mem_decimal010 n⟩
    have htext : numText (captureFileName j n) = some (t ++ decimal010 n) := by
      have hext : ".jrn".toList = '.' :: "jrn".toList := rfl
      rw [hnum, ← List.append_assoc, hext, strchr_append hs]
      rfl
    constructor
    · rintro ⟨hval, hshort⟩
      have hlt := hshort _ htext
      rw [List.length_append, hlen, lenNum] at hlt
      obtain rfl : t = [] := List.length_eq_zero_iff.mp (by omega)
      rw [captureNum_captureFileName ht] at hval
      have hmin := Except.ok.inj hval
      exact .inl ⟨ht, by omega⟩
    · rintro (⟨hj, hlt⟩ | ⟨t', s', r', ht', hdot', -, -⟩)
      · obtain rfl := Option.some.inj (ht.symm.trans hj)
        refine ⟨?_, fun u hu => ?_⟩
        · rw [captureNum_captureFileName hj, Nat.min_eq_left (by omega)]
        · rw [htext] at hu
          rw [← Option.mem_some.mp hu, List.nil_append, hlen]
          decide
      · obtain rfl := Option.some.inj (ht.symm.trans ht')
        rw [hdot] at hdot'
        cases hdot'

end Numbers

section Restart
variable {env : Env} {ns : List ℕ} {files : List CaptureFile}

theorem buildCaptureList_eq (hfiles : files.map CaptureFile.szFileName =
      ns.map (captureFileName env.toJournal)) (h : ∀ n ∈ ns, Recovers env.toJournal n) :
    buildCaptureList files = .ok (ns.map fun n => (captureFileName env.toJournal n, n)) := by
  induction ns generalizing files with
  | nil =>
    rw [List.map_eq_nil_iff.mp hfiles]
    rfl
  | cons n ns ih =>
    rw [List.forall_mem_cons] at h
    obtain _ | ⟨f, fs⟩ := files
    · cases hfiles
    · obtain ⟨hf, hfs⟩ := List.cons.inj hfiles
      have htail := ih hfs h.2
      unfold buildCaptureList at htail ⊢
      rw [List.mapM_cons, show f.szFileName = _ from hf, h.1.1, htail]
      rfl

theorem newCapture_files {c : Capture} (hstdio : c.stdio = []) (habsent : ∀ f ∈ c.files,
      f.szFileName ≠ captureFileName env.toJournal c.ulCaptureNum) :
    (newCapture env c).files =
      c.files ++ [openFile env.toJournal c.ulCaptureNum (env.dateTime c.dates) []] := by
  have hnil : ∀ name t : Text, appendFile name t [] = [⟨name, t⟩] := fun _ _ => rfl
  have happ := appendFile_of_not_mem (t := sofLine (fullName env.toJournal
    (captureFileName env.toJournal c.ulCaptureNum)) c.ulCaptureNum (env.dateTime c.dates))
    habsent []
  rw [List.append_nil, hnil] at happ
  simp only [newCapture, Capture.fflush, Capture.fwrite, hstdio, List.nil_append, happ, openFile,
    List.append_nil]

theorem szFileName_of_mem_appendFile {name t : Text} {fs : List CaptureFile} {f : CaptureFile}
    (h : f ∈ appendFile name t fs) :
    f.szFileName = name ∨ ∃ g ∈ fs, g.szFileName = f.szFileName := by
  induction fs with
  | nil =>
    rw [List.mem_singleton.mp h]
    exact .inl rfl
  | cons g fs ih =>
    rw [appendFile] at h
    split at h
    · next hg =>
      rcases List.mem_cons.mp h with rfl | h
      · exact .inl hg
      · exact .inr ⟨f, List.mem_cons_of_mem _ h, rfl⟩
    · rcases List.mem_cons.mp h with rfl | h
      · exact .inr ⟨f, List.mem_cons_self, rfl⟩
      · rcases ih h with h | ⟨x, hx, hxf⟩
        · exact .inl h
        · exact .inr ⟨x, List.mem_cons_of_mem _ hx, hxf⟩

theorem mem_names (hfiles : files.map CaptureFile.szFileName =
      ns.map (captureFileName env.toJournal)) {f : CaptureFile} (hf : f ∈ files) :
    ∃ n ∈ ns, captureFileName env.toJournal n = f.szFileName := by
  have hm : f.szFileName ∈ ns.map (captureFileName env.toJournal) :=
    hfiles ▸ List.mem_map_of_mem hf
  exact List.mem_map.mp hm

/-- With recovered numbers a restart goes on behind the number that is listed last. -/
theorem openCapture_listed (hfiles : files.map CaptureFile.szFileName =
      ns.map (captureFileName env.toJournal)) (h : ∀ n ∈ ns, Recovers env.toJournal n) :
    (ns = [] ∧ openCapture env { Capture.empty with files := files } false =
        .ok (newCapture env { Capture.empty with files := [], ulCaptureNum := 1 })) ∨
      ∃ m ∈ ns.getLast?, openCapture env { Capture.empty with files := files } false =
        .ok (newCapture env { Capture.empty with
          ulCaptureNum := (m + 1) % 2 ^ 32
          files := appendFile (captureFileName env.toJournal m)
            (eofLine (fullName env.toJournal (captureFileName env.toJournal m))
              ((m + 1) % 2 ^ 32) (env.dateTime 0)) files
          dates := 1 }) := by
  have hlist := buildCaptureList_eq hfiles h
  rcases List.eq_nil_or_concat' ns with rfl | ⟨before, m, rfl⟩
  · rw [List.map_nil, List.map_eq_nil_iff] at hfiles
    refine .inl ⟨rfl, ?_⟩
    rw [hfiles]
    rfl
  · refine .inr ⟨m, by simp, ?_⟩
    rw [openCapture, if_neg Bool.false_ne_true, restartCapture]
    simp only [hlist, ok_bind, List.map_append, List.map_singleton, List.getLast?_concat]
    rfl

theorem restarts_of_readsBack (hfiles : files.map CaptureFile.szFileName =
      ns.map (captureFileName env.toJournal)) (h : ∀ n ∈ ns, Recovers env.toJournal n)
    (hlast : GreatestLast ns) : Restarts env ns files := by
  refine ⟨h, ?_⟩
  rcases openCapture_listed hfiles h with ⟨rfl, hopen⟩ | ⟨m, hm, hopen⟩
  · rw [List.map_nil, List.map_eq_nil_iff] at hfiles
    exact ⟨_, hopen, by simp, rfl, by simp [hfiles], by simp⟩
  · obtain ⟨hmax, hle⟩ := hlast m hm
    have hmem : m ∈ ns := List.mem_of_getLast? hm
    rw [Nat.mod_eq_of_lt hmax] at hopen
    have hnew : ∀ n ∈ ns, captureFileName env.toJournal n ≠
        captureFileName env.toJournal (m + 1) := by
      intro n hn heq
      have := captureFileName_injective heq
      have := hle n hn
      omega
    have habsent : ∀ f ∈ appendFile (captureFileName env.toJournal m)
        (eofLine (fullName env.toJournal (captureFileName env.toJournal m)) (m + 1)
          (env.dateTime 0)) files, f.szFileName ≠ captureFileName env.toJournal (m + 1) := by
      intro f hf
      rcases szFileName_of_mem_appendFile hf with hname | ⟨g, hg, hname⟩
      · rw [hname]
        exact hnew m hmem
      · obtain ⟨n, hn, hgn⟩ := mem_names hfiles hg
        rw [← hname, ← hgn]
        exact hnew n hn
    refine ⟨_, hopen, fun n hn => ?_, rfl, fun f hf => ?_, fun m' hm' hmax' => ?_⟩
    · exact Nat.lt_succ_of_le (hle n hn)
    · obtain ⟨n, hn, hname⟩ := mem_names hfiles hf
      rw [← hname]
      exact hnew n hn
    · obtain rfl : m' = m := Nat.le_antisymm (hle m' hm') (hmax' m hmem)
      exact ⟨env.dateTime 0, env.dateTime 1, newCapture_files rfl habsent⟩

theorem greatestLast_of_restarts (hfiles : files.map CaptureFile.szFileName =
      ns.map (captureFileName env.toJournal)) (hns : ∀ n ∈ ns, n < 2 ^ 32)
    (h : Restarts env ns files) : GreatestLast ns := by
  obtain ⟨hrec, c, hc, hfresh⟩ := h
  intro m hm
  rcases openCapture_listed hfiles hrec with ⟨rfl, -⟩ | ⟨m', hm', hopen⟩
  · cases hm
  obtain rfl := Option.some.inj (hm.symm.trans hm')
  have hmem : m ∈ ns := List.mem_of_getLast? hm
  rw [hopen] at hc
  have hnum : c.ulCaptureNum = (m + 1) % 2 ^ 32 := by
    rw [← Except.ok.inj hc]
    rfl
  have hgreater := hfresh.greater
  rw [hnum] at hgreater
  have hlt := hgreater m hmem
  have hm32 := hns m hmem
  constructor
  · omega
  · intro n hn
    have := hgreater n hn
    omega

/-- A restart over a listing opens a fresh file exactly when all numbers are read back from the
names and the greatest of them is listed last. -/
theorem restarts_iff (env : Env) (ns : List ℕ) (files : List CaptureFile)
    (hfiles : files.map CaptureFile.szFileName = ns.map (captureFileName env.toJournal))
    (hns : ∀ n ∈ ns, n < 2 ^ 32) :
    Restarts env ns files ↔
      (∀ n ∈ ns, NumberReadsBack env.toJournal n) ∧ GreatestLast ns := by
  constructor
  · intro h
    exact ⟨fun n hn => (recovers_iff (hns n hn)).mp (h.1 n hn),
      greatestLast_of_restarts hfiles hns h⟩
  · rintro ⟨hread, hlast⟩
    exact restarts_of_readsBack hfiles
      (fun n hn => (recovers_iff (hns n hn)).mpr (hread n hn)) hlast

/-- Two files, listed in ascending order. -/
theorem restarts_ascending :
    Restarts .default [1, 2] [⟨captureFileName Env.default.toJournal 1, []⟩,
      ⟨captureFileName Env.default.toJournal 2, []⟩] := by
  rw [restarts_iff .default [1, 2] _ rfl (by decide)]
  have htag : Env.default.toJournal.TagOnce := by
    show strstr _ _ = _
    decide
  constructor
  · intro n hn
    have hlt : n < 2 ^ 31 := by
      revert n
      decide
    exact .inl ⟨htag, hlt⟩
  · intro m hm
    rw [← Option.mem_some.mp hm]
    decide

/-- A listing that ends with the first file. -/
theorem not_restarts_descending :
    ¬∀ (env : Env) (ns : List ℕ) (files : List CaptureFile), ns.Nodup →
      files.map CaptureFile.szFileName = ns.map (captureFileName env.toJournal) →
      (∀ n ∈ ns, n < 2 ^ 32) → Restarts env ns files := by
  intro h
  have hr := h .default [2, 1] [⟨captureFileName Env.default.toJournal 2, []⟩,
    ⟨captureFileName Env.default.toJournal 1, []⟩] (by decide) rfl (by decide)
  have hlast := greatestLast_of_restarts rfl (by decide) hr
  have := (hlast 1 rfl).2 2 (by decide)
  omega

end Restart

end BinlogCapture
