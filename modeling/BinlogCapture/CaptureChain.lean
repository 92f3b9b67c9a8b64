import BinlogCapture.ListenerRun
import Mathlib.Data.List.Induction

/-! The chain of capture files over runs of the process: each run opens a new file after marking
the end of the last one, and a rotation does the same inside a run. -/
namespace BinlogCapture
open CString Fallible LineFeed

/-- What a closed file was made of. -/
structure Closed where
  start : Text
  body : Text
  stop : Text

def openFile (j : Journal) (num : ℕ) (date body : Text) : CaptureFile :=
  ⟨captureFileName j num, sofLine (fullName j (captureFileName j num)) num date ++ body⟩

/-- A closed file ends with the marker that carries the number of the next file. -/
def closedFile (j : Journal) (num : ℕ) (x : Closed) : CaptureFile :=
  let eof := eofLine (fullName j (captureFileName j num)) (num + 1) x.stop
  openFile j num x.start (x.body ++ eof)

def closedFiles (j : Journal) : ℕ → List Closed → List CaptureFile
  | _, [] => []
  | num, x :: xs => closedFile j num x :: closedFiles j (num + 1) xs

/-- The text is empty or ends with a line feed. -/
def LineEnd (t : Text) : Prop := t = [] ∨ ∃ u, t = u ++ ['\n']

/-- The files of a journal are numbered from 1. All but the newest are closed, their marker is at
the start of a line, and the bodies in order are the bytes `listened`. -/
def Chained (j : Journal) (files : List CaptureFile) (listened : Text) : Prop :=
  ∃ (xs : List Closed) (date body : Text),
    files = closedFiles j 1 xs ++ [openFile j (xs.length + 1) date body] ∧
    '\n' ∉ date ∧ (∀ x ∈ xs, '\n' ∉ x.start ∧ LineEnd x.body ∧ '\n' ∉ x.stop) ∧
    xs.flatMap Closed.body ++ body = listened

/-- The lines of a text, with what stands behind the last line feed. -/
def linesOf (t : Text) : List Text := (split '\n' [] t).1 ++ [(split '\n' [] t).2]

def sofTag : Text := "*!SOF!".toList
def eofTag : Text := "*!EOF!".toList

/-- The lines that begin with the tag. -/
def tagged (tag t : Text) : List Text := (linesOf t).filter (startsWith · tag)

/-- A chain in which every file has one line `*!SOF!`, and every file but the newest one line
`*!EOF!`. -/
structure Framed (j : Journal) (files : List CaptureFile) (listened : Text) : Prop where
  chained : Chained j files listened
  oneSof : ∀ f ∈ files, (tagged sofTag f.contents).length = 1
  oneEof : ∀ f ∈ files.dropLast, (tagged eofTag f.contents).length = 1
  noEof : ∀ f ∈ files.getLast?, tagged eofTag f.contents = []

/-- A write of the listener to the capture: the rest of a line, possibly followed by a flush of
the timer and a rotation, or a part of a line. -/
inductive CaptureOp where
  | line (text : Text) (elapsed rotate : Bool)
  | part (text : Text)
  deriving DecidableEq, Repr

def CaptureOp.text : CaptureOp → Text
  | .line t _ _ => t ++ ['\n']
  | .part t => t

/-- A capture file is opened by each rotation. -/
def CaptureOp.opens : CaptureOp → ℕ
  | .line _ _ rotate => rotate.toNat
  | .part _ => 0

def CaptureOp.IsLine : CaptureOp → Prop
  | .line _ _ _ => True
  | .part _ => False

def Capture.apply (env : Env) (c : Capture) : CaptureOp → Capture
  | .line t elapsed rotate =>
    let c := c.write env (t ++ ['\n'])
    let c := if elapsed then c.fflush else c
    if rotate then changeJournal env c else c
  | .part t => c.write env t

/-- A run of the process: its environment, and what its listener writes until it stops. -/
structure ProcessRun where
  env : Env
  ops : List CaptureOp

def ProcessRun.written (r : ProcessRun) : Text := r.ops.flatMap CaptureOp.text

/-- The number of files that the run opens. -/
def ProcessRun.opens (r : ProcessRun) : ℕ := 1 + (r.ops.map CaptureOp.opens).sum

/-- `OpenCapture(false)`, the writes, and the flush of the open file when the process ends. -/
def runProcess (files : List CaptureFile) (r : ProcessRun) : Except Fault (List CaptureFile) :=
  (openCapture r.env { Capture.empty with files := files } false).map fun c =>
    (r.ops.foldl (Capture.apply r.env) c).fflush.files

/-- The capture files after the runs of a history. -/
def history (runs : List ProcessRun) : Except Fault (List CaptureFile) := runs.foldlM runProcess []

section Tagged
variable {tag : Text}

theorem tagged_line (htag : tag ≠ []) {l : Text} (hl : '\n' ∉ l) :
    tagged tag (l ++ ['\n']) = [l].filter (startsWith · tag) := by
  have hempty : startsWith [] tag = false := by
    rw [Bool.eq_false_iff]
    exact fun h => htag (List.prefix_nil.mp (startsWith_iff.mp h))
  rw [tagged, linesOf, split_line '\n' hl, List.filter_append, List.nil_append]
  simp only [split, List.filter_cons, hempty, Bool.false_eq_true, if_false, List.filter_nil,
    List.append_nil]

/-- Lines in front of a text are lines of the whole. -/
theorem tagged_append (htag : tag ≠ []) {b : Text} (hb : LineEnd b) (t : Text) :
    tagged tag (b ++ t) = tagged tag b ++ tagged tag t := by
  have hempty : startsWith [] tag = false := by
    rw [Bool.eq_false_iff]
    exact fun h => htag (List.prefix_nil.mp (startsWith_iff.mp h))
  have hrest : (split '\n' [] b).2 = [] := by
    rcases hb with rfl | ⟨u, rfl⟩
    · rfl
    · rw [split_append]
      simp [split]
  simp only [tagged, linesOf, split_append _ _ b t, hrest, List.filter_append, List.filter_cons,
    hempty, Bool.false_eq_true, if_false, List.filter_nil, List.append_nil, List.append_assoc]

theorem tagged_flatMap (htag : tag ≠ []) {α : Type} {f : α → Text} {xs : List α}
    (h : ∀ x ∈ xs, LineEnd (f x)) (t : Text) :
    tagged tag (xs.flatMap f ++ t) = xs.flatMap (fun x => tagged tag (f x)) ++ tagged tag t := by
  induction xs with
  | nil => rfl
  | cons x xs ih =>
    rw [List.forall_mem_cons] at h
    rw [List.flatMap_cons, List.flatMap_cons, List.append_assoc, tagged_append htag h.1, ih h.2,
      List.append_assoc]

end Tagged

section Files
variable {j : Journal}

theorem captureFileName_injective {m n : ℕ} (h : captureFileName j m = captureFileName j n) :
    m = n := by
  simp only [captureFileName, List.append_assoc, List.append_cancel_left_eq,
    List.append_cancel_right_eq] at h
  exact decimal010_injective h

theorem frameLine_eq (tag path : Text) (num : ℕ) (date : Text) :
    frameLine tag path num date = "*!".toList ++ tag ++ '!' :: path ++ '!' :: decimal num ++
      '!' :: date ++ "!*".toList ++ ['\n'] := by
  have hend : "!*\n".toList = "!*".toList ++ ['\n'] := rfl
  delta frameLine
  rw [hend, List.append_assoc _ _ ['\n']]

/-- A frame line is one line, behind its tag. -/
theorem frameLine_line (tag : Text) {path date : Text} (num : ℕ) (hpath : '\n' ∉ path)
    (hdate : '\n' ∉ date) :
    ∃ u, frameLine tag path num date = ("*!".toList ++ tag ++ ['!'] ++ u) ++ ['\n'] ∧
      '\n' ∉ u := by
  refine ⟨path ++ '!' :: decimal num ++ '!' :: date ++ "!*".toList, ?_, ?_⟩
  · rw [frameLine_eq]
    simp only [List.append_assoc, List.cons_append, List.nil_append]
  · simp only [List.mem_append, List.mem_cons, not_or]
    exact ⟨⟨⟨hpath, by decide, not_mem_decimal (by decide) num⟩, by decide, hdate⟩, by decide⟩

theorem lineEnd_frameLine (tag path : Text) (num : ℕ) (date : Text) :
    LineEnd (frameLine tag path num date) := .inr ⟨_, frameLine_eq tag path num date⟩

theorem tagged_sofLine {path date : Text} (num : ℕ) (hpath : '\n' ∉ path) (hdate : '\n' ∉ date) :
    (tagged sofTag (sofLine path num date)).length = 1 ∧
      tagged eofTag (sofLine path num date) = [] := by
  obtain ⟨u, hu, hn⟩ := frameLine_line "SOF".toList num hpath hdate
  have hline : '\n' ∉ "*!".toList ++ "SOF".toList ++ ['!'] ++ u := by
    rw [List.mem_append, not_or]
    exact ⟨by decide, hn⟩
  rw [sofLine, hu, tagged_line (by decide) hline, tagged_line (by decide) hline]
  exact ⟨rfl, rfl⟩

theorem tagged_eofLine {path date : Text} (num : ℕ) (hpath : '\n' ∉ path) (hdate : '\n' ∉ date) :
    tagged sofTag (eofLine path num date) = [] ∧
      (tagged eofTag (eofLine path num date)).length = 1 := by
  obtain ⟨u, hu, hn⟩ := frameLine_line "EOF".toList num hpath hdate
  have hline : '\n' ∉ "*!".toList ++ "EOF".toList ++ ['!'] ++ u := by
    rw [List.mem_append, not_or]
    exact ⟨by decide, hn⟩
  rw [eofLine, hu, tagged_line (by decide) hline, tagged_line (by decide) hline]
  exact ⟨rfl, rfl⟩

/-- No name of a directory or a journal has a line feed. -/
def Journal.OneLine (j : Journal) : Prop := '\n' ∉ j.szPath ∧ '\n' ∉ j.szJrn

theorem newline_not_mem_fullName (h : j.OneLine) (num : ℕ) :
    '\n' ∉ fullName j (captureFileName j num) := by
  have hnum : '\n' ∉ decimal010 num := fun hm => absurd (isDigit_of_mem_decimal010 hm) (by decide)
  simp only [fullName, captureFileName, List.mem_append, List.mem_cons, not_or]
  exact ⟨h.1, by decide, ⟨⟨h.2, by decide⟩, hnum⟩, by decide⟩

theorem closedFiles_append (xs ys : List Closed) (num : ℕ) :
    closedFiles j num (xs ++ ys) = closedFiles j num xs ++ closedFiles j (num + xs.length) ys := by
  induction xs generalizing num with
  | nil => rfl
  | cons x xs ih =>
    rw [List.cons_append, closedFiles, closedFiles, ih, List.cons_append, List.length_cons,
      Nat.add_assoc, Nat.add_comm 1]

theorem name_of_mem_closedFiles {xs : List Closed} {num : ℕ} {f : CaptureFile}
    (h : f ∈ closedFiles j num xs) :
    ∃ n, num ≤ n ∧ n < num + xs.length ∧ f.szFileName = captureFileName j n := by
  induction xs generalizing num with
  | nil => simp [closedFiles] at h
  | cons x xs ih =>
    rw [closedFiles, List.mem_cons] at h
    rw [List.length_cons]
    rcases h with rfl | h
    · exact ⟨num, le_rfl, by omega, rfl⟩
    · obtain ⟨n, hle, hlt, hn⟩ := ih h
      exact ⟨n, by omega, by omega, hn⟩

theorem appendFile_of_not_mem {name t : Text} {fs : List CaptureFile}
    (h : ∀ f ∈ fs, f.szFileName ≠ name) (gs : List CaptureFile) :
    appendFile name t (fs ++ gs) = fs ++ appendFile name t gs := by
  induction fs with
  | nil => rfl
  | cons f fs ih =>
    rw [List.forall_mem_cons] at h
    rw [List.cons_append, appendFile, if_neg h.1, ih h.2, List.cons_append]

theorem of_mem_closedFiles {xs : List Closed} {num : ℕ} {f : CaptureFile}
    (h : f ∈ closedFiles j num xs) : ∃ x ∈ xs, ∃ n, f = closedFile j n x := by
  induction xs generalizing num with
  | nil => simp [closedFiles] at h
  | cons x xs ih =>
    rw [closedFiles, List.mem_cons] at h
    rcases h with rfl | h
    · exact ⟨x, List.mem_cons_self, num, rfl⟩
    · obtain ⟨y, hy, n, hn⟩ := ih h
      exact ⟨y, List.mem_cons_of_mem _ hy, n, hn⟩

/-- The frame lines of a chain are its only tagged lines when what is listened has none. -/
theorem Chained.framed {files : List CaptureFile} {listened : Text} (h : Chained j files listened)
    (hj : j.OneLine) (hplain : ∀ l ∈ linesOf listened, ¬sofTag <+: l ∧ ¬eofTag <+: l) :
    Framed j files listened := by
  obtain ⟨xs, date, body, rfl, hdate, hxs, hbytes⟩ := h
  have hnone : ∀ tag, tag = sofTag ∨ tag = eofTag → tag ≠ [] ∧ tagged tag body = [] ∧
      ∀ x ∈ xs, tagged tag x.body = [] := by
    intro tag htag
    have hne : tag ≠ [] := by
      rcases htag with rfl | rfl <;> decide
    have hall : tagged tag listened = [] := by
      rw [tagged, List.filter_eq_nil_iff]
      intro l hl hs
      rcases htag with rfl | rfl
      · exact (hplain l hl).1 (startsWith_iff.mp hs)
      · exact (hplain l hl).2 (startsWith_iff.mp hs)
    rw [← hbytes, tagged_flatMap hne fun x hx => (hxs x hx).2.1, List.append_eq_nil_iff,
      List.flatMap_eq_nil_iff] at hall
    exact ⟨hne, hall.2, hall.1⟩
  obtain ⟨hsof, hsofBody, hsofs⟩ := hnone sofTag (.inl rfl)
  obtain ⟨heof, heofBody, heofs⟩ := hnone eofTag (.inr rfl)
  have hopen : ∀ tag num date body, tag ≠ [] → tagged tag (openFile j num date body).contents =
      tagged tag (sofLine (fullName j (captureFileName j num)) num date) ++ tagged tag body :=
    fun tag num date body htag => tagged_append htag (lineEnd_frameLine _ _ _ _) body
  have hclosed : ∀ x ∈ xs, ∀ num, (tagged sofTag (closedFile j num x).contents).length = 1 ∧
      (tagged eofTag (closedFile j num x).contents).length = 1 := by
    intro x hx num
    obtain ⟨hstart, hbody, hstop⟩ := hxs x hx
    have hfirst := tagged_sofLine num (newline_not_mem_fullName hj num) hstart
    have hlast := tagged_eofLine (num + 1) (newline_not_mem_fullName hj num) hstop
    rw [closedFile, hopen _ _ _ _ hsof, hopen _ _ _ _ heof, tagged_append hsof hbody,
      tagged_append heof hbody, hsofs x hx, heofs x hx, hlast.1, hfirst.2]
    exact ⟨by rw [List.nil_append, List.append_nil]; exact hfirst.1, hlast.2⟩
  have hnewest := tagged_sofLine (xs.length + 1)
    (newline_not_mem_fullName hj (xs.length + 1)) hdate
  refine ⟨⟨xs, date, body, rfl, hdate, hxs, hbytes⟩, ?_, ?_, ?_⟩
  · intro f hf
    rcases List.mem_append.mp hf with hf | hf
    · obtain ⟨x, hx, n, rfl⟩ := of_mem_closedFiles hf
      exact (hclosed x hx n).1
    · rw [List.mem_singleton.mp hf, hopen _ _ _ _ hsof, hsofBody, List.append_nil]
      exact hnewest.1
  · intro f hf
    rw [List.dropLast_concat] at hf
    obtain ⟨x, hx, n, rfl⟩ := of_mem_closedFiles hf
    exact (hclosed x hx n).2
  · intro f hf
    rw [List.getLast?_concat, Option.mem_some] at hf
    rw [← hf, hopen _ _ _ _ heof, heofBody, List.append_nil]
    exact hnewest.2

theorem closedFiles_ne {xs : List Closed} {num : ℕ} (h : 1 + xs.length ≤ num) :
    ∀ f ∈ closedFiles j 1 xs, f.szFileName ≠ captureFileName j num := by
  intro f hf he
  obtain ⟨n, -, hlt, hn⟩ := name_of_mem_closedFiles hf
  have := captureFileName_injective (hn.symm.trans he)
  omega

end Files

/-- The capture of a running process, seen with its buffer flushed: `xs` are the closed files,
and the open one has `body` behind its first line. -/
structure InChain (j : Journal) (c : Capture) (xs : List Closed) (date body : Text) : Prop where
  files : c.fflush.files = closedFiles j 1 xs ++ [openFile j (xs.length + 1) date body]
  szFileName : c.szFileName = captureFileName j (xs.length + 1)
  ulCaptureNum : c.ulCaptureNum = xs.length + 1

section Chain
variable {env : Env} {c : Capture} {xs : List Closed} {date body : Text}

theorem files_fflush_write (t : Text) :
    (c.write env t).fflush.files = appendFile c.szFileName t c.fflush.files := by
  by_cases h : env.lFlush = 0
  · simp [Capture.write, Capture.fwrite, Capture.fflush, h, appendFile_appendFile]
  · simp [Capture.write, Capture.fwrite, Capture.fflush, h, appendFile_appendFile]

theorem szFileName_write (t : Text) : (c.write env t).szFileName = c.szFileName := by
  unfold Capture.write
  split <;> rfl

theorem ulCaptureNum_write (t : Text) : (c.write env t).ulCaptureNum = c.ulCaptureNum := by
  unfold Capture.write
  split <;> rfl

theorem appendFile_open (j : Journal) (num : ℕ) (t : Text) :
    appendFile (captureFileName j num) t [openFile j num date body] =
      [openFile j num date (body ++ t)] := by
  simp [appendFile, openFile]

theorem InChain.write (h : InChain env.toJournal c xs date body) (t : Text) :
    InChain env.toJournal (c.write env t) xs date (body ++ t) where
  files := by
    rw [files_fflush_write, h.files, h.szFileName,
      appendFile_of_not_mem (closedFiles_ne (Nat.le_of_eq (Nat.add_comm 1 _))), appendFile_open]
  szFileName := (szFileName_write t).trans h.szFileName
  ulCaptureNum := (ulCaptureNum_write t).trans h.ulCaptureNum

theorem InChain.fflush (h : InChain env.toJournal c xs date body) :
    InChain env.toJournal c.fflush xs date body where
  files := by
    have hnil : appendFile c.szFileName [] c.fflush.files = c.fflush.files := by
      rw [h.files, h.szFileName,
        appendFile_of_not_mem (closedFiles_ne (Nat.le_of_eq (Nat.add_comm 1 _))), appendFile_open,
        List.append_nil]
    exact hnil.trans h.files
  szFileName := h.szFileName
  ulCaptureNum := h.ulCaptureNum

/-- A new file is opened behind closed files. -/
theorem newCapture_inChain {xs : List Closed} (hfiles : c.files = closedFiles env.toJournal 1 xs)
    (hnum : c.ulCaptureNum = xs.length + 1) (hstdio : c.stdio = []) :
    InChain env.toJournal (newCapture env c) xs (env.dateTime c.dates) [] where
  files := by
    have hne := closedFiles_ne (j := env.toJournal)
      (show 1 + xs.length ≤ xs.length + 1 by omega)
    have hfresh : ∀ t, appendFile (captureFileName env.toJournal (xs.length + 1)) t
        (closedFiles env.toJournal 1 xs) = closedFiles env.toJournal 1 xs ++
          [⟨captureFileName env.toJournal (xs.length + 1), t⟩] := by
      intro t
      have happ := appendFile_of_not_mem (t := t) hne []
      simpa [appendFile] using happ
    unfold newCapture Capture.fwrite Capture.fflush
    simp only [hfiles, hnum, hstdio, List.nil_append, appendFile_appendFile, List.append_nil]
    rw [hfresh]
    simp [openFile]
  szFileName := by rw [← hnum]; rfl
  ulCaptureNum := hnum

/-- The marker goes behind the body of the open file, which is closed by it. -/
theorem appendFile_closes (j : Journal) (xs : List Closed) (date body stop : Text) :
    appendFile (captureFileName j (xs.length + 1))
        (eofLine (fullName j (captureFileName j (xs.length + 1))) (xs.length + 2) stop)
        (closedFiles j 1 xs ++ [openFile j (xs.length + 1) date body]) =
      closedFiles j 1 (xs ++ [⟨date, body, stop⟩]) := by
  rw [appendFile_of_not_mem (closedFiles_ne (Nat.le_of_eq (Nat.add_comm 1 _))), appendFile_open,
    closedFiles_append, closedFiles, closedFiles, closedFile, Nat.add_comm 1 xs.length]

theorem InChain.change (h : InChain env.toJournal c xs date body)
    (hnum : xs.length + 2 < 2 ^ 32) :
    InChain env.toJournal (changeJournal env c) (xs ++ [⟨date, body, env.dateTime c.dates⟩])
      (env.dateTime (c.dates + 1)) [] := by
  have hnext : (c.ulCaptureNum + 1) % 2 ^ 32 = xs.length + 2 := by
    rw [h.ulCaptureNum]
    exact Nat.mod_eq_of_lt hnum
  refine newCapture_inChain (c := changeCapture env c.fflush) ?_ ?_ rfl
  · have hfiles : (changeCapture env c.fflush).files =
        appendFile c.szFileName (eofLine (fullName env.toJournal c.szFileName)
          ((c.ulCaptureNum + 1) % 2 ^ 32) (env.dateTime c.dates)) c.fflush.files := rfl
    rw [hfiles, hnext, h.files, h.szFileName, appendFile_closes]
  · have hc : (changeCapture env c.fflush).ulCaptureNum = (c.ulCaptureNum + 1) % 2 ^ 32 := rfl
    rw [hc, hnext, List.length_append]
    rfl

theorem lineEnd_append_line (body t : Text) : LineEnd (body ++ (t ++ ['\n'])) :=
  .inr ⟨body ++ t, (List.append_assoc _ _ _).symm⟩

/-- The frame lines of the chain are single lines, and no line is cut by the end of a file. -/
def LinesWhole (xs : List Closed) (date : Text) : Prop :=
  '\n' ∉ date ∧ ∀ x ∈ xs, '\n' ∉ x.start ∧ LineEnd x.body ∧ '\n' ∉ x.stop

/-- The writes of a process keep the chain, and add what they write to its bodies. -/
theorem InChain.foldl_apply (h : InChain env.toJournal c xs date body) (hw : LinesWhole xs date)
    (ops : List CaptureOp)
    (hnum : xs.length + 1 + (ops.map CaptureOp.opens).sum < 2 ^ 32) :
    ∃ xs' date' body', InChain env.toJournal (ops.foldl (Capture.apply env) c) xs' date' body' ∧
      LinesWhole xs' date' ∧ xs'.length = xs.length + (ops.map CaptureOp.opens).sum ∧
      xs'.flatMap Closed.body ++ body' =
        xs.flatMap Closed.body ++ body ++ ops.flatMap CaptureOp.text ∧
      (LineEnd body → (∀ op ∈ ops.getLast?, op.IsLine) → LineEnd body') := by
  induction ops using List.reverseRecOn with
  | nil => exact ⟨xs, date, body, h, hw, rfl, by simp, fun hb _ => hb⟩
  | append_singleton ops op ih =>
    rw [List.map_append, List.sum_append, List.map_singleton, List.sum_singleton] at hnum ⊢
    obtain ⟨xs', date', body', h', hw', hlen, hbytes, -⟩ := ih (by omega)
    rw [List.foldl_append, List.foldl_cons, List.foldl_nil]
    have hall : xs'.flatMap Closed.body ++ (body' ++ op.text) =
        xs.flatMap Closed.body ++ body ++ (ops ++ [op]).flatMap CaptureOp.text := by
      rw [← List.append_assoc, hbytes]
      simp
    cases op with
    | part t =>
      refine ⟨xs', date', body' ++ t, h'.write t, hw', ?_, hall, fun _ hlast => ?_⟩
      · simp [hlen, CaptureOp.opens]
      · exact (hlast (.part t) (by simp)).elim
    | line t elapsed rotate =>
      have hline : InChain env.toJournal (if elapsed = true then
          (Capture.write env (ops.foldl (Capture.apply env) c) (t ++ ['\n'])).fflush
          else Capture.write env (ops.foldl (Capture.apply env) c) (t ++ ['\n']))
          xs' date' (body' ++ (t ++ ['\n'])) := by
        split
        · exact (h'.write _).fflush
        · exact h'.write _
      cases rotate with
      | false =>
        refine ⟨xs', date', body' ++ (t ++ ['\n']), hline, hw', ?_, hall,
          fun _ _ => lineEnd_append_line body' t⟩
        simp [hlen, CaptureOp.opens]
      | true =>
        have hopens : (CaptureOp.line t elapsed true).opens = 1 := rfl
        rw [hopens] at hnum
        refine ⟨_, _, [], hline.change (by omega), ⟨env.dateTime_line _, ?_⟩, ?_, ?_,
          fun _ _ => .inl rfl⟩
        · intro x hx
          rcases List.mem_append.mp hx with hx | hx
          · exact hw'.2 x hx
          · rw [List.mem_singleton.mp hx]
            exact ⟨hw'.1, lineEnd_append_line body' t, env.dateTime_line _⟩
        · rw [List.length_append, hlen, hopens, List.length_singleton, Nat.add_assoc]
        · rw [← hall, List.flatMap_append, List.append_nil]
          simp [CaptureOp.text]

end Chain

section Restart
variable {j : Journal}

/-- The name of the journal does not bring an occurrence of the tag before the one that stands
before the number. -/
def Journal.TagOnce (j : Journal) : Prop := strstr captureTag (j.szJrn ++ captureTag) = some []

theorem captureNum_captureFileName (hj : j.TagOnce) (n : ℕ) :
    captureNum (captureFileName j n) = .ok (min n (2 ^ 31 - 1)) := by
  have hstr : strstr captureTag (captureFileName j n) = some (decimal010 n ++ ".jrn".toList) := by
    have h := strstr_append hj (by decide) (decimal010 n ++ ".jrn".toList)
    rw [captureFileName, List.append_assoc]
    exact h
  have hdot : '.' ∉ decimal010 n := fun h => absurd (isDigit_of_mem_decimal010 h) (by decide)
  have hchr : strchr '.' (decimal010 n ++ ".jrn".toList) = some (decimal010 n, "jrn".toList) :=
    strchr_append hdot _
  simp only [captureNum, hstr, hchr, toULong_atol_decimal010]

theorem buildCaptureList_last (hj : j.TagOnce) (xs : List Closed) (num n : ℕ)
    (date body : Text) :
    ∃ list, buildCaptureList (closedFiles j num xs ++ [openFile j n date body]) =
      .ok (list ++ [(captureFileName j n, min n (2 ^ 31 - 1))]) := by
  induction xs generalizing num with
  | nil =>
    refine ⟨[], ?_⟩
    rw [closedFiles, List.nil_append, buildCaptureList, List.mapM_cons, openFile,
      captureNum_captureFileName hj]
    rfl
  | cons x xs ih =>
    obtain ⟨list, hlist⟩ := ih (num + 1)
    refine ⟨(captureFileName j num, min num (2 ^ 31 - 1)) :: list, ?_⟩
    have hname : (closedFile j num x).szFileName = captureFileName j num := rfl
    rw [closedFiles, List.cons_append, buildCaptureList, List.mapM_cons, hname,
      captureNum_captureFileName hj]
    show (buildCaptureList _ >>= _) = _
    rw [hlist]
    rfl

variable {env : Env} {files : List CaptureFile} {xs : List Closed} {date body : Text}

/-- The first run of a process opens the first file. -/
theorem openCapture_first (env : Env) :
    ∃ c, openCapture env Capture.empty false = .ok c ∧
      InChain env.toJournal c [] (env.dateTime 0) [] :=
  ⟨_, rfl, newCapture_inChain (c := { Capture.empty with ulCaptureNum := 1 }) rfl rfl rfl⟩

/-- A later run closes the newest file and opens the next. -/
theorem openCapture_next (hj : env.toJournal.TagOnce)
    (hfiles : files = closedFiles env.toJournal 1 xs ++
      [openFile env.toJournal (xs.length + 1) date body])
    (hnum : xs.length + 1 ≤ 2 ^ 31 - 1) :
    ∃ c, openCapture env { Capture.empty with files := files } false = .ok c ∧
      InChain env.toJournal c (xs ++ [⟨date, body, env.dateTime 0⟩]) (env.dateTime 1) [] := by
  obtain ⟨list, hlist⟩ := buildCaptureList_last hj xs 1 (xs.length + 1) date body
  have hnext : (min (xs.length + 1) (2 ^ 31 - 1) + 1) % 2 ^ 32 = xs.length + 2 := by omega
  have hrestart : restartCapture env { Capture.empty with files := files } =
      .ok { Capture.empty with
        ulCaptureNum := xs.length + 2
        files := closedFiles env.toJournal 1 (xs ++ [⟨date, body, env.dateTime 0⟩])
        dates := 1 } := by
    unfold restartCapture
    simp only [hfiles, hlist, ok_bind, List.getLast?_append, List.getLast?_singleton,
      Option.some_or, hnext]
    have hclose := appendFile_closes env.toJournal xs date body (env.dateTime 0)
    exact congrArg (fun fs => Except.ok { Capture.empty with
      ulCaptureNum := xs.length + 2, files := fs, dates := 1 }) hclose
  refine ⟨_, by rw [openCapture, if_neg Bool.false_ne_true, hrestart]; rfl, ?_⟩
  exact newCapture_inChain rfl (by simp) rfl

end Restart

/-- The last write of the run completes a line. -/
def ProcessRun.StopsAtLine (r : ProcessRun) : Prop := ∀ op ∈ r.ops.getLast?, op.IsLine

section History
variable {j : Journal}

theorem runProcess_inChain {r : ProcessRun} {files : List CaptureFile} {c : Capture}
    {xs : List Closed} {date : Text}
    (hopen : openCapture r.env { Capture.empty with files := files } false = .ok c)
    (h : InChain r.env.toJournal c xs date []) (hw : LinesWhole xs date)
    (hnum : xs.length + r.opens < 2 ^ 32) :
    ∃ xs' date' body', runProcess files r =
        .ok (closedFiles r.env.toJournal 1 xs' ++
          [openFile r.env.toJournal (xs'.length + 1) date' body']) ∧
      LinesWhole xs' date' ∧ xs'.length + 1 = xs.length + r.opens ∧
      xs'.flatMap Closed.body ++ body' = xs.flatMap Closed.body ++ r.written ∧
      (r.StopsAtLine → LineEnd body') := by
  rw [ProcessRun.opens] at hnum ⊢
  obtain ⟨xs', date', body', h', hw', hlen, hbytes, hline⟩ := h.foldl_apply hw r.ops (by omega)
  refine ⟨xs', date', body', ?_, hw', by omega, ?_, hline (.inl rfl)⟩
  · rw [runProcess, hopen, ← h'.files]
    rfl
  · rw [hbytes, List.append_nil]
    rfl

/-- The files after a nonempty history, of which every run but the last stopped at a line end. -/
theorem history_chain (runs : List ProcessRun) (hne : runs ≠ [])
    (henv : ∀ r ∈ runs, r.env.toJournal = j) (hj : runs.dropLast ≠ [] → j.TagOnce)
    (hstop : ∀ r ∈ runs.dropLast, r.StopsAtLine)
    (hrestart : (runs.dropLast.map ProcessRun.opens).sum ≤ 2 ^ 31 - 1)
    (hnum : (runs.map ProcessRun.opens).sum < 2 ^ 32) :
    ∃ xs date body, history runs =
        .ok (closedFiles j 1 xs ++ [openFile j (xs.length + 1) date body]) ∧
      LinesWhole xs date ∧ xs.length + 1 = (runs.map ProcessRun.opens).sum ∧
      xs.flatMap Closed.body ++ body = runs.flatMap ProcessRun.written ∧
      ((∀ r ∈ runs.getLast?, r.StopsAtLine) → LineEnd body) := by
  induction runs using List.reverseRecOn with
  | nil => exact absurd rfl hne
  | append_singleton runs r ih =>
    rw [List.dropLast_concat] at hj hstop hrestart
    rw [List.map_append, List.sum_append, List.map_singleton, List.sum_singleton] at hnum ⊢
    have hr : r.env.toJournal = j := henv r (by simp)
    have hlast : (∀ r' ∈ (runs ++ [r]).getLast?, r'.StopsAtLine) → r.StopsAtLine :=
      fun h => h r (by simp)
    have hrun : history (runs ++ [r]) = history runs >>= fun files => runProcess files r := by
      rw [history, List.foldlM_append]
      refine bind_congr fun files => ?_
      rw [List.foldlM_cons]
      cases runProcess files r <;> rfl
    rcases List.eq_nil_or_concat' runs with rfl | ⟨earlier, r', hruns⟩
    · obtain ⟨c, hopen, hc⟩ := openCapture_first r.env
      obtain ⟨xs, date, body, hfiles, hw, hlen, hbytes, hline⟩ := runProcess_inChain hopen hc
        ⟨r.env.dateTime_line 0, by simp⟩ (by simpa using hnum)
      rw [hr] at hfiles
      refine ⟨xs, date, body, hrun.trans hfiles, hw, by simpa using hlen, ?_,
        fun h => hline (hlast h)⟩
      simpa using hbytes
    · have hsub : runs.dropLast ⊆ runs := List.dropLast_subset runs
      have hsum : (runs.dropLast.map ProcessRun.opens).sum ≤
          (runs.map ProcessRun.opens).sum := by
        simp [hruns]
      obtain ⟨xs, date, body, hfiles, hw, hlen, hbytes, hline⟩ := ih (by simp [hruns])
        (fun r h => henv r (List.mem_append_left _ h)) (fun _ => hj (by simp [hruns]))
        (fun r h => hstop r (hsub h)) (by omega) (by omega)
      have hend : LineEnd body := by
        refine hline fun r h => hstop r ?_
        exact List.mem_of_getLast? h
      subst hr
      have hwhole : LinesWhole (xs ++ [⟨date, body, r.env.dateTime 0⟩]) (r.env.dateTime 1) := by
        refine ⟨r.env.dateTime_line 1, fun x hx => ?_⟩
        rcases List.mem_append.mp hx with hx | hx
        · exact hw.2 x hx
        · rw [List.mem_singleton.mp hx]
          exact ⟨hw.1, hend, r.env.dateTime_line 0⟩
      have hnext : xs.length + 1 ≤ 2 ^ 31 - 1 := by omega
      obtain ⟨c, hopen, hc⟩ := openCapture_next (hj (by simp [hruns])) rfl hnext
      obtain ⟨xs', date', body', hfiles', hw', hlen', hbytes', hline'⟩ := runProcess_inChain
        hopen hc hwhole (by simp; omega)
      refine ⟨xs', date', body', ?_, hw', ?_, ?_, fun h => hline' (hlast h)⟩
      · rw [hrun, hfiles, ok_bind, hfiles']
      · rw [hlen', List.length_append, List.length_singleton, hlen]
      · rw [hbytes', List.flatMap_append, List.flatMap_append, ← hbytes]
        simp

/-- The capture files of every history are a framed chain, when every run but the last stopped at
the end of a line, the numbers of the files can be read back when a run follows another, and no line
that is listened begins with the tag of a frame line. -/
theorem framed_of_history (runs : List ProcessRun) (hne : runs ≠ [])
    (henv : ∀ r ∈ runs, r.env.toJournal = j) (hj : runs.dropLast ≠ [] → j.TagOnce)
    (hline : j.OneLine) (hstop : ∀ r ∈ runs.dropLast, r.StopsAtLine)
    (hplain : ∀ l ∈ linesOf (runs.flatMap ProcessRun.written), ¬sofTag <+: l ∧ ¬eofTag <+: l)
    (hrestart : (runs.dropLast.map ProcessRun.opens).sum ≤ 2 ^ 31 - 1)
    (hnum : (runs.map ProcessRun.opens).sum < 2 ^ 32) :
    ∃ files, history runs = .ok files ∧ Framed j files (runs.flatMap ProcessRun.written) := by
  obtain ⟨xs, date, body, hfiles, hw, -, hbytes, -⟩ :=
    history_chain runs hne henv hj hstop hrestart hnum
  have hchained : Chained j (closedFiles j 1 xs ++ [openFile j (xs.length + 1) date body])
      (runs.flatMap ProcessRun.written) := ⟨xs, date, body, rfl, hw.1, hw.2, hbytes⟩
  exact ⟨_, hfiles, hchained.framed hline hplain⟩

/-- Two runs: one that completes a column line and rotates, and one that stops inside a line. -/
def lineThenPart : List ProcessRun :=
  [⟨.default, [.line "###   @1=1".toList false true]⟩, ⟨.default, [.part "###   @2=".toList]⟩]

theorem framed_lineThenPart : ∃ files, history lineThenPart = .ok files ∧
    Framed Env.default.toJournal files (lineThenPart.flatMap ProcessRun.written) := by
  apply framed_of_history (j := Env.default.toJournal)
  · exact List.cons_ne_nil _ _
  · intro r hr
    rcases List.mem_pair.mp hr with rfl | rfl <;> rfl
  · intro _
    show strstr _ _ = _
    decide
  · exact ⟨by decide, by decide⟩
  · intro r hr op hop
    rw [List.mem_singleton.mp hr] at hop
    rw [← Option.mem_some.mp hop]
    trivial
  · decide
  · decide
  · decide

/-- One run that stops inside a column line, and the next, which marks the end of its file. -/
def partThenRestart : List ProcessRun :=
  [⟨.default, [.part "###   @1=1".toList]⟩, ⟨.default, []⟩]

theorem not_framed_partThenRestart :
    ¬∀ (j : Journal) (runs : List ProcessRun), j.TagOnce → j.OneLine → runs ≠ [] →
      (∀ r ∈ runs, r.env.toJournal = j) →
      (∀ l ∈ linesOf (runs.flatMap ProcessRun.written), ¬sofTag <+: l ∧ ¬eofTag <+: l) →
      (runs.dropLast.map ProcessRun.opens).sum ≤ 2 ^ 31 - 1 →
      (runs.map ProcessRun.opens).sum < 2 ^ 32 →
      ∃ files, history runs = .ok files ∧ Framed j files (runs.flatMap ProcessRun.written) := by
  intro h
  have hrun : history partThenRestart = .ok
      [⟨"jrn_capture_0000000001.jrn".toList,
        ("*!SOF!C:\\journal\\jrn_capture_0000000001.jrn!1!2020-01-01 00:00:00.000!*".toList ++
          '\n' :: ("###   @1=1".toList ++
            "*!EOF!C:\\journal\\jrn_capture_0000000001.jrn!2!2020-01-01 00:00:00.000!*\n".toList))⟩,
      ⟨"jrn_capture_0000000002.jrn".toList,
        "*!SOF!C:\\journal\\jrn_capture_0000000002.jrn!2!2020-01-01 00:00:00.000!*\n".toList⟩] := by
    decide +kernel
  obtain ⟨files, hfiles, ⟨xs, date, body, hchain, -, hw, -⟩, -, -, -⟩ :=
    h Env.default.toJournal partThenRestart (by show strstr _ _ = _; decide)
      ⟨by decide, by decide⟩ (List.cons_ne_nil _ _)
      (fun r hr => by rcases List.mem_pair.mp hr with rfl | rfl <;> rfl) (by decide) (by decide)
      (by decide)
  rw [hrun] at hfiles
  rw [← Except.ok.inj hfiles] at hchain
  obtain _ | ⟨x, xs⟩ := xs
  · simp [closedFiles] at hchain
  obtain ⟨hstart, hend, -⟩ := hw x (List.mem_cons_self ..)
  -- the first lines agree, so what follows them is the body and the marker
  have hcontents := congrArg CaptureFile.contents (List.cons.inj hchain).1
  have hfirst : sofLine (fullName Env.default.toJournal (captureFileName Env.default.toJournal 1)) 1
      x.start = "*!SOF!C:\\journal\\jrn_capture_0000000001.jrn!1!".toList ++ x.start ++
        "!*".toList ++ ['\n'] := by
    simp only [sofLine, frameLine_eq]
    rfl
  have hchr := congrArg (strchr '\n') hcontents
  simp only [closedFile, openFile, hfirst, List.append_assoc _ ['\n'],
    List.singleton_append] at hchr
  rw [strchr_append (by decide), strchr_append (by simpa using hstart)] at hchr
  have hrest := (Prod.mk.inj (Option.some.inj hchr)).2
  rcases hend with hbody | ⟨u, hbody⟩
  · rw [hbody, List.nil_append] at hrest
    exact absurd (congrArg List.head? hrest) (by show some '#' ≠ some '*'; decide)
  · have hcount := congrArg (List.count '\n') hrest
    rw [hbody, eofLine, frameLine_eq, List.count_append, List.count_append, List.count_append,
      List.count_append] at hcount
    have hone : List.count '\n' ("###   @1=1".toList ++
        "*!EOF!C:\\journal\\jrn_capture_0000000001.jrn!2!2020-01-01 00:00:00.000!*\n".toList) =
          1 := by
      decide
    rw [← List.count_append, hone, List.count_singleton_self] at hcount
    omega

end History

section Listener
variable {env : Env} {s s' : Listener}

/-- What a step of the listener does to the capture is one of the writes of a process run. -/
theorem step_capture (h : Listener.Step env s s') :
    ∃ op : CaptureOp, s'.capture = s.capture.apply env op ∧
      s'.capture.listened = s.capture.listened ++ op.text := by
  cases h with
  | lob => exact ⟨.part _, rfl, Capture.listened_write ..⟩
  | @line _ entry text fLob column _ _ h =>
    rw [lineEnd_eq] at h
    obtain ⟨hh, -, he⟩ := map_eq_ok_iff.mp h
    rw [← (Prod.mk.inj he).1]
    refine ⟨.line entry (s.elapsed env) (s.rotates (entry ++ ['\n'])), ?_, listened_writeLine ..⟩
    simp only [Listener.writeLine, Capture.apply]
    split_ifs <;> rfl

theorem steps_capture (h : Listener.Steps env s s') :
    ∃ ops : List CaptureOp, s'.capture = ops.foldl (Capture.apply env) s.capture ∧
      s'.capture.listened = s.capture.listened ++ ops.flatMap CaptureOp.text := by
  induction h with
  | refl => exact ⟨[], rfl, by simp⟩
  | tail _ hlast ih =>
    obtain ⟨ops, hops, hbytes⟩ := ih
    obtain ⟨op, hop, hbyte⟩ := step_capture hlast
    refine ⟨ops ++ [op], ?_, ?_⟩
    · rw [hop, hops, List.foldl_append]
      rfl
    · rw [hbyte, hbytes, List.flatMap_append]
      simp

/-- A run of the listener on any reads writes to the capture as a process run does. -/
theorem listen_capture {fuel : ℕ} {core : Listener} {mem : Text} {chunks : List Text}
    {s : Buffered} (h : listen env fuel (.start core mem) chunks = .ok s) :
    ∃ ops : List CaptureOp, s.core.capture = ops.foldl (Capture.apply env) core.capture ∧
      s.core.capture.listened = core.capture.listened ++ ops.flatMap CaptureOp.text :=
  steps_capture (listen_steps chunks (.start core mem) s [] (start_holds core mem) h)

end Listener

end BinlogCapture
