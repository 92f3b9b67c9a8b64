import BinlogCapture.ListenerRun

/-! The size of the current capture file: `g_ulCaptureSize` counts in 32 bits what is written to
it, and the file is changed at a line end when the count exceeds `g_ulCaptureMax`. -/
namespace BinlogCapture
open CString Fallible

/-- A 32-bit `DWORD` of the registry that is read into a `long`. -/
def registryLong (n : ℕ) : ℤ := if n < 2 ^ 31 then n else n - 2 ^ 32

/-- The contents of a capture file on the disk. -/
def fileText (name : Text) (files : List CaptureFile) : Text :=
  ((files.find? (·.szFileName = name)).map CaptureFile.contents).getD []

/-- What the open capture file contains, with the bytes that the C library still holds. -/
def Capture.current (c : Capture) : Text := fileText c.szFileName c.fflush.files

/-- The threshold 1024000 `n` in 32 bits. A value from 2^31 on is a negative `long`, for which the
default is taken. -/
def reducedMax (n : ℕ) : ℕ := if n < 2 ^ 31 then 1024000 * n % 2 ^ 32 else 1024000000

/-- The bytes of a file can be counted, and so can those of its threshold, or the file has not
reached the reduced one. -/
structure Countable (n : ℕ) (bytes : Text) : Prop where
  size : bytes.length < 2 ^ 32
  threshold : 1024000 * n < 2 ^ 32 ∨ bytes.length ≤ reducedMax n

/-- The line that was written when the current file was opened. -/
def firstLine (env : Env) (c : Capture) : Text :=
  sofLine (fullName env.toJournal c.szFileName) c.ulCaptureNum (env.dateTime (c.dates - 1))

/-- A run of line ends and part writes that starts with the opening of a capture file and whose
steps are countable: `done` is what the current file has received from its first line up to the
last line end, and `part` what it has received behind that. -/
inductive Filling (env : Env) (n : ℕ) : Listener → Text → Text → Prop where
  | opened {s : Listener} (c : Capture) (h : s.capture = newCapture env c) :
      Filling env n s (firstLine env s.capture) []
  | lob {s : Listener} {done part : Text} (entry : Text) (h : Filling env n s done part)
      (hsize : (done ++ part ++ entry).length < 2 ^ 32) :
      Filling env n (s.writeLob env entry) done (part ++ entry)
  | line {s s' : Listener} {done part entry text : Text} {fLob column : Bool}
      (h : Filling env n s done part) (hcount : Countable n (done ++ part ++ entry))
      (hend : s.lineEnd env entry text fLob = .ok (s', column)) :
      Filling env n s'
        (if s.rotates entry then firstLine env s'.capture else done ++ part ++ entry) []

/-- The count is the size, and up to its last line end a file with more than its first line is
within the threshold. -/
structure Measured (env : Env) (n : ℕ) (c : Capture) (done part : Text) : Prop where
  max : c.ulCaptureMax = captureMax env
  size : c.ulCaptureSize = (done ++ part).length
  current : done ++ part <:+ c.current
  starts : firstLine env c <+: done
  within : done = firstLine env c ∨ done.length ≤ 1024000 * n

section Files

theorem fileText_appendFile (name t : Text) (fs : List CaptureFile) :
    fileText name (appendFile name t fs) = fileText name fs ++ t := by
  unfold fileText
  induction fs with
  | nil => simp [appendFile]
  | cons f fs ih =>
    by_cases hf : f.szFileName = name
    · simp [appendFile, hf]
    · simp [appendFile, hf, ih]

variable (env : Env) (c : Capture) (t : Text)

theorem current_eq : c.current = fileText c.szFileName c.files ++ c.stdio :=
  fileText_appendFile _ _ _

@[simp] theorem current_fflush : c.fflush.current = c.current := by
  rw [current_eq]
  exact List.append_nil _

@[simp] theorem current_write : (c.write env t).current = c.current ++ t := by
  have hcurrent : ({ c.fwrite t with listened := c.listened ++ t } : Capture).current =
      c.current ++ t := by
    simp only [current_eq, Capture.fwrite, List.append_assoc]
  unfold Capture.write
  split
  · exact (current_fflush _).trans hcurrent
  · exact hcurrent

@[simp] theorem firstLine_fflush : firstLine env c.fflush = firstLine env c := rfl

@[simp] theorem firstLine_write : firstLine env (c.write env t) = firstLine env c := by
  unfold Capture.write
  split <;> rfl

theorem firstLine_newCapture : firstLine env (newCapture env c) =
    sofLine (fullName env.toJournal (captureFileName env.toJournal c.ulCaptureNum)) c.ulCaptureNum
      (env.dateTime c.dates) := rfl

/-- A file that is opened ends with its first line, which is counted. -/
theorem measured_newCapture (n : ℕ) :
    Measured env n (newCapture env c) (firstLine env (newCapture env c)) [] where
  max := rfl
  size := by
    rw [List.append_nil, firstLine_newCapture]
    rfl
  current := by
    rw [List.append_nil, current_eq, firstLine_newCapture]
    have hfiles : fileText (newCapture env c).szFileName (newCapture env c).files =
        fileText (captureFileName env.toJournal c.ulCaptureNum) c.files ++ (c.stdio ++ sofLine
          (fullName env.toJournal (captureFileName env.toJournal c.ulCaptureNum)) c.ulCaptureNum
            (env.dateTime c.dates)) := fileText_appendFile _ _ _
    have hstdio : (newCapture env c).stdio = [] := rfl
    rw [hfiles, hstdio, List.append_nil, ← List.append_assoc]
    exact List.suffix_append _ _
  starts := List.prefix_rfl
  within := .inl rfl

end Files

section Threshold

theorem captureMax_eq {env : Env} {n : ℕ} (h2 : 2 ≤ n) (hn : n < 2 ^ 32)
    (henv : env.lCaptureAndProcess = registryLong n) : captureMax env = reducedMax n := by
  unfold captureMax reducedMax
  rw [henv, registryLong]
  by_cases hlong : n < 2 ^ 31
  · simp only [hlong, ↓reduceIte]
    rw [if_pos (by omega), toULong]
    omega
  · simp only [hlong, ↓reduceIte]
    rw [if_neg (by omega)]

/-- The reduced threshold decides like the configured one for the countable bytes, and for no
others. -/
theorem reducedMax_decides_iff {n : ℕ} {bytes : Text} (hsize : bytes.length < 2 ^ 32) :
    (reducedMax n < bytes.length ↔ 1024000 * n < bytes.length) ↔
      1024000 * n < 2 ^ 32 ∨ bytes.length ≤ reducedMax n := by
  by_cases hfits : 1024000 * n < 2 ^ 32
  · have hlong : n < 2 ^ 31 := by omega
    rw [reducedMax, if_pos hlong, Nat.mod_eq_of_lt hfits]
    exact iff_of_true Iff.rfl (.inl hfits)
  · have hnot : ¬1024000 * n < bytes.length := by omega
    simp only [hnot, iff_false, hfits, false_or, Nat.not_lt]

end Threshold

section Steps
variable {env : Env} {n : ℕ} {c : Capture} {done part : Text}

theorem Measured.write (h : Measured env n c done part) {t : Text}
    (hsize : (done ++ part ++ t).length < 2 ^ 32) :
    Measured env n (c.write env t) done (part ++ t) where
  max := by rw [Capture.ulCaptureMax_write, h.max]
  size := by
    rw [Capture.ulCaptureSize_write, h.size, ← List.length_append, Nat.mod_eq_of_lt hsize,
      List.append_assoc]
  current := by
    obtain ⟨u, hu⟩ := h.current
    refine ⟨u, ?_⟩
    rw [current_write, ← hu]
    simp only [List.append_assoc]
  starts := by
    rw [firstLine_write]
    exact h.starts
  within := by
    rw [firstLine_write]
    exact h.within

theorem Measured.fflush (h : Measured env n c done part) : Measured env n c.fflush done part where
  max := h.max
  size := h.size
  current := by
    rw [current_fflush]
    exact h.current
  starts := h.starts
  within := h.within

/-- A line end within the threshold. -/
theorem Measured.lineEnd (h : Measured env n c done part)
    (hle : (done ++ part).length ≤ 1024000 * n) : Measured env n c (done ++ part) [] where
  max := h.max
  size := by rw [List.append_nil, h.size]
  current := by
    rw [List.append_nil]
    exact h.current
  starts := h.starts.trans (List.prefix_append _ _)
  within := .inr hle

variable {s s' : Listener} {entry text : Text} {fLob column : Bool}

theorem capture_lineEnd (hend : s.lineEnd env entry text fLob = .ok (s', column)) :
    s'.capture = (s.writeLine env entry).capture := by
  rw [lineEnd_eq] at hend
  obtain ⟨h, -, he⟩ := map_eq_ok_iff.mp hend
  rw [← (Prod.mk.inj he).1]

theorem Measured.writeLine_stay (h : Measured env n s.capture done part)
    (hsize : (done ++ part ++ entry).length < 2 ^ 32) (hstay : s.rotates entry = false) :
    Measured env n (s.writeLine env entry).capture done (part ++ entry) := by
  have hwrite := h.write hsize
  unfold Listener.writeLine
  simp only [hstay, Bool.false_eq_true, ↓reduceIte]
  split
  · exact hwrite.fflush
  · exact hwrite

theorem writeLine_change (hchange : s.rotates entry = true) :
    ∃ c, (s.writeLine env entry).capture = newCapture env c := by
  unfold Listener.writeLine
  simp only [hchange, ↓reduceIte]
  exact ⟨_, rfl⟩

variable (h2 : 2 ≤ n) (hn : n < 2 ^ 32) (henv : env.lCaptureAndProcess = registryLong n)
include h2 hn henv

/-- The decision at a line end. -/
theorem Measured.rotates_iff (h : Measured env n s.capture done part)
    (hsize : (done ++ part ++ entry).length < 2 ^ 32) :
    s.rotates entry = true ↔ reducedMax n < (done ++ part ++ entry).length := by
  rw [Listener.rotates, decide_eq_true_iff, h.max, h.size, captureMax_eq h2 hn henv,
    ← List.length_append, Nat.mod_eq_of_lt hsize, gt_iff_lt]

theorem Measured.line (h : Measured env n s.capture done part)
    (hcount : Countable n (done ++ part ++ entry))
    (hend : s.lineEnd env entry text fLob = .ok (s', column)) :
    Measured env n s'.capture
      (if s.rotates entry then firstLine env s'.capture else done ++ part ++ entry) [] := by
  have hiff := (h.rotates_iff h2 hn henv hcount.size).trans
    ((reducedMax_decides_iff hcount.size).mpr hcount.threshold)
  rw [capture_lineEnd hend]
  cases hr : s.rotates entry with
  | false =>
    have hle : ¬1024000 * n < (done ++ part ++ entry).length := by
      rw [← hiff, hr]
      decide
    have hstay := h.writeLine_stay hcount.size hr
    have hassoc : done ++ part ++ entry = done ++ (part ++ entry) := List.append_assoc _ _ _
    simp only [Bool.false_eq_true, ↓reduceIte]
    rw [hassoc] at hle ⊢
    exact hstay.lineEnd (Nat.le_of_not_lt hle)
  | true =>
    obtain ⟨c, hc⟩ := writeLine_change hr
    simp only [↓reduceIte]
    rw [hc]
    exact measured_newCapture env c n

theorem Filling.measured (h : Filling env n s done part) : Measured env n s.capture done part := by
  induction h with
  | opened c hnew =>
    rw [hnew]
    exact measured_newCapture env c n
  | lob entry _ hsize ih => exact ih.write hsize
  | line _ hcount hend ih => exact ih.line h2 hn henv hcount hend

/-- In every run of countable steps `g_ulCaptureSize` is the size of the current file, and a line
end changes the file exactly beyond the configured size if and only if it is countable. -/
theorem rotation_follows_size (h : Filling env n s done part) :
    Measured env n s.capture done part ∧
      ∀ entry, (done ++ part ++ entry).length < 2 ^ 32 →
        ((s.rotates entry = true ↔ 1024000 * n < (done ++ part ++ entry).length) ↔
          1024000 * n < 2 ^ 32 ∨ (done ++ part ++ entry).length ≤ reducedMax n) := by
  have hmeasured := h.measured h2 hn henv
  refine ⟨hmeasured, fun entry hsize => ?_⟩
  rw [hmeasured.rotates_iff h2 hn henv hsize]
  exact reducedMax_decides_iff hsize

end Steps

/-- The default settings with the value `n` in the registry. -/
def Env.sized (n : ℕ) : Env := { Env.default with lCaptureAndProcess := registryLong n }

/-- With the value 2 the first part of a line is counted. A short end of the line leaves the file
open, and one of 2048001 bytes changes it. -/
theorem rotation_follows_size_two :
    ((Listener.initial (.sized 2)).writeLob (.sized 2) "###   @1=".toList).capture.ulCaptureSize =
        (firstLine (.sized 2) (Listener.initial (.sized 2)).capture ++ "###   @1=".toList).length ∧
      ((Listener.initial (.sized 2)).writeLob (.sized 2) "###   @1=".toList).rotates "7\n".toList =
        false ∧
      ((Listener.initial (.sized 2)).writeLob (.sized 2) "###   @1=".toList).rotates
        (List.replicate 2048000 '7' ++ ['\n']) = true := by
  have hopened : Filling (.sized 2) 2 (Listener.initial (.sized 2)) _ [] :=
    .opened { Capture.empty with ulCaptureNum := 1 } rfl
  have hlob := hopened.lob "###   @1=".toList (by decide +kernel)
  obtain ⟨hmeasured, hdecides⟩ := rotation_follows_size (by decide) (by decide) rfl hlob
  refine ⟨hmeasured.size, ?_, ?_⟩
  · have h := (hdecides "7\n".toList (by decide +kernel)).mpr (.inl (by decide))
    rw [← Bool.not_eq_true, h]
    decide +kernel
  · have hlong : ∀ entry : Text, 2048000 < entry.length → entry.length < 2 ^ 31 →
        ((Listener.initial (.sized 2)).writeLob (.sized 2) "###   @1=".toList).rotates entry =
          true := by
      intro entry hmore hless
      have hbefore : (firstLine (.sized 2) (Listener.initial (.sized 2)).capture ++
          ([] ++ "###   @1=".toList)).length < 2 ^ 31 := by decide +kernel
      have h := (hdecides entry (by rw [List.length_append]; omega)).mpr (.inl (by decide))
      rw [h, List.length_append]
      omega
    apply hlong
    all_goals rw [List.length_append, List.length_replicate, List.length_singleton]
    all_goals decide

/-- With the value 524288 the threshold is 0 in 32 bits, and every line end changes the file. -/
theorem not_rotation_follows_size :
    ∃ done, Filling (.sized 524288) 524288 (Listener.initial (.sized 524288)) done [] ∧
      (Listener.initial (.sized 524288)).rotates ['\n'] = true ∧
      (done ++ ['\n']).length ≤ 1024000 * 524288 := by
  refine ⟨_, .opened { Capture.empty with ulCaptureNum := 1 } rfl, ?_, ?_⟩
  · decide +kernel
  · decide +kernel

end BinlogCapture
