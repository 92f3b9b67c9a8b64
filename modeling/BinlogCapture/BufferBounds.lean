import BinlogCapture.Transparency

/-! Where the reads and the copies of the listener end: the NUL behind a read, the copy of the
first part of a long line, the copy of the text behind its line feed, and the strings in the buffer
that the loop over the bytes goes through. -/
namespace BinlogCapture
open CString Fallible

/-- The buffer after `GetBuffer`, before the loop over the bytes. -/
def Buffered.got (s : Buffered) (chunk : Text) : Buffered :=
  { s with
    szBufferStdOut := poke s.szBufferStdOut s.bufferStart (chunk ++ [nul])
    work := s.bufferStart }

/-- The loop over the bytes stays in the buffer: each string that it goes through has its
terminator there, and each copy that it makes into `szSavedLine` fits. -/
def Buffered.ScansInside (env : Env) : ℕ → Buffered → Prop
  | 0, _ => True
  | fuel + 1, s => s.Terminated ∧
    match strchr '\n' (strAt s.szBufferStdOut s.work) with
    | none => True
    | some (seg, _) =>
      (s.fLob = true →
        (strAt s.szBufferStdOut (s.work + seg.length + 1)).length < iLenBufferOut) ∧
        ∀ s', Buffered.lineFeed env { s with work := s.work + seg.length } = .ok s' →
          Buffered.ScansInside env fuel s'

/-- The refill copies the unfinished line to `szLine`. -/
def Buffered.CopiesLine (env : Env) (s : Buffered) : Prop :=
  s.work + iLenBufferOut > env.iMaxBufferLine ∧ s.startLine < iLenBufferOut ∧
    s.core.loc.bDataColumnInProgress = true

/-- The terminating NULs of one read and of the copies made before the next one, and the strings
that are read in between. -/
structure ReadInBounds (env : Env) (fuel : ℕ) (s : Buffered) (chunk : Text) : Prop where
  getBuffer : s.bufferStart + chunk.length < env.iMaxBufferLine
  scan : (s.got chunk).ScansInside env fuel
  line : ∀ s', Buffered.scan env fuel (s.got chunk) = .ok s' → s'.CopiesLine env →
    s'.work - s'.startLine < env.iMaxBufferLine

def InBounds (env : Env) (fuel : ℕ) (s : Buffered) (chunks : List Text) : Prop :=
  ∀ before chunk after t, chunks = before ++ chunk :: after →
    listen env fuel s before = .ok t → ReadInBounds env fuel t chunk

/-- A read of the largest size that begins at the last place where the refill leaves it. -/
def FullReadAtEnd (env : Env) (s : Buffered) (chunk : Text) : Prop :=
  chunk.length = iLenBufferOut ∧ s.bufferStart + iLenBufferOut = env.iMaxBufferLine

/-- The read ends a long line whose kept part is dispatched as no column. The loop goes on behind
that part, which is reloaded to the start of the buffer, and no NUL is left there. -/
structure RunsBehind (s : Buffered) (chunk : Text) : Prop where
  fLob : s.fLob = true
  lineFeed : '\n' ∈ chunk
  dispatched : ∃ h, handleLine s.core.shared.stBinLogSeq s.core.loc s.szLine = .ok h ∧
    h.column = false
  short : s.bufferStart + chunk.length ≤ s.szLine.length
  unterminated : nul ∉ s.szBufferStdOut.drop (s.szLine.length + 1)

/-- Behind a line feed in the part of the buffer that `szLine` does not cover, the string is
short: it ends with a read, or with the buffer. -/
def ShortTails (buf : Text) : Prop :=
  ∀ a b, buf = a ++ '\n' :: b → iLenBufferOut ≤ a.length → (strAt b 0).length < iLenBufferOut

/-- A line feed behind a part that has none is one of what follows. -/
theorem lineFeed_behind {u v a b : Text} (hu : '\n' ∉ u) (h : u ++ v = a ++ '\n' :: b) :
    ∃ a', a = u ++ a' ∧ v = a' ++ '\n' :: b := by
  rcases List.append_eq_append_iff.mp h with ⟨a', ha, hv⟩ | ⟨c, hc, hb⟩
  · exact ⟨a', ha, hv⟩
  · cases c with
    | nil =>
      rw [List.append_nil] at hc
      exact ⟨[], by rw [hc, List.append_nil], by rw [List.nil_append]; exact hb.symm⟩
    | cons x c =>
      rw [List.cons_append] at hb
      obtain ⟨rfl, -⟩ := List.cons.inj hb
      exact absurd (hc ▸ List.mem_append_right a List.mem_cons_self) hu

/-- A part without line feeds in place of another of its length keeps the tails short. -/
theorem ShortTails.replace {u w v : Text} (h : ShortTails (w ++ v)) (hu : '\n' ∉ u)
    (hlen : u.length = w.length) : ShortTails (u ++ v) := by
  intro a b hab ha
  obtain ⟨a', rfl, rfl⟩ := lineFeed_behind hu hab
  apply h (w ++ a') b (by rw [List.append_assoc])
  rw [List.length_append, ← hlen, ← List.length_append]
  exact ha

/-- A read behind a part without line feeds keeps the tails short. -/
theorem ShortTails.read {u chunk v w : Text} (h : ShortTails (u ++ (w ++ v))) (hu : '\n' ∉ u)
    (hnul : nul ∉ chunk) (hlen : chunk.length ≤ iLenBufferOut) (hw : v ≠ [] →
      w.length = chunk.length + 1) : ShortTails (u ++ (chunk ++ nul :: v)) := by
  intro a b hab ha
  obtain ⟨a', rfl, h'⟩ := lineFeed_behind hu hab
  rcases List.append_eq_append_iff.mp h' with ⟨c, rfl, hv⟩ | ⟨c, hc, hb⟩
  · -- the line feed stands behind the read
    cases c with
    | nil => exact absurd (List.cons.inj hv).1 (by decide)
    | cons x c =>
      rw [List.cons_append] at hv
      obtain ⟨rfl, rfl⟩ := List.cons.inj hv
      have hwl := hw (by simp)
      apply h (u ++ (w ++ c)) b (by simp)
      simp only [List.length_append, List.length_cons] at ha ⊢
      omega
  · cases c with
    | nil => exact absurd (List.cons.inj hb).1 (by decide)
    | cons x c =>
      rw [List.cons_append] at hb
      obtain ⟨rfl, rfl⟩ := List.cons.inj hb
      have hcn : nul ∉ c := fun hm =>
        hnul (hc ▸ List.mem_append_right a' (List.mem_cons_of_mem _ hm))
      have hstr : strAt (c ++ nul :: v) 0 = c := strAt_zero_append hcn v
      rw [hstr]
      rw [hc, List.length_append, List.length_cons] at hlen
      omega

/-- While part of a long line is written: nothing before `n` is a line feed, and `szLine`
covers the part of the buffer in which one may have a long string behind it. -/
structure LobBounds (env : Env) (s : Buffered) (n : ℕ) : Prop where
  clean : '\n' ∉ s.szBufferStdOut.take n
  tails : ShortTails s.szBufferStdOut
  long : iLenBufferOut ≤ s.szLine.length
  below : s.szLine.length < env.iMaxBufferLine
  line : nul ∉ s.szLine ∧ '\n' ∉ s.szLine
  start : s.startLine = 0 ∨ s.szLine.length < s.startLine

/-- Between two reads. -/
structure ReadBounds (env : Env) (s : Buffered) : Prop where
  block : s.szBufferStdOut.length = env.iMaxBufferLine
  room : s.bufferStart + iLenBufferOut ≤ env.iMaxBufferLine
  holds : ∃ rest, s.Holds s.bufferStart rest
  lob : s.fLob = true → LobBounds env s s.bufferStart

/-- In the loop over the bytes. -/
structure ScanBounds (env : Env) (s : Buffered) : Prop where
  block : s.szBufferStdOut.length = env.iMaxBufferLine
  terminated : s.Terminated
  holds : ∃ rest, s.Holds s.work rest
  lob : s.fLob = true → LobBounds env s s.work
  saves : s.fLob = true → ∀ seg todo, strAt s.szBufferStdOut s.work = seg ++ '\n' :: todo →
    todo.length < iLenBufferOut

/-- The string behind the first part of a string. -/
theorem strAt_behind {mem s t : Text} {i : ℕ} (h : strAt mem i = s ++ t) :
    strAt mem (i + s.length) = t := by
  obtain ⟨more, hmore⟩ := List.takeWhile_prefix (p := (· ≠ nul)) (l := mem.drop i)
  unfold strAt at h ⊢
  rw [h, List.append_assoc] at hmore
  have hs : ∀ c ∈ s, (c ≠ nul) := by
    intro c hc
    have hm : c ∈ (mem.drop i).takeWhile (· ≠ nul) := h ▸ List.mem_append_left t hc
    simpa using List.mem_takeWhile_imp hm
  rw [← hmore, List.takeWhile_append_of_pos (by simpa using hs)] at h
  rw [← List.drop_drop, ← hmore, List.drop_left]
  exact List.append_cancel_left h

/-- A string with a terminator ends in front of it. -/
theorem Buffered.Terminated.split {s : Buffered} (h : s.Terminated) : ∃ more,
    s.szBufferStdOut.drop s.work = strAt s.szBufferStdOut s.work ++ nul :: more := by
  obtain ⟨t, more, ht, hn⟩ := List.eq_append_cons_of_mem h
  refine ⟨more, ?_⟩
  rw [strAt, ht, takeWhile_ne_append hn]

theorem Buffered.Terminated.lt {s : Buffered} (h : s.Terminated) :
    s.work + (strAt s.szBufferStdOut s.work).length < s.szBufferStdOut.length := by
  obtain ⟨more, hmore⟩ := h.split
  have hlen := congrArg List.length hmore
  simp only [List.length_drop, List.length_append, List.length_cons] at hlen
  omega

/-- The reload at the end of a long line leaves a terminator behind it, or is followed by no step
there, because the kept part is a column. -/
def Buffered.ReloadsInside (s : Buffered) : Prop :=
  s.fLob = true → '\n' ∈ strAt s.szBufferStdOut s.work →
    nul ∈ s.szBufferStdOut.drop (s.szLine.length + 1) ∨ s.startLine = 0 ∧
      ∀ h, handleLine s.core.shared.stBinLogSeq s.core.loc s.szLine = .ok h → h.column = true

theorem strAt_drop (mem : Text) (i : ℕ) : strAt (mem.drop i) 0 = strAt mem i := rfl

theorem ShortTails.behind {mem seg todo : Text} {i : ℕ} (h : ShortTails mem)
    (hi : iLenBufferOut ≤ i) (ht : strAt mem i = seg ++ '\n' :: todo) :
    todo.length < iLenBufferOut := by
  obtain ⟨more, hmore⟩ := List.takeWhile_prefix (p := (· ≠ nul)) (l := mem.drop i)
  change strAt mem i ++ more = mem.drop i at hmore
  rw [ht] at hmore
  have hsplit : mem = (mem.take i ++ seg) ++ '\n' :: (todo ++ more) := by
    have hmem := List.take_append_drop i mem
    rw [← hmore] at hmem
    simpa using hmem.symm
  have hlen : (mem.take i).length = i := by
    have hpos := congrArg List.length hmore
    simp only [List.length_append, List.length_cons, List.length_drop] at hpos
    rw [List.length_take]
    omega
  have hstr : strAt (todo ++ more) 0 = todo := by
    calc strAt (todo ++ more) 0 = strAt mem (i + (seg ++ ['\n']).length) := by
          rw [← strAt_drop mem, ← List.drop_drop, ← hmore]
          simp
      _ = todo := strAt_behind (by simpa using ht)
  rw [← hstr]
  apply h (mem.take i ++ seg) (todo ++ more) hsplit
  rw [List.length_append, hlen]
  omega

section LineFeed
variable {env : Env} {s s' : Buffered} {seg todo : Text}

/-- A line of which nothing is written yet: no copy is made. -/
theorem ScanBounds.after_line (h : ScanBounds env s) (hlob : s.fLob = false)
    (ht : strAt s.szBufferStdOut s.work = seg ++ '\n' :: todo)
    (hs : Buffered.lineFeed env { s with work := s.work + seg.length } = .ok s') :
    ScanBounds env s' ∧ s'.fLob = false := by
  obtain ⟨rest, pre, tail, hbuf, hstart, hwork, hnul, -⟩ := h.holds
  have htail : strAt tail 0 = seg ++ '\n' :: todo := by
    rw [← ht, ← strAt_drop s.szBufferStdOut, hbuf, hwork, ← List.append_assoc,
      ← List.length_append, List.drop_left]
  obtain ⟨more, hmore⟩ := List.takeWhile_prefix (p := (· ≠ nul)) (l := tail)
  have hsplit : tail = seg ++ '\n' :: (todo ++ more) := by
    rw [← hmore]
    change strAt tail 0 ++ more = _
    rw [htail, List.append_assoc, List.cons_append]
  have hline : nul ∉ rest ++ seg := by
    intro hm
    rcases List.mem_append.mp hm with hm | hm
    · exact hnul hm
    · apply nul_not_mem_strAt tail 0
      rw [htail]
      exact List.mem_append_left _ hm
  have hbuf' : s.szBufferStdOut = pre ++ ((rest ++ seg) ++ '\n' :: (todo ++ more)) := by
    rw [hbuf, hsplit]
    simp only [List.append_assoc]
  rw [lineFeed_plain env (s := { s with work := s.work + seg.length }) hbuf' hstart
    (by simp [hwork, Nat.add_assoc]) hline hlob] at hs
  obtain ⟨p, -, rfl⟩ := map_eq_ok_iff.mp hs
  have hlen : (pre ++ ((rest ++ seg) ++ nul :: (todo ++ more))).length = env.iMaxBufferLine := by
    rw [← h.block, hbuf']
    simp only [List.length_append, List.length_cons]
  refine ⟨⟨hlen, ?_, ⟨[], holds_nil ?_⟩, fun hl => ?_, fun hl => ?_⟩, hlob⟩
  · have hterm := h.terminated
    have hseg : nul ∉ seg := fun hm => hline (List.mem_append_right _ hm)
    rw [Buffered.Terminated, hbuf, hwork, ← List.append_assoc, ← List.length_append,
      List.drop_left, hsplit] at hterm
    simp only [List.mem_append, hseg, false_or, List.mem_cons] at hterm
    have hw : s.work + seg.length + 1 = (pre ++ ((rest ++ seg) ++ [nul])).length := by
      simp [hwork]
      omega
    rw [Buffered.Terminated, show pre ++ ((rest ++ seg) ++ nul :: (todo ++ more)) =
      (pre ++ ((rest ++ seg) ++ [nul])) ++ (todo ++ more) by simp, hw, List.drop_left]
    exact List.mem_append.mpr (hterm.resolve_left (by decide))
  · dsimp only
    simp only [List.length_append, List.length_cons]
    omega
  · exact absurd (hlob.symm.trans hl) Bool.false_ne_true
  · exact absurd (hlob.symm.trans hl) Bool.false_ne_true

section Reload
variable {n : ℕ} (hb : LobBounds env s n) (hblock : s.szBufferStdOut.length = env.iMaxBufferLine)
include hb hblock

/-- The kept part, with its terminator, takes the place of as many bytes of the block. -/
theorem LobBounds.length_reload :
    ((s.szLine ++ [nul]) ++ s.szBufferStdOut.drop (s.szLine.length + 1)).length =
      env.iMaxBufferLine := by
  have hbelow := hb.below
  simp only [List.length_append, List.length_singleton, List.length_drop]
  omega

theorem LobBounds.reload_tails :
    ShortTails ((s.szLine ++ [nul]) ++ s.szBufferStdOut.drop (s.szLine.length + 1)) := by
  have hline : '\n' ∉ s.szLine ++ [nul] := by
    simp only [List.mem_append, List.mem_singleton, not_or]
    exact ⟨hb.line.2, by decide⟩
  apply ShortTails.replace (w := s.szBufferStdOut.take (s.szLine.length + 1)) ?_ hline
  · have hbelow := hb.below
    simp only [List.length_append, List.length_singleton, List.length_take]
    omega
  · rw [List.take_append_drop]
    exact hb.tails

/-- The loop goes on behind the kept part, when a terminator stands there. -/
theorem LobBounds.behind_part {t : Buffered}
    (hbuf : t.szBufferStdOut = (s.szLine ++ [nul]) ++ s.szBufferStdOut.drop (s.szLine.length + 1))
    (hline : t.szLine = s.szLine) (hwork : t.work = s.szLine.length + 1)
    (hstart : t.startLine = t.work)
    (hbehind : nul ∈ s.szBufferStdOut.drop (s.szLine.length + 1)) :
    ScanBounds env t ∧ t.ReloadsInside := by
  have hlen := hb.length_reload hblock
  have htails := hb.reload_tails hblock
  have hlong := hb.long
  have hpart : (s.szLine ++ [nul]).length = s.szLine.length + 1 := by simp
  have hterm : t.Terminated := by
    rw [Buffered.Terminated, hbuf, hwork, List.drop_left' hpart]
    exact hbehind
  rw [← hbuf] at hlen htails
  refine ⟨⟨hlen, hterm, ⟨[], hstart ▸ holds_nil ?_⟩, fun _ => ?_, ?_⟩, fun _ _ => .inl ?_⟩
  · rw [hstart, hwork, hlen]
    exact hb.below
  · refine ⟨?_, htails, hline ▸ hlong, hline ▸ hb.below, hline ▸ hb.line, .inr ?_⟩
    · rw [hbuf, hwork, List.take_left' hpart, List.mem_append, not_or]
      exact ⟨hb.line.2, by decide⟩
    · rw [hstart, hwork, hline]
      exact Nat.lt_succ_self _
  · intro _ seg todo ht
    exact htails.behind (by omega) ht
  · rw [Buffered.Terminated, hwork, ← hline] at hterm
    exact hterm

end Reload

/-- The end of a long line: the text behind it fits into `szSavedLine`. -/
theorem ScanBounds.after_lob (henv : 4 * iLenBufferOut ≤ env.iMaxBufferLine) (h : ScanBounds env s)
    (hlob : s.fLob = true) (hinside : s.ReloadsInside)
    (ht : strAt s.szBufferStdOut s.work = seg ++ '\n' :: todo)
    (hs : Buffered.lineFeed env { s with work := s.work + seg.length } = .ok s') :
    ScanBounds env s' ∧ s'.ReloadsInside := by
  have hb := h.lob hlob
  have hsaved : strAt s.szBufferStdOut (s.work + seg.length + 1) = todo := by
    have hb := strAt_behind (s := seg ++ ['\n']) (t := todo) (by simpa using ht)
    rwa [List.length_append, List.length_singleton, ← Nat.add_assoc] at hb
  have htodo : todo.length < iLenBufferOut := h.saves hlob seg todo ht
  have hreload : poke (strcpy s.szBufferStdOut 0 s.szLine) s.szLine.length [nul] =
      (s.szLine ++ [nul]) ++ s.szBufferStdOut.drop (s.szLine.length + 1) := by
    rw [strcpy_zero, poke_append rfl]
    simp
  have hlen := hb.length_reload h.block
  simp only [Buffered.lineFeed, hlob, ↓reduceIte, hsaved, hreload, Bool.and_true] at hs
  obtain ⟨⟨core, column⟩, hend, he⟩ := bind_eq_ok_iff.mp hs
  cases column with
  | true =>
    cases he
    refine ⟨⟨?_, ?_, ⟨[], holds_nil (Nat.zero_le _)⟩, ?_, ?_⟩, ?_⟩
    · simp only [↓reduceIte, strcpy]
      rw [length_poke (Nat.zero_le _), hlen, List.length_append, List.length_singleton]
      omega
    · simp only [↓reduceIte]
      rw [strcpy_zero]
      exact terminated_of_eq (p := []) rfl rfl
    · exact fun hl => absurd hl Bool.false_ne_true
    · exact fun hl => absurd hl Bool.false_ne_true
    · exact fun hl => absurd hl Bool.false_ne_true
  | false =>
    cases he
    -- the kept part is no column, so a terminator stands behind it
    have hbehind : nul ∈ s.szBufferStdOut.drop (s.szLine.length + 1) := by
      refine (hinside hlob (ht ▸ by simp)).resolve_right ?_
      rintro ⟨hstart, hcolumn⟩
      rw [lineEnd_eq, hstart, List.append_assoc, List.singleton_append,
        strAt_zero_append hb.line.1] at hend
      obtain ⟨hh, hhandle, hcore⟩ := map_eq_ok_iff.mp hend
      have hfalse : hh.column = false := (Prod.mk.inj hcore).2
      rw [hcolumn hh hhandle] at hfalse
      cases hfalse
    exact hb.behind_part h.block (by simp only [Bool.false_eq_true, ↓reduceIte]) rfl rfl rfl hbehind

/-- A long line whose kept part is no column: the loop goes on behind that part. -/
theorem lineFeed_not_column (env : Env) {h : Handled} (hstart : s.startLine = 0)
    (hlob : s.fLob = true) (hline : nul ∉ s.szLine)
    (hhandle : handleLine s.core.shared.stBinLogSeq s.core.loc s.szLine = .ok h)
    (hcolumn : h.column = false) : ∃ s', s.lineFeed env = .ok s' ∧
      s'.work = s.szLine.length + 1 ∧
      s'.szBufferStdOut = s.szLine ++ nul :: s.szBufferStdOut.drop (s.szLine.length + 1) := by
  have hstr : strAt (s.szLine ++ nul :: s.szBufferStdOut.drop (s.szLine.length + 1)) 0 =
      s.szLine := strAt_zero_append hline _
  unfold Buffered.lineFeed
  simp only [hlob, hstart, ↓reduceIte, strcpy_zero, poke_nul, hstr, lineEnd_eq, hhandle, Except.map,
    ok_bind, hcolumn, Bool.false_and, Bool.false_eq_true]
  exact ⟨_, rfl, rfl, rfl⟩

end LineFeed

/-- The loop over the bytes stays in the buffer, and ends at the end of a string. -/
theorem scan_bounds {env : Env} (henv : 4 * iLenBufferOut ≤ env.iMaxBufferLine) :
    ∀ (fuel : ℕ) (s : Buffered), ScanBounds env s → s.ReloadsInside → s.ScansInside env fuel ∧
      ∀ s', s.scan env fuel = .ok s' →
        ScanBounds env s' ∧ strAt s'.szBufferStdOut s'.work = [] := by
  intro fuel
  induction fuel with
  | zero =>
    intro s _ _
    constructor
    · exact trivial
    · intro s' hs
      cases hs
  | succ fuel ih =>
    intro s h hinside
    obtain ⟨rest, hrest⟩ := h.holds
    have hholds := fun s' hs => (scan_steps env (fuel + 1) s s' rest hrest hs).2
    unfold Buffered.ScansInside
    cases hc : strchr '\n' (strAt s.szBufferStdOut s.work) with
    | none =>
      rw [scan_none h.terminated hc] at hholds ⊢
      refine ⟨⟨h.terminated, trivial⟩, fun s' hs => ?_⟩
      have hnl := strchr_eq_none_iff.mp hc
      have hend : strAt s.szBufferStdOut (s.work + (strAt s.szBufferStdOut s.work).length) = [] :=
        strAt_behind (List.append_nil _).symm
      obtain ⟨more, hmore⟩ := h.terminated.split
      have hcore := hholds s' hs
      cases hs
      refine ⟨⟨h.block, ?_, hcore, fun hl => ?_, ?_⟩, hend⟩
      · rw [Buffered.Terminated, ← List.drop_drop, hmore, List.drop_left]
        exact List.mem_cons_self
      · have hb := h.lob hl
        refine ⟨?_, hb.tails, hb.long, hb.below, hb.line, hb.start⟩
        rw [List.take_add, List.mem_append, not_or]
        refine ⟨hb.clean, fun hm => hnl ?_⟩
        rwa [hmore, List.take_left] at hm
      · intro _ seg todo ht
        rw [hend] at ht
        exact absurd ht (by simp)
    | some r =>
      obtain ⟨seg, todo⟩ := r
      obtain ⟨ht, -⟩ := strchr_eq_some hc
      rw [scan_some h.terminated hc]
      have hstep : ∀ s', Buffered.lineFeed env { s with work := s.work + seg.length } = .ok s' →
          ScanBounds env s' ∧ s'.ReloadsInside := by
        intro s' hs
        cases hlob : s.fLob with
        | false =>
          obtain ⟨hbounds, hlob'⟩ := h.after_line hlob ht hs
          exact ⟨hbounds, fun hl => absurd (hlob'.symm.trans hl) Bool.false_ne_true⟩
        | true => exact h.after_lob henv hlob hinside ht hs
      refine ⟨⟨h.terminated, fun hlob => ?_, fun s' hs => ?_⟩, fun s' hs => ?_⟩
      · have hb := strAt_behind (s := seg ++ ['\n']) (t := todo) (by simpa using ht)
        rw [List.length_append, List.length_singleton, ← Nat.add_assoc] at hb
        rw [hb]
        exact h.saves hlob seg todo ht
      · obtain ⟨hbounds, hinside'⟩ := hstep s' hs
        exact (ih s' hbounds hinside').1
      · obtain ⟨s₁, hs₁, hs⟩ := bind_eq_ok_iff.mp hs
        obtain ⟨hbounds, hinside'⟩ := hstep s₁ hs₁
        exact (ih s₁ hbounds hinside').2 s' hs

/-- A buffer full of one line has no line feed with a long string behind it. -/
theorem shortTails_of_full {env : Env} {s : Buffered} {rest : Text}
    (hblock : s.szBufferStdOut.length = env.iMaxBufferLine) (hrest : s.Holds s.work rest)
    (hfull : s.work + iLenBufferOut > env.iMaxBufferLine) (hsmall : s.startLine < iLenBufferOut) :
    ShortTails s.szBufferStdOut := by
  obtain ⟨pre, tail, hbuf, hstart, hwork, -, hnl⟩ := hrest
  intro a b hab ha
  have hlen : s.work ≤ a.length := by
    rw [hbuf, ← List.append_assoc] at hab
    rcases List.append_eq_append_iff.mp hab with ⟨a', rfl, -⟩ | ⟨c, hc, hb⟩
    · simp only [List.length_append]
      omega
    · cases c with
      | nil =>
        rw [List.append_nil] at hc
        rw [← hc, List.length_append, hwork]
      | cons x c =>
        rw [List.cons_append] at hb
        obtain ⟨rfl, -⟩ := List.cons.inj hb
        rcases List.append_eq_append_iff.mp hc with ⟨a', -, hr⟩ | ⟨c', hc', -⟩
        · exact absurd (hr ▸ List.mem_append_right a' List.mem_cons_self) hnl
        · have := congrArg List.length hc'
          rw [List.length_append] at this
          omega
  have htotal := congrArg List.length hab
  rw [hblock, List.length_append, List.length_cons] at htotal
  have hstr : (strAt b 0).length ≤ b.length := (List.takeWhile_prefix _).length_le
  omega

/-- The refill copies a line that fits into `szLine`, and leaves room for a read. -/
theorem refill_bounds {env : Env} (henv : 4 * iLenBufferOut ≤ env.iMaxBufferLine) {s : Buffered}
    (h : ScanBounds env s) (hend : strAt s.szBufferStdOut s.work = []) :
    (s.CopiesLine env → s.work - s.startLine < env.iMaxBufferLine) ∧
      ReadBounds env (s.refill env) := by
  obtain ⟨rest, hrest⟩ := h.holds
  obtain ⟨-, hholds⟩ := refill_steps hrest
  have hends := h.terminated.lt
  rw [hend, List.length_nil, h.block] at hends
  constructor
  · rintro ⟨-, hsmall, -⟩
    omega
  have hfullTails := shortTails_of_full h.block hrest
  obtain ⟨pre, tail, hbuf, hstart, hwork, hnul, hnl⟩ := hrest
  have hblock := h.block
  have htotal := congrArg List.length hbuf
  simp only [List.length_append] at htotal
  unfold Buffered.refill at hholds ⊢
  by_cases hfull : s.work + iLenBufferOut > env.iMaxBufferLine
  · rw [if_pos hfull] at hholds ⊢
    by_cases hsmall : s.startLine < iLenBufferOut
    · rw [if_pos hsmall] at hholds ⊢
      have htails := hfullTails hfull hsmall
      cases hdc : s.core.loc.bDataColumnInProgress with
      | true =>
        simp only [hdc, ↓reduceIte] at hholds ⊢
        have hentry : slice s.szBufferStdOut s.startLine s.work = rest := by
          rw [hbuf, hstart, hwork, slice_append]
        have hstr : strAt rest 0 = rest :=
          List.takeWhile_eq_self_iff.mpr fun c hc => by
            simpa using fun he : c = nul => hnul (he ▸ hc)
        refine ⟨hblock, ?_, hholds, fun _ => ⟨by simp, htails, ?_, ?_, ?_, .inl rfl⟩⟩
        · dsimp only
          omega
        · dsimp only
          rw [hentry, hstr]
          omega
        · dsimp only
          rw [hentry, hstr]
          omega
        · dsimp only
          rw [hentry, hstr]
          exact ⟨hnul, hnl⟩
      | false =>
        simp only [hdc, Bool.false_eq_true, ↓reduceIte] at hholds ⊢
        refine ⟨hblock, ?_, hholds, fun hl => ?_⟩
        · dsimp only
          omega
        · have hb := h.lob hl
          exact ⟨by simp, hb.tails, hb.long, hb.below, hb.line, .inl rfl⟩
    · rw [if_neg hsmall] at hholds ⊢
      have hstr : strAt s.szBufferStdOut s.startLine = rest := by
        have hall : ∀ c ∈ rest, decide (c ≠ nul) = true := fun c hc => by
          simpa using fun he : c = nul => hnul (he ▸ hc)
        have htail : tail.takeWhile (· ≠ nul) = [] := by
          rw [← hend, strAt, hbuf, hwork, ← List.append_assoc, ← List.length_append, List.drop_left]
        rw [strAt, hbuf, hstart, List.drop_left, List.takeWhile_append_of_pos hall, htail,
          List.append_nil]
      rw [hstr, strcpy_zero] at hholds ⊢
      refine ⟨?_, ?_, hholds, fun hl => ?_⟩
      · simp only [List.length_append, List.length_cons, List.length_drop]
        omega
      · dsimp only
        omega
      · have hb := h.lob hl
        refine ⟨?_, ?_, hb.long, hb.below, hb.line, .inl rfl⟩
        · dsimp only
          rw [List.take_left' (by omega)]
          exact hnl
        · have hu : '\n' ∉ rest ++ [nul] := by
            simp only [List.mem_append, List.mem_singleton, not_or]
            exact ⟨hnl, by decide⟩
          have htails := ShortTails.replace (u := rest ++ [nul])
            (w := s.szBufferStdOut.take (rest.length + 1))
            (v := s.szBufferStdOut.drop (rest.length + 1))
            (by rw [List.take_append_drop]; exact hb.tails) hu
            (by simp only [List.length_append, List.length_singleton, List.length_take]; omega)
          simpa using htails
  · rw [if_neg hfull] at hholds ⊢
    refine ⟨hblock, Nat.le_of_not_lt hfull, hholds, fun hl => ?_⟩
    have hb := h.lob hl
    exact ⟨hb.clean, hb.tails, hb.long, hb.below, hb.line, hb.start⟩

section Read
variable {env : Env} {s : Buffered} {chunk : Text}

/-- What the read leaves in the buffer. -/
theorem ReadBounds.got_eq (h : ReadBounds env s) (hchunk : nul ∉ chunk) :
    ∃ front tail, s.szBufferStdOut = front ++ tail ∧ front.length = s.bufferStart ∧
      (s.got chunk).szBufferStdOut = front ++ (chunk ++ nul :: tail.drop (chunk.length + 1)) ∧
      strAt (s.got chunk).szBufferStdOut s.bufferStart = chunk := by
  obtain ⟨rest, pre, tail, hbuf, hstart, hb, -⟩ := h.holds
  have hpoke : (s.got chunk).szBufferStdOut =
      (pre ++ rest) ++ (chunk ++ nul :: tail.drop (chunk.length + 1)) := by
    change poke s.szBufferStdOut s.bufferStart (chunk ++ [nul]) = _
    rw [hbuf, ← List.append_assoc, poke_append (by simp [hb])]
    simp
  refine ⟨pre ++ rest, tail, by rw [hbuf, List.append_assoc], by simp [hb], hpoke, ?_⟩
  rw [hpoke, strAt_append (by simp [hb]) hchunk]

/-- A read that is not a full one at the end of the buffer. -/
theorem got_bounds (h : ReadBounds env s)
    (hread : IsRead chunk) (hnul : s.bufferStart + chunk.length < env.iMaxBufferLine) :
    ScanBounds env (s.got chunk) := by
  obtain ⟨-, hlen, hchunk⟩ := hread
  obtain ⟨front, tail, hbuf, hfront, hgot, htext⟩ := h.got_eq hchunk
  obtain ⟨rest, pre, tail', hbuf', hstart, hb, hrnul, hrnl⟩ := h.holds
  have hblock := h.block
  have htotal := congrArg List.length hbuf
  simp only [List.length_append] at htotal
  have hsame : front = pre ++ rest ∧ tail = tail' := by
    rw [hbuf, ← List.append_assoc] at hbuf'
    exact List.append_inj hbuf' (by rw [hfront, hb, List.length_append])
  refine ⟨?_, terminated_of_eq hgot hfront.symm,
    ⟨rest, pre, chunk ++ nul :: tail.drop (chunk.length + 1), ?_, hstart, hb, hrnul, hrnl⟩,
    fun hl => ?_, fun _ seg todo ht => ?_⟩
  · change (poke s.szBufferStdOut s.bufferStart (chunk ++ [nul])).length = _
    rw [length_poke (by omega), List.length_append, List.length_singleton]
    omega
  · rw [hgot, hsame.1, List.append_assoc]
  · have hl := h.lob hl
    have hclean := hl.clean
    rw [hbuf, List.take_left' hfront] at hclean
    refine ⟨?_, ?_, hl.long, hl.below, hl.line, hl.start⟩
    · change '\n' ∉ (s.got chunk).szBufferStdOut.take s.bufferStart
      rw [hgot, List.take_left' hfront]
      exact hclean
    · rw [hgot]
      apply ShortTails.read (w := tail.take (chunk.length + 1)) ?_ hclean hchunk hlen
      · intro hv
        have := List.length_pos_of_ne_nil hv
        rw [List.length_drop] at this
        rw [List.length_take]
        omega
      · rw [List.take_append_drop, ← hbuf]
        exact hl.tails
  · change strAt (s.got chunk).szBufferStdOut s.bufferStart = _ at ht
    rw [htext] at ht
    rw [ht, List.length_append, List.length_cons] at hlen
    omega

theorem getBuffer_inBounds (h : ReadBounds env s) (hread : IsRead chunk)
    (hfull : ¬FullReadAtEnd env s chunk) : s.bufferStart + chunk.length < env.iMaxBufferLine := by
  have hroom := h.room
  have hlen := hread.2.1
  by_contra hge
  apply hfull
  constructor
  all_goals omega

/-- A terminator stands where the read ends. -/
theorem ReadBounds.nul_mem_got (h : ReadBounds env s) (hread : IsRead chunk) {n : ℕ}
    (hn : n ≤ s.bufferStart + chunk.length) : nul ∈ (s.got chunk).szBufferStdOut.drop n := by
  obtain ⟨front, tail, hbuf, hfront, hgot, -⟩ := h.got_eq hread.2.2
  rw [hgot, ← List.append_assoc, List.drop_append_of_le_length (by simpa [hfront] using hn)]
  exact List.mem_append_right _ List.mem_cons_self

/-- Behind its terminator the read changes nothing. -/
theorem ReadBounds.drop_got (h : ReadBounds env s) (hread : IsRead chunk) {n : ℕ}
    (hn : s.bufferStart + chunk.length ≤ n) :
    (s.got chunk).szBufferStdOut.drop (n + 1) = s.szBufferStdOut.drop (n + 1) := by
  obtain ⟨front, tail, hbuf, hfront, hgot, -⟩ := h.got_eq hread.2.2
  have hends : (front ++ chunk).length = s.bufferStart + chunk.length := by
    rw [List.length_append, hfront]
  have hsucc : n + 1 - (front ++ chunk).length = n - (s.bufferStart + chunk.length) + 1 := by
    omega
  rw [hgot, ← List.append_assoc]
  generalize front ++ chunk = written at hends hsucc
  rw [hbuf, List.drop_append, List.drop_append, List.drop_of_length_le (by omega),
    List.drop_of_length_le (show front.length ≤ n + 1 by omega), hsucc, List.drop_succ_cons,
    List.drop_drop, List.nil_append, List.nil_append]
  congr 1
  omega

/-- When the loop does not run behind a reloaded part, each reload leaves it in the buffer. -/
theorem ReadBounds.reloadsInside (h : ReadBounds env s) (hread : IsRead chunk)
    (hbehind : ¬RunsBehind s chunk) : (s.got chunk).ReloadsInside := by
  intro hlob hnl
  obtain ⟨front, tail, -, -, -, htext⟩ := h.got_eq hread.2.2
  change '\n' ∈ strAt (s.got chunk).szBufferStdOut s.bufferStart at hnl
  rw [htext] at hnl
  have hb := h.lob hlob
  by_cases hshort : s.bufferStart + chunk.length ≤ s.szLine.length
  · change nul ∈ (s.got chunk).szBufferStdOut.drop (s.szLine.length + 1) ∨ _
    rw [h.drop_got hread hshort]
    by_cases hnul : nul ∈ s.szBufferStdOut.drop (s.szLine.length + 1)
    · exact .inl hnul
    · obtain ⟨rest, pre, tail, -, hstart, hstop, -⟩ := h.holds
      refine .inr ⟨hb.start.resolve_right (by omega), fun hh hhandle => ?_⟩
      by_contra hcolumn
      exact hbehind ⟨hlob, hnl, ⟨hh, hhandle, Bool.eq_false_iff.mpr hcolumn⟩, hshort, hnul⟩
  · exact .inl (h.nul_mem_got hread (Nat.lt_of_not_le hshort))

/-- A loop that runs behind a reloaded part finds no terminator there. -/
theorem ReadBounds.not_scansInside (h : ReadBounds env s) (hread : IsRead chunk) {fuel : ℕ}
    (hbehind : RunsBehind s chunk) : ¬(s.got chunk).ScansInside env (fuel + 2) := by
  obtain ⟨hlob, hnl, ⟨hh, hhandle, hcolumn⟩, hshort, hnul⟩ := hbehind
  obtain ⟨front, tail, -, -, -, htext⟩ := h.got_eq hread.2.2
  have hb := h.lob hlob
  have hzero : s.startLine = 0 := by
    obtain ⟨rest, pre, tail, -, hstart, hstop, -⟩ := h.holds
    exact hb.start.resolve_right (by omega)
  obtain ⟨seg, todo, hstr⟩ : ∃ seg todo,
      strchr '\n' (strAt (s.got chunk).szBufferStdOut s.bufferStart) = some (seg, todo) := by
    obtain ⟨seg, todo, hchunk, hseg⟩ := List.eq_append_cons_of_mem hnl
    exact ⟨seg, todo, by rw [htext, hchunk, strchr_append hseg]⟩
  obtain ⟨s', hs', hwork, hbuf⟩ := lineFeed_not_column env
    (s := { s.got chunk with work := s.bufferStart + seg.length }) hzero hlob hb.line.1 hhandle
    hcolumn
  intro hscan
  rw [Buffered.ScansInside, show (s.got chunk).work = s.bufferStart from rfl, hstr] at hscan
  obtain ⟨hterm, -⟩ := hscan.2.2 s' hs'
  have hdrop : s'.szBufferStdOut.drop s'.work =
      (s.got chunk).szBufferStdOut.drop (s.szLine.length + 1) := by
    rw [hbuf, hwork, List.drop_append, List.drop_of_length_le (Nat.le_succ _)]
    simp [Buffered.got]
  rw [Buffered.Terminated, hdrop, h.drop_got hread hshort] at hterm
  exact hnul hterm

/-- A read stays in its buffers exactly when it is no full one at their end, and when the loop over
its bytes does not run behind a reloaded part. -/
theorem readInBounds_iff (henv : 4 * iLenBufferOut ≤ env.iMaxBufferLine) {fuel : ℕ}
    (hfuel : 1 < fuel) (h : ReadBounds env s) (hread : IsRead chunk) :
    ReadInBounds env fuel s chunk ↔ ¬FullReadAtEnd env s chunk ∧ ¬RunsBehind s chunk := by
  constructor
  · intro hin
    constructor
    · rintro ⟨hlen, hend⟩
      have hnul := hin.getBuffer
      omega
    · intro hbehind
      obtain ⟨fuel, rfl⟩ := Nat.exists_eq_add_of_le hfuel
      rw [Nat.add_comm] at hin
      exact h.not_scansInside hread hbehind hin.scan
  · rintro ⟨hfull, hbehind⟩
    have hnul := getBuffer_inBounds h hread hfull
    obtain ⟨hinside, hscan⟩ := scan_bounds henv fuel _ (got_bounds h hread hnul)
      (h.reloadsInside hread hbehind)
    exact ⟨hnul, hinside, fun s' hs => (refill_bounds henv (hscan s' hs).1 (hscan s' hs).2).1⟩

theorem read_bounds (henv : 4 * iLenBufferOut ≤ env.iMaxBufferLine) {fuel : ℕ}
    (h : ReadBounds env s) (hread : IsRead chunk) (hfull : ¬FullReadAtEnd env s chunk)
    (hbehind : ¬RunsBehind s chunk) : ∀ s', s.read env fuel chunk = .ok s' → ReadBounds env s' := by
  obtain ⟨-, hscan⟩ := scan_bounds henv fuel _
    (got_bounds h hread (getBuffer_inBounds h hread hfull)) (h.reloadsInside hread hbehind)
  intro s' hs
  obtain ⟨t, ht, rfl⟩ := map_eq_ok_iff.mp hs
  exact (refill_bounds henv (hscan t ht).1 (hscan t ht).2).2

end Read

theorem start_bounds {env : Env} (henv : 4 * iLenBufferOut ≤ env.iMaxBufferLine)
    (core : Listener) {mem : Text} (hmem : mem.length = env.iMaxBufferLine) :
    ReadBounds env (.start core mem) where
  block := hmem
  room := by
    change 0 + iLenBufferOut ≤ env.iMaxBufferLine
    omega
  holds := ⟨[], start_holds core mem⟩
  lob := fun hl => absurd hl Bool.false_ne_true

/-- What holds between the reads of a run that has stayed in its buffers. -/
theorem listen_bounds {env : Env} (henv : 4 * iLenBufferOut ≤ env.iMaxBufferLine) {fuel : ℕ}
    {s : Buffered} (h : ReadBounds env s) (chunks : List Text) : (∀ c ∈ chunks, IsRead c) →
    (∀ before chunk after t, chunks = before ++ chunk :: after →
      listen env fuel s before = .ok t → ¬FullReadAtEnd env t chunk ∧ ¬RunsBehind t chunk) →
    ∀ s', listen env fuel s chunks = .ok s' → ReadBounds env s' := by
  induction chunks using List.reverseRecOn with
  | nil =>
    intro _ _ s' hs
    cases hs
    exact h
  | append_singleton chunks c ih =>
    intro hreads hinside s' hs
    rw [listen_append] at hs
    obtain ⟨t, ht, hs⟩ := bind_eq_ok_iff.mp hs
    rw [listen_singleton] at hs
    have hbefore := ih (fun d hd => hreads d (List.mem_append_left _ hd))
      (fun before chunk after u hsplit =>
        hinside before chunk (after ++ [c]) u (by rw [hsplit]; simp))
      t ht
    obtain ⟨hfull, hbehind⟩ := hinside chunks c [] t rfl ht
    exact read_bounds henv hbefore (hreads c (by simp)) hfull hbehind s' hs

/-- The NULs, the copies and the strings stay in their buffers exactly in the runs in which no read
of 2048 bytes begins 2048 bytes before the end of the buffer, and no read ends a long line of which
the part in `szLine` is no column while no NUL stands behind that part's place in the buffer. -/
theorem inBounds_iff (env : Env) (henv : 4 * iLenBufferOut ≤ env.iMaxBufferLine)
    (core : Listener) (fuel : ℕ) (hfuel : 1 < fuel) (mem : Text)
    (hmem : mem.length = env.iMaxBufferLine) (chunks : List Text)
    (hreads : ∀ c ∈ chunks, IsRead c) :
    InBounds env fuel (.start core mem) chunks ↔
      ∀ before chunk after t, chunks = before ++ chunk :: after →
        listen env fuel (.start core mem) before = .ok t →
        ¬FullReadAtEnd env t chunk ∧ ¬RunsBehind t chunk := by
  have hstart := start_bounds henv core hmem
  constructor
  · intro h
    induction chunks using List.reverseRecOn with
    | nil =>
      intro before chunk after t hsplit
      simp at hsplit
    | append_singleton init last ih =>
      have hinit := ih (fun c hc => hreads c (List.mem_append_left _ hc))
        fun before chunk after t hsplit =>
          h before chunk (after ++ [last]) t (by rw [hsplit]; simp)
      intro before chunk after t hsplit ht
      rcases List.eq_nil_or_concat' after with rfl | ⟨after, x, rfl⟩
      · obtain ⟨rfl, hlast⟩ := List.append_inj' hsplit rfl
        obtain rfl : last = chunk := by simpa using hlast
        have hbefore := listen_bounds henv hstart init
          (fun c hc => hreads c (List.mem_append_left _ hc)) hinit t ht
        exact (readInBounds_iff henv hfuel hbefore (hreads last (by simp))).mp
          (h init last [] t rfl ht)
      · rw [← List.cons_append, ← List.append_assoc] at hsplit
        obtain ⟨rfl, -⟩ := List.append_inj' hsplit rfl
        exact hinit before chunk after t rfl ht
  · intro h before chunk after t hsplit ht
    have hbefore := listen_bounds henv hstart before
      (fun c hc => hreads c (by rw [hsplit]; exact List.mem_append_left _ hc))
      (fun b c a u hb => h b c (a ++ chunk :: after) u (by rw [hsplit, hb]; simp)) t ht
    exact (readInBounds_iff henv hfuel hbefore (hreads chunk (by rw [hsplit]; simp))).mpr
      (h before chunk after t hsplit ht)

theorem xs_block : (xs 8192).length = Env.small.iMaxBufferLine := by
  rw [length_xs]
  rfl

/-- A row whose value fills the buffer once, whatever the buffer held before. -/
theorem inBounds_filled :
    InBounds .small 2049 (.start (.initial .small) (xs 8192)) filledReads := by
  have hshort : ∀ c ∈ filledReads, c.length < iLenBufferOut := by
    have hx : (xs 2047).length < iLenBufferOut := by
      rw [length_xs]
      decide
    simp only [filledReads, List.forall_mem_append, List.forall_mem_cons]
    exact ⟨⟨by decide, fun c hc => List.eq_of_mem_replicate hc ▸ hx, hx, by simp⟩, by decide,
      by simp⟩
  refine (inBounds_iff .small (by decide) (.initial .small) 2049 (by decide) (xs 8192) xs_block
    filledReads filledReads_isRead).mpr ?_
  intro before chunk after t hsplit ht
  constructor
  · rintro ⟨hlen, -⟩
    exact absurd hlen (hshort chunk (by rw [hsplit]; simp)).ne
  · intro hbehind
    obtain ⟨hcol, hn, hdc⟩ := filledReads_ends hsplit ht hbehind.fLob hbehind.lineFeed
    obtain ⟨h, hh, hfalse⟩ := hbehind.dispatched
    rw [handleLine_column hn hdc hcol] at hh
    cases hh
    exact Bool.noConfusion hfalse

/-- The fourth of four full reads without a line feed writes its NUL behind a buffer of 8 KiB. -/
theorem not_inBounds_fourFullReads :
    ¬∀ (env : Env) (core : Listener) (fuel : ℕ) (mem : Text) (chunks : List Text),
      4 * iLenBufferOut ≤ env.iMaxBufferLine → mem.length = env.iMaxBufferLine →
      (∀ c ∈ chunks, IsRead c) → InBounds env fuel (.start core mem) chunks := by
  intro h
  obtain ⟨hnul, hnl⟩ := xs_clean 2048
  have hx : IsRead (xs 2048) := ⟨List.ne_nil_of_length_pos (by rw [length_xs]; decide),
    by rw [length_xs]; decide, hnul⟩
  have hin := h .small (.initial .small) 2049 (xs 8192) (List.replicate 4 (xs 2048)) (by decide)
    xs_block fun c hc => List.eq_of_mem_replicate hc ▸ hx
  obtain ⟨t, ht, hp, -⟩ := listen_room .small hnul hnl (show 0 < 2049 by decide) 3
    (show PartAt (.start (.initial .small) (xs 8192)) [] [] from ⟨⟨_, rfl⟩, rfl, rfl⟩)
    (by rw [length_xs]; decide)
  have hget := (hin (List.replicate 3 (xs 2048)) (xs 2048) [] t rfl ht).getBuffer
  rw [List.nil_append, xs_flatten] at hp
  rw [hp.2.2, length_xs, length_xs] at hget
  exact absurd hget (by decide)

end BinlogCapture
