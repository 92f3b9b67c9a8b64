import BinlogCapture.ListenerRun

/-! The line buffer while no line is longer than it holds: whatever the reads are, the buffer
holds the unfinished line, and the listener does what the unbounded one does. -/
namespace BinlogCapture
open CString Fallible LineFeed

/-- Work stands after `rest`, the unfinished line, in a buffer whose text ends there. -/
structure LineAt (s : Buffered) (core : Listener) (rest : Text) (follow : Text) : Prop where
  core_eq : s.core = core
  buffer : ∃ pre tail, s.szBufferStdOut = pre ++ (rest ++ (follow ++ nul :: tail)) ∧
    s.startLine = pre.length ∧ s.work = pre.length + rest.length
  fLob_eq : s.fLob = false

theorem lineFeed_plain (env : Env) {s : Buffered} {pre line post : Text}
    (hbuf : s.szBufferStdOut = pre ++ (line ++ '\n' :: post)) (hstart : s.startLine = pre.length)
    (hwork : s.work = pre.length + line.length) (hline : nul ∉ line) (hlob : s.fLob = false) :
    s.lineFeed env = (s.core.lineEnd env (line ++ ['\n']) line false).map fun p =>
      { s with
        core := p.1
        szBufferStdOut := pre ++ (line ++ nul :: post)
        work := s.work + 1
        startLine := s.work + 1 } := by
  have hentry : slice s.szBufferStdOut s.startLine (s.work + 1) = line ++ ['\n'] := by
    have h := slice_append pre (line ++ ['\n']) post
    simp only [List.append_assoc, List.singleton_append, List.length_append,
      List.length_singleton] at h
    rw [hbuf, hstart, hwork, Nat.add_assoc, h]
  have hpoke : poke s.szBufferStdOut s.work [nul] = pre ++ (line ++ nul :: post) := by
    rw [hbuf, hwork, ← List.append_assoc, poke_append (by simp)]
    simp
  have hstr : strAt (pre ++ (line ++ nul :: post)) s.startLine = line :=
    strAt_append hstart hline post
  simp only [Buffered.lineFeed, hlob, hentry, hpoke, hstr, Bool.false_eq_true, ↓reduceIte,
    Bool.and_false, Bool.false_and]
  cases s.core.lineEnd env (line ++ ['\n']) line false with
  | error e => rfl
  | ok p => rfl

theorem scan_plain (env : Env) : ∀ (fuel : ℕ) (s : Buffered) (pre part todo tail : Text),
    s.szBufferStdOut = pre ++ (part ++ (todo ++ nul :: tail)) → s.startLine = pre.length →
    s.work = pre.length + part.length → nul ∉ part → nul ∉ todo → s.fLob = false →
    todo.length < fuel →
    Agree (fun p s' => LineAt s' p.1 p.2 [] ∧ s'.work = s.work + todo.length)
      (feed '\n' (refLine env) (s.core, part) todo) (s.scan env fuel) := by
  intro fuel
  induction fuel with
  | zero => exact fun _ _ _ _ _ _ _ _ _ _ _ h => absurd h (Nat.not_lt_zero _)
  | succ fuel ih =>
    intro s pre part todo tail hbuf hstart hwork hpart htodo hlob hfuel
    have htext : strAt s.szBufferStdOut s.work = todo := by
      rw [hbuf, ← List.append_assoc, strAt_append (by rw [hwork]; simp) htodo]
    have hterm : s.Terminated := by
      apply terminated_of_eq (p := pre ++ part) (t := todo) (u := tail)
      · rw [hbuf, List.append_assoc]
      · rw [hwork, List.length_append]
    cases hc : strchr '\n' todo with
    | none =>
      have hn : '\n' ∉ todo := strchr_eq_none_iff.mp hc
      rw [feed_of_not_mem _ _ hn, scan_none hterm (htext ▸ hc), htext]
      refine agree_ok.mpr ⟨⟨rfl, ⟨pre, tail, ?_, hstart, ?_⟩, hlob⟩, rfl⟩
      · simp [hbuf]
      · simp [hwork, Nat.add_assoc]
    | some r =>
      obtain ⟨seg, todo'⟩ := r
      obtain ⟨rfl, hn⟩ := strchr_eq_some hc
      simp only [List.mem_append, List.mem_cons, not_or] at htodo
      have hline : nul ∉ part ++ seg := by simp [hpart, htodo.1]
      have hstep := lineFeed_plain env (s := { s with work := s.work + seg.length })
        (show s.szBufferStdOut = pre ++ ((part ++ seg) ++ '\n' :: (todo' ++ nul :: tail)) by
          simp [hbuf]) hstart (by simp [hwork, Nat.add_assoc]) hline hlob
      rw [feed_line _ _ hn, scan_some hterm (htext ▸ hc)]
      simp only [hstep, refLine]
      cases s.core.lineEnd env (part ++ seg ++ ['\n']) (part ++ seg) false with
      | error e => rfl
      | ok p =>
        have hrun := ih { s with
            core := p.1
            work := s.work + seg.length + 1
            szBufferStdOut := pre ++ ((part ++ seg) ++ nul :: (todo' ++ nul :: tail))
            startLine := s.work + seg.length + 1 }
          (pre ++ ((part ++ seg) ++ [nul])) [] todo' tail (by simp)
          (by simp [hwork]; omega) (by simp [hwork]; omega) (by simp) htodo.2.2 hlob
          (by simp only [List.length_append, List.length_cons] at hfuel; omega)
        refine hrun.mono fun q s' h => ⟨h.1, ?_⟩
        rw [h.2]
        simp only [List.length_append, List.length_cons]
        omega

/-- Between two reads: the next read goes behind the unfinished line, with room for it. -/
structure Ready (env : Env) (s : Buffered) (core : Listener) (rest : Text) : Prop where
  core_eq : s.core = core
  buffer : ∃ pre tail, s.szBufferStdOut = pre ++ (rest ++ tail) ∧ s.startLine = pre.length ∧
    s.bufferStart = pre.length + rest.length
  fLob_eq : s.fLob = false
  room : s.bufferStart + iLenBufferOut ≤ env.iMaxBufferLine

theorem ready_start {env : Env} (core : Listener) (mem : Text)
    (henv : iLenBufferOut ≤ env.iMaxBufferLine) : Ready env (.start core mem) core [] :=
  ⟨rfl, ⟨[], mem, rfl, rfl, rfl⟩, rfl, by simpa [Buffered.start] using henv⟩

/-- The unfinished line moves to the start of the buffer. -/
theorem refill_move {env : Env} {s : Buffered} {core : Listener} {rest : Text}
    (h : LineAt s core rest []) (hrest : nul ∉ rest) (hwork : s.work ≤ env.iMaxBufferLine)
    (hlarge : iLenBufferOut ≤ s.startLine)
    (hfull : s.work + iLenBufferOut > env.iMaxBufferLine) : Ready env (s.refill env) core rest := by
  obtain ⟨hcore, ⟨pre, tail, hbuf, hstart, hw⟩, hlob⟩ := h
  rw [List.nil_append] at hbuf
  have hstr : strAt s.szBufferStdOut s.startLine = rest := by
    rw [hbuf, strAt_append hstart hrest]
  rw [Buffered.refill, if_pos hfull, if_neg (Nat.not_lt.mpr hlarge)]
  refine ⟨hcore, ⟨[], nul :: s.szBufferStdOut.drop (rest.length + 1), ?_, rfl, ?_⟩, hlob, ?_⟩
  · rw [hstr, strcpy_zero]
    rfl
  · simp [hw, hstart]
  · show s.work - s.startLine + iLenBufferOut ≤ env.iMaxBufferLine
    omega

/-- A refill that does not find the buffer full of one line leaves room for the next read. -/
theorem refill_plain {env : Env} {s : Buffered} {core : Listener} {rest : Text}
    (h : LineAt s core rest []) (hrest : nul ∉ rest) (hwork : s.work ≤ env.iMaxBufferLine)
    (hshort : rest.length + 2 * iLenBufferOut ≤ env.iMaxBufferLine) :
    Ready env (s.refill env) core rest := by
  obtain ⟨pre, tail, hbuf, hstart, hw⟩ := h.buffer
  by_cases hfull : s.work + iLenBufferOut > env.iMaxBufferLine
  · exact refill_move h hrest hwork (by omega) hfull
  · rw [Buffered.refill, if_neg hfull]
    exact ⟨h.core_eq, ⟨pre, nul :: tail, hbuf, hstart, hw⟩, h.fLob_eq, Nat.le_of_not_lt hfull⟩

/-- What the scan of one read leaves, before the refill. -/
theorem scan_of_ready {env : Env} {fuel : ℕ} {s : Buffered} {core : Listener} {rest chunk : Text}
    (h : Ready env s core rest) (hrest : nul ∉ rest) (hchunk : nul ∉ chunk)
    (hlen : chunk.length ≤ iLenBufferOut) (hfuel : chunk.length < fuel) :
    Agree (fun p s' => LineAt s' p.1 p.2 [] ∧ s'.work ≤ env.iMaxBufferLine)
      (feed '\n' (refLine env) (core, rest) chunk)
      (Buffered.scan env fuel { s with
        szBufferStdOut := poke s.szBufferStdOut s.bufferStart (chunk ++ [nul])
        work := s.bufferStart }) := by
  obtain ⟨rfl, ⟨pre, tail, hbuf, hstart, hb⟩, hlob, hroom⟩ := h
  refine (scan_plain env fuel { s with
      szBufferStdOut := poke s.szBufferStdOut s.bufferStart (chunk ++ [nul])
      work := s.bufferStart } pre rest chunk (tail.drop (chunk.length + 1)) ?_ hstart hb hrest
    hchunk hlob hfuel).mono fun p s' h' => ⟨h'.1, ?_⟩
  · show poke s.szBufferStdOut s.bufferStart (chunk ++ [nul]) = _
    rw [hbuf, ← List.append_assoc, poke_append (by simp [hb])]
    simp
  · have := h'.2
    simp only at this
    omega

/-- One read of a stream whose unfinished line stays short. -/
theorem read_plain {env : Env} {fuel : ℕ} {s : Buffered} {core : Listener} {rest chunk : Text}
    (h : Ready env s core rest) (hrest : nul ∉ rest) (hchunk : nul ∉ chunk)
    (hlen : chunk.length ≤ iLenBufferOut) (hfuel : chunk.length < fuel)
    (hshort : (split '\n' rest chunk).2.length + 2 * iLenBufferOut ≤ env.iMaxBufferLine) :
    Agree (fun p s' => Ready env s' p.1 p.2) (feed '\n' (refLine env) (core, rest) chunk)
      (s.read env fuel chunk) := by
  have hscan := (scan_of_ready h hrest hchunk hlen hfuel).and_left
    (P := fun p => p.2 = (split '\n' rest chunk).2) fun p hp => feed_rest '\n' _ hp
  refine hscan.map_right fun p s' h' => ?_
  have hp : nul ∉ p.2 := by
    rw [h'.2]
    intro hmem
    simpa [hrest, hchunk] using mem_of_mem_split_rest '\n' hmem
  exact refill_plain h'.1.1 hp h'.1.2 (by rw [h'.2]; exact hshort)

/-- Every unfinished line met in the stream leaves two reads' room in the buffer. -/
def ShortLines (env : Env) (stream : Text) : Prop :=
  ∀ t, t <+: stream → (split '\n' [] t).2.length + 2 * iLenBufferOut ≤ env.iMaxBufferLine

/-- The reads a pipe may deliver: 1 to 2048 bytes, none of them NUL. -/
def IsRead (chunk : Text) : Prop := chunk ≠ [] ∧ chunk.length ≤ iLenBufferOut ∧ nul ∉ chunk

/-- Over any reads of a stream of short lines, the listener is the unbounded listener. -/
theorem listen_plain {env : Env} {fuel : ℕ} (hfuel : iLenBufferOut < fuel) :
    ∀ (chunks : List Text) (s : Buffered) (core : Listener) (past rest : Text),
      (∀ c ∈ chunks, IsRead c) → rest = (split '\n' [] past).2 → nul ∉ past →
      ShortLines env (past ++ chunks.flatten) → Ready env s core rest →
      Agree (fun p s' => Ready env s' p.1 p.2)
        (feed '\n' (refLine env) (core, rest) chunks.flatten) (listen env fuel s chunks) := by
  intro chunks
  induction chunks with
  | nil => exact fun s core past rest _ _ _ _ h => h
  | cons c cs ih =>
    intro s core past rest hreads hrest hpast hshort h
    obtain ⟨-, hlen, hnul⟩ := hreads c (by simp)
    have hr : nul ∉ rest := by
      rw [hrest]
      intro hmem
      exact hpast (by simpa using mem_of_mem_split_rest '\n' hmem)
    have hsplit : (split '\n' rest c).2 = (split '\n' [] (past ++ c)).2 := by
      rw [split_append, hrest]
    have hc := read_plain h hr hnul hlen (show c.length < fuel by omega)
      (by rw [hsplit]; exact hshort (past ++ c) ⟨cs.flatten, by simp⟩)
    rw [List.flatten_cons, feed_append, listen, List.foldlM_cons]
    refine (hc.and_left (P := fun p => p.2 = (split '\n' rest c).2) fun p hp =>
      feed_rest '\n' _ hp).bind fun p s' h' => ?_
    exact ih s' p.1 (past ++ c) p.2 (fun d hd => hreads d (by simp [hd]))
      (by rw [h'.2, hsplit]) (by simp [hpast, hnul]) (by simpa using hshort) h'.1

end BinlogCapture
