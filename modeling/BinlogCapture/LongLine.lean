import BinlogCapture.Delivery

/-! Column lines longer than the line buffer: the part that fills the buffer is written to the
capture file and kept in `szLine`, which stands for the line when its end arrives. -/
namespace BinlogCapture
open CString Fallible LineFeed

/-- The flags and the position after a line. -/
def LineRecord.flags (r : LineRecord) : Bool × Bool × Bool × Bool × BinLogSequence :=
  (r.bStartOfStmt, r.bQueryInProgress, r.bDataColumnInProgress, r.fLob, r.inProgess)

def LineRecord.forget (r : LineRecord) : LineRecord := { r with line := [] }

/-- The listener up to the texts that its records show as dispatched. -/
def Listener.forget (s : Listener) : Listener :=
  { s with records := s.records.map LineRecord.forget }

section Forget
variable {env : Env} {s t : Listener}

theorem eq_of_forget_eq (h : s.forget = t.forget) :
    t = { s with records := t.records } ∧
      s.records.map LineRecord.forget = t.records.map LineRecord.forget := by
  cases s
  cases t
  simp only [Listener.forget, Listener.mk.injEq] at h
  obtain ⟨rfl, rfl, rfl, rfl, rfl, hr⟩ := h
  exact ⟨rfl, hr⟩

theorem loc_eq_of_forget_eq (h : s.forget = t.forget) : s.loc = t.loc := by
  have hloc : s.forget.loc = t.forget.loc := by rw [h]
  exact hloc

theorem writeLine_with_records (s : Listener) (rs : List LineRecord) (entry : Text) :
    Listener.writeLine env { s with records := rs } entry =
      { s.writeLine env entry with records := rs } := by
  have he : Listener.elapsed env { s with records := rs } = s.elapsed env := rfl
  have hr : Listener.rotates { s with records := rs } entry = s.rotates entry := rfl
  simp only [Listener.writeLine, he, hr]
  split_ifs <;> rfl

theorem refLine_forget (h : s.forget = t.forget) (line : Text) :
    Agree (fun a b => a.forget = b.forget) (refLine env s line) (refLine env t line) := by
  obtain ⟨ht, hrec⟩ := eq_of_forget_eq h
  rw [ht]
  simp only [refLine, lineEnd_eq, writeLine_with_records]
  cases handleLine s.shared.stBinLogSeq s.loc line with
  | error e => rfl
  | ok r =>
    simp only [Except.map, agree_ok, Listener.forget, List.map_append, hrec]
    rfl

theorem feed_forget (stream : Text) : ∀ (s t : Listener) (rest : Text), s.forget = t.forget →
    Agree (fun a b => a.1.forget = b.1.forget ∧ a.2 = b.2)
      (feed '\n' (refLine env) (s, rest) stream) (feed '\n' (refLine env) (t, rest) stream) := by
  induction stream with
  | nil => exact fun s t rest h => ⟨h, rfl⟩
  | cons a stream ih =>
    intro s t rest h
    simp only [feed]
    split_ifs
    · exact (refLine_forget h rest).bind fun s' t' h' => ih s' t' [] h'
    · exact ih s t _ h

end Forget

theorem refLine_nested {env : Env} {s s' : Listener} {line : Text} (hn : s.loc.Nested)
    (h : refLine env s line = .ok s') : s'.loc.Nested := by
  simp only [refLine, lineEnd_eq] at h
  obtain ⟨p, hp, rfl⟩ := map_eq_ok_iff.mp h
  obtain ⟨hh, hr, rfl⟩ := map_eq_ok_iff.mp hp
  exact handleLine_nested hn hr

theorem feed_nested {env : Env} {s s' : Listener} {rest rest' stream : Text} (hn : s.loc.Nested)
    (h : feed '\n' (refLine env) (s, rest) stream = .ok (s', rest')) : s'.loc.Nested := by
  rw [feed_eq_foldlM] at h
  obtain ⟨t, ht, he⟩ := map_eq_ok_iff.mp h
  rw [← (Prod.mk.inj he).1]
  exact foldlM_invariant (fun s : Listener => s.loc.Nested) (fun s a s' => refLine_nested)
    _ _ _ hn ht

theorem IsColumn.append {line : Text} (h : IsColumn line) (t : Text) : IsColumn (line ++ t) := by
  obtain ⟨r, hr⟩ := h.1
  constructor
  · exact h.1.trans (List.prefix_append line t)
  · have hlen : 7 ≤ line.length := by
      rw [← hr, List.length_append]
      exact Nat.le_add_right 7 _
    rw [List.drop_append_of_le_length hlen]
    exact List.mem_append_left _ h.2

/-- The end of a column line, seen by a listener that has already written its first part. -/
theorem lineEnd_column (env : Env) {s : Listener} {line : Text} (hn : s.loc.Nested)
    (hdc : s.loc.bDataColumnInProgress = true) (hl : IsColumn line) (entry : Text) (fLob : Bool) :
    s.lineEnd env entry line fLob =
      .ok ({ s.writeLine env entry with
        records := s.records ++ [lineRecord env s (s.writeLine env entry) entry line fLob
          ⟨s.loc, [], true⟩] }, true) := by
  rw [lineEnd_eq, handleLine_column hn hdc hl]
  simp only [Except.map, Shared.execAll_nil]
  rw [← loc_writeLine env s entry, ← shared_writeLine env s entry]

theorem lineRecord_writeLob (env : Env) (s s' : Listener) (frag tail line line' : Text)
    (loc : Locals) (ops : List SharedOp) :
    (lineRecord env (s.writeLob env frag) s' tail line true ⟨loc, ops, true⟩).forget =
      (lineRecord env s s' (frag ++ tail) line' false ⟨loc, ops, true⟩).forget := by
  simp only [LineRecord.forget, lineRecord, rotates_writeLob]
  rfl

/-- A line in two parts is recorded as the whole line is, but for the text dispatched. -/
theorem lineEnd_writeLob {env : Env} {s : Listener} {frag tail line line' : Text}
    (hn : s.loc.Nested) (hdc : s.loc.bDataColumnInProgress = true) (hl : IsColumn line)
    (hl' : IsColumn line') :
    ∃ c, (s.writeLob env frag).lineEnd env tail line true = .ok (c, true) ∧
      ∃ c', s.lineEnd env (frag ++ tail) line' false = .ok (c', true) ∧ c.forget = c'.forget := by
  have h := lineEnd_column env (s := s.writeLob env frag) hn hdc hl tail true
  have h' := lineEnd_column env hn hdc hl' (frag ++ tail) false
  refine ⟨_, h, _, h', ?_⟩
  rw [writeLine_writeLob]
  simp only [Listener.forget, List.map_append, List.map_cons, List.map_nil,
    lineRecord_writeLob env s _ frag tail line line']
  rfl

/-- Between two reads of a line whose first part is written: the buffer holds the next part. -/
structure ReadyLob (env : Env) (s : Buffered) (core : Listener) (rest : Text) : Prop where
  parts : ∃ frag part tail, rest = frag ++ part ∧ s.core = core.writeLob env frag ∧
    s.szBufferStdOut = part ++ tail ∧ s.bufferStart = part.length
  startLine_eq : s.startLine = 0
  fLob_eq : s.fLob = true
  room : s.bufferStart + iLenBufferOut ≤ env.iMaxBufferLine
  column : IsColumn rest
  open_ : core.loc.bDataColumnInProgress = true
  szLine_nul : nul ∉ s.szLine

theorem nul_not_mem_strAt (mem : Text) (i : ℕ) : nul ∉ strAt mem i := by
  intro h
  simpa using List.mem_takeWhile_imp h

/-- The listener between two reads against the unbounded one. -/
def Follows (env : Env) (s : Buffered) (ref : Listener) (rest : Text) : Prop :=
  ∃ core : Listener, core.forget = ref.forget ∧ core.loc.Nested ∧
    (Ready env s core rest ∨ ReadyLob env s core rest)

/-- An unfinished line that outgrows the buffer is a column of an open row. -/
def LongIsColumn (env : Env) (core : Listener) (rest : Text) : Prop :=
  env.iMaxBufferLine < rest.length + 2 * iLenBufferOut →
    IsColumn rest ∧ core.loc.bDataColumnInProgress = true

theorem refill_room {env : Env} {s : Buffered}
    (h : s.work + iLenBufferOut ≤ env.iMaxBufferLine) :
    s.refill env = { s with bufferStart := s.work } := by
  rw [Buffered.refill, if_neg (Nat.not_lt.mpr h)]

theorem refill_lob {env : Env} {s : Buffered} {pre part post : Text}
    (hfull : s.work + iLenBufferOut > env.iMaxBufferLine) (hsmall : s.startLine < iLenBufferOut)
    (hdc : s.core.loc.bDataColumnInProgress = true)
    (hbuf : s.szBufferStdOut = pre ++ (part ++ post)) (hstart : s.startLine = pre.length)
    (hwork : s.work = pre.length + part.length) :
    s.refill env = { s with
      core := s.core.writeLob env part
      szLine := strAt part 0
      fLob := true
      bufferStart := 0
      startLine := 0 } := by
  have hentry : slice s.szBufferStdOut s.startLine s.work = part := by
    rw [hbuf, hstart, hwork, slice_append]
  rw [Buffered.refill, if_pos hfull, if_pos hsmall, if_pos hdc]
  simp only [hentry]

theorem refill_any {env : Env} {s : Buffered} {core : Listener} {rest : Text}
    (henv : 4 * iLenBufferOut ≤ env.iMaxBufferLine) (h : LineAt s core rest [])
    (hrest : nul ∉ rest) (hwork : s.work ≤ env.iMaxBufferLine)
    (hlong : LongIsColumn env core rest) :
    Ready env (s.refill env) core rest ∨ ReadyLob env (s.refill env) core rest := by
  by_cases hshort : rest.length + 2 * iLenBufferOut ≤ env.iMaxBufferLine
  · exact .inl (refill_plain h hrest hwork hshort)
  obtain ⟨hcol, hdc⟩ := hlong (by omega)
  obtain ⟨rfl, ⟨pre, tail, hbuf, hstart, hw⟩, hlob⟩ := h
  rw [List.nil_append] at hbuf
  by_cases hfull : s.work + iLenBufferOut > env.iMaxBufferLine
  · by_cases hsmall : s.startLine < iLenBufferOut
    · rw [refill_lob hfull hsmall hdc hbuf hstart hw]
      refine .inr ⟨⟨rest, [], s.szBufferStdOut, by simp, rfl, rfl, rfl⟩, rfl, rfl, ?_, hcol, hdc,
        nul_not_mem_strAt _ _⟩
      show 0 + iLenBufferOut ≤ env.iMaxBufferLine
      omega
    · exact .inl (refill_move ⟨rfl, ⟨pre, tail, hbuf, hstart, hw⟩, hlob⟩ hrest hwork
        (Nat.le_of_not_lt hsmall) hfull)
  · rw [refill_room (Nat.le_of_not_lt hfull)]
    exact .inl ⟨rfl, ⟨pre, nul :: tail, hbuf, hstart, hw⟩, hlob, Nat.le_of_not_lt hfull⟩

/-- A read that brings no line feed only makes the unfinished line longer. -/
theorem read_part {env : Env} {fuel : ℕ} {s : Buffered} {pre part tail chunk : Text}
    (hbuf : s.szBufferStdOut = pre ++ (part ++ tail))
    (hb : s.bufferStart = pre.length + part.length) (hchunk : nul ∉ chunk) (hn : '\n' ∉ chunk)
    (hfuel : 0 < fuel) :
    s.read env fuel chunk = .ok (Buffered.refill env { s with
      szBufferStdOut := pre ++ ((part ++ chunk) ++ nul :: tail.drop (chunk.length + 1))
      work := s.bufferStart + chunk.length }) := by
  obtain ⟨fuel, rfl⟩ : ∃ n, fuel = n + 1 := ⟨fuel - 1, by omega⟩
  have hpoke : poke s.szBufferStdOut s.bufferStart (chunk ++ [nul]) =
      pre ++ ((part ++ chunk) ++ nul :: tail.drop (chunk.length + 1)) := by
    rw [hbuf, ← List.append_assoc, poke_append (by simp [hb])]
    simp
  have htext : strAt (pre ++ ((part ++ chunk) ++ nul :: tail.drop (chunk.length + 1)))
      s.bufferStart = chunk := by
    have h := strAt_append (p := pre ++ part) (i := s.bufferStart) (by simp [hb]) hchunk
      (tail.drop (chunk.length + 1))
    simpa using h
  rw [Buffered.read, hpoke, scan_none (terminated_of_eq (p := pre ++ part) (t := chunk)
    (u := tail.drop (chunk.length + 1)) (by simp) (by simp [hb]))
    (by rw [htext]; exact strchr_eq_none_iff.mpr hn)]
  simp only [htext, Except.map]

/-- A read that brings no line feed into a long line makes its part longer. -/
theorem read_lob_part {env : Env} {fuel : ℕ} {s : Buffered} {core : Listener} {rest chunk : Text}
    (h : ReadyLob env s core rest) (hchunk : nul ∉ chunk) (hn : '\n' ∉ chunk) (hfuel : 0 < fuel) :
    ∃ s', s.read env fuel chunk = .ok s' ∧ ReadyLob env s' core (rest ++ chunk) := by
  obtain ⟨⟨frag, part, tail, rfl, hcore, hbuf, hb⟩, hstart, hlob, hroom, hcol, hdc, hline⟩ := h
  have hdc' : s.core.loc.bDataColumnInProgress = true := by
    rw [hcore]
    exact hdc
  rw [@read_part _ _ _ [] part tail _ hbuf (by simp [hb]) hchunk hn hfuel]
  refine ⟨_, rfl, ?_⟩
  by_cases hfull : s.bufferStart + chunk.length + iLenBufferOut > env.iMaxBufferLine
  · have hwork : s.bufferStart + chunk.length = ([] : Text).length + (part ++ chunk).length := by
      simp [hb]
    rw [refill_lob (s := { s with
        szBufferStdOut := [] ++ ((part ++ chunk) ++ nul :: tail.drop (chunk.length + 1))
        work := s.bufferStart + chunk.length })
      hfull (by rw [hstart]; decide) hdc' rfl hstart hwork]
    refine ⟨⟨frag ++ (part ++ chunk), [], _, by simp, ?_, rfl, rfl⟩, rfl, rfl, ?_,
      hcol.append chunk, hdc, nul_not_mem_strAt _ _⟩
    · show s.core.writeLob env (part ++ chunk) = _
      rw [hcore, writeLob_writeLob]
    · show 0 + iLenBufferOut ≤ env.iMaxBufferLine
      omega
  · rw [refill_room (Nat.le_of_not_lt hfull)]
    exact ⟨⟨frag, part ++ chunk, nul :: tail.drop (chunk.length + 1), by simp, hcore, rfl,
      by simp [hb]⟩, hstart, hlob, Nat.le_of_not_lt hfull, hcol.append chunk, hdc, hline⟩

/-- The end of a long line: it is dispatched from `szLine`, and the text behind the line feed
comes back to the start of the buffer. -/
theorem lineFeed_lob {env : Env} {s : Buffered} {c : Listener} {line todo tail : Text}
    (hbuf : s.szBufferStdOut = line ++ '\n' :: (todo ++ nul :: tail)) (hstart : s.startLine = 0)
    (hwork : s.work = line.length) (hlob : s.fLob = true) (htodo : nul ∉ todo)
    (hszLine : nul ∉ s.szLine)
    (hend : s.core.lineEnd env (line ++ ['\n']) s.szLine true = .ok (c, true)) :
    ∃ mem, s.lineFeed env = .ok { s with
      core := c
      szBufferStdOut := todo ++ nul :: mem
      szSavedLine := todo
      work := 0
      startLine := 0
      fLob := false } := by
  have hentry : slice s.szBufferStdOut 0 (s.work + 1) = line ++ ['\n'] := by
    have h := slice_append [] (line ++ ['\n']) (todo ++ nul :: tail)
    simpa [hbuf, hwork] using h
  have hsaved : strAt s.szBufferStdOut (s.work + 1) = todo := by
    have h := strAt_append (p := line ++ ['\n']) rfl htodo tail
    simpa [hbuf, hwork] using h
  have hstr : strAt (s.szLine ++ nul :: s.szBufferStdOut.drop (s.szLine.length + 1)) 0 =
      s.szLine := strAt_zero_append hszLine _
  unfold Buffered.lineFeed
  simp only [hlob, hstart, hentry, hsaved, strcpy_zero, poke_nul, hstr, hend, ok_bind, ↓reduceIte,
    Bool.and_self, Bool.not_true, Bool.and_false]
  exact ⟨_, rfl⟩

/-- A read that ends a long line whose kept part still reads as a column. -/
theorem read_lob_line {env : Env} {fuel : ℕ} {s : Buffered} {core : Listener}
    {rest seg todo : Text} (h : ReadyLob env s core rest) (hn : core.loc.Nested)
    (hcol : IsColumn s.szLine)
    (hseg : '\n' ∉ seg) (hnul : nul ∉ seg ++ '\n' :: todo)
    (hlen : (seg ++ '\n' :: todo).length ≤ iLenBufferOut)
    (hfuel : (seg ++ '\n' :: todo).length < fuel) :
    ∃ c c', refLine env core (rest ++ seg) = .ok c' ∧ c.forget = c'.forget ∧
      Agree (fun p s' => LineAt s' p.1 p.2 [] ∧ s'.work ≤ env.iMaxBufferLine)
        (feed '\n' (refLine env) (c, []) todo)
        (Buffered.scan env fuel { s with
          szBufferStdOut := poke s.szBufferStdOut s.bufferStart (seg ++ '\n' :: todo ++ [nul])
          work := s.bufferStart }) := by
  obtain ⟨⟨frag, part, tail, rfl, hcore, hbuf, hb⟩, hstart, hlob, hroom, hrest, hdc, hline⟩ := h
  obtain ⟨fuel, rfl⟩ : ∃ n, fuel = n + 1 := ⟨fuel - 1, by omega⟩
  have hpoke : poke s.szBufferStdOut s.bufferStart (seg ++ '\n' :: todo ++ [nul]) =
      part ++ ((seg ++ '\n' :: todo) ++ nul :: tail.drop ((seg ++ '\n' :: todo).length + 1)) := by
    rw [hbuf, poke_append hb]
    simp [Nat.add_assoc]
  have htodo : nul ∉ todo := fun h => hnul (by simp [h])
  obtain ⟨c, hc, c', hc', hforget⟩ := lineEnd_writeLob
    hn hdc hcol (hrest.append seg)
  refine ⟨c, c', ?_, hforget, ?_⟩
  · have hentry : frag ++ (part ++ seg ++ ['\n']) = frag ++ part ++ seg ++ ['\n'] := by simp
    rw [refLine, ← hentry, hc']
    rfl
  · have htext := strAt_append hb hnul (tail.drop ((seg ++ '\n' :: todo).length + 1))
    rw [hpoke, scan_some (r := (seg, todo)) (terminated_of_eq rfl hb)
      (by rw [htext, strchr_append hseg])]
    obtain ⟨mem, hmem⟩ := lineFeed_lob (c := c) (s := { s with
        szBufferStdOut :=
          part ++ ((seg ++ '\n' :: todo) ++ nul :: tail.drop ((seg ++ '\n' :: todo).length + 1))
        work := s.bufferStart + seg.length })
      (show _ = (part ++ seg) ++ '\n' :: (todo ++ nul ::
        tail.drop ((seg ++ '\n' :: todo).length + 1)) by simp)
      hstart (by simp [hb]) hlob htodo hline (by rw [hcore]; exact hc)
    rw [hmem, ok_bind]
    have hrun := scan_plain env fuel { s with
        core := c
        szBufferStdOut := todo ++ nul :: mem
        szSavedLine := todo
        work := 0
        startLine := 0
        fLob := false } [] [] todo mem rfl rfl rfl (by simp) htodo rfl
      (by simp only [List.length_append, List.length_cons] at hfuel; omega)
    refine hrun.mono fun p s' h' => ⟨h'.1, ?_⟩
    have hw := h'.2
    simp only [List.length_append, List.length_cons] at hlen
    dsimp only at hw
    omega

/-- One read: the listener follows the unbounded one if the line that the read ends, when a part
of it is written already, is still seen as a column. -/
theorem read_follows {env : Env} {fuel : ℕ} {s : Buffered} {ref : Listener} {rest chunk : Text}
    (henv : 4 * iLenBufferOut ≤ env.iMaxBufferLine) (h : Follows env s ref rest)
    (hrest : nul ∉ rest) (hread : IsRead chunk) (hfuel : iLenBufferOut < fuel)
    (hlong : ∀ p, feed '\n' (refLine env) (ref, rest) chunk = .ok p → LongIsColumn env p.1 p.2)
    (htail : s.fLob = true → '\n' ∈ chunk → IsColumn s.szLine) :
    Agree (fun p s' => Follows env s' p.1 p.2) (feed '\n' (refLine env) (ref, rest) chunk)
      (s.read env fuel chunk) := by
  obtain ⟨core, hforget, hn, hready⟩ := h
  obtain ⟨-, hlen, hchunk⟩ := hread
  -- A scan that keeps to the buffer is followed by a refill, whatever the line is by then.
  have hrefill : ∀ (c : Listener) (p part todo : Text) (x : Except Fault Buffered) (cr : Listener),
      c.forget = cr.forget → c.loc.Nested → nul ∉ part → nul ∉ todo →
      (∀ p, feed '\n' (refLine env) (cr, part) todo = .ok p → LongIsColumn env p.1 p.2) →
      Agree (fun p s' => LineAt s' p.1 p.2 [] ∧ s'.work ≤ env.iMaxBufferLine)
        (feed '\n' (refLine env) (c, part) todo) x →
      Agree (fun p s' => Follows env s' p.1 p.2) (feed '\n' (refLine env) (cr, part) todo)
        (x.map (Buffered.refill env)) := by
    intro c p part todo x cr hcr hc hpart htodo hcols hscan
    have hlink := ((feed_forget todo cr c part hcr.symm).and_left hcols).trans
      (hscan.and_left (P := fun p => p.1.loc.Nested ∧ nul ∉ p.2) fun p hp =>
        ⟨feed_nested hc hp, by
          rw [feed_rest '\n' _ hp]
          intro hm
          simpa [hpart, htodo] using mem_of_mem_split_rest '\n' hm⟩)
    refine hlink.map_right ?_
    rintro p s' ⟨q, ⟨⟨hfq, hpq⟩, hcolq⟩, ⟨hline, hw⟩, hnq, hnulq⟩
    refine ⟨q.1, hfq.symm, hnq, ?_⟩
    rw [hpq]
    refine refill_any henv hline hnulq hw ?_
    intro hq
    rw [← loc_eq_of_forget_eq hfq, ← hpq]
    exact hcolq (by rw [hpq]; exact hq)
  rcases hready with hready | hready
  · exact hrefill core rest rest chunk _ ref hforget hn hrest hchunk hlong
      (scan_of_ready hready hrest hchunk hlen (by omega))
  · cases hc : strchr '\n' chunk with
    | none =>
      have hnl := strchr_eq_none_iff.mp hc
      obtain ⟨s', hs', hlob⟩ := read_lob_part hready hchunk hnl (show 0 < fuel by omega)
      rw [feed_of_not_mem _ _ hnl, hs']
      exact ⟨core, hforget, hn, .inr hlob⟩
    | some r =>
      obtain ⟨seg, todo⟩ := r
      obtain ⟨rfl, hseg⟩ := strchr_eq_some hc
      obtain ⟨c, c', hc', hf, hscan⟩ := read_lob_line hready hn
        (htail hready.fLob_eq (by simp)) hseg hchunk hlen
        (show (seg ++ '\n' :: todo).length < fuel by omega)
      obtain ⟨cr, hcr, hfr⟩ := (show Agree _ (.ok c') _ from
        hc' ▸ refLine_forget hforget (rest ++ seg)).of_ok_left
      have hloc : c.loc.Nested := by
        rw [loc_eq_of_forget_eq hf]
        exact refLine_nested hn hc'
      rw [feed_line _ _ hseg, hcr, ok_bind] at hlong ⊢
      exact hrefill c rest [] todo _ cr (hf.trans hfr) hloc (by simp)
        (fun hm => hchunk (by simp [hm])) hlong hscan

end BinlogCapture
