import BinlogCapture.BufferBounds
import BinlogCapture.PrintedText

/-! The line of a `QUERY` event in the line buffer: where it begins, what is read of it at a time,
and whether it is still whole when its line feed arrives. -/
namespace BinlogCapture
open CString Fallible LineFeed

/-- The listener from a point of its loop over the bytes up to the first line feed that it
handles: the rest of the bytes, the refill, and the reads that follow. -/
def Buffered.nextLine (env : Env) : List Text → Buffered → Option (Except Fault Buffered)
  | chunks, s =>
    if s.Terminated then
      let t := strAt s.szBufferStdOut s.work
      match strchr '\n' t with
      | some (seg, _) => some (Buffered.lineFeed env { s with work := s.work + seg.length })
      | none =>
        match chunks with
        | [] => none
        | chunk :: chunks =>
          Buffered.nextLine env chunks
            ((Buffered.refill env { s with work := s.work + t.length }).got chunk)
    else some (.error .overrun)

/-- The rest of the loop over the bytes, and the reads that follow. -/
def Buffered.resume (env : Env) (fuel : ℕ) (s : Buffered) (chunks : List Text) :
    Except Fault Buffered :=
  (s.scan env fuel).map (Buffered.refill env) >>= fun s' => listen env fuel s' chunks

section Step
variable {env : Env} {s : Buffered} {chunks : List Text}

theorem nextLine_some {r : Text × Text} (h : s.Terminated)
    (hr : strchr '\n' (strAt s.szBufferStdOut s.work) = some r) :
    s.nextLine env chunks =
      some (Buffered.lineFeed env { s with work := s.work + r.1.length }) := by
  unfold Buffered.nextLine
  simp only [if_pos h, hr]

theorem nextLine_nil (h : s.Terminated) (hr : strchr '\n' (strAt s.szBufferStdOut s.work) = none) :
    s.nextLine env [] = none := by
  unfold Buffered.nextLine
  simp only [if_pos h, hr]

theorem nextLine_cons {chunk : Text} (h : s.Terminated)
    (hr : strchr '\n' (strAt s.szBufferStdOut s.work) = none) :
    s.nextLine env (chunk :: chunks) = Buffered.nextLine env chunks ((Buffered.refill env
      { s with work := s.work + (strAt s.szBufferStdOut s.work).length }).got chunk) := by
  rw [Buffered.nextLine]
  simp only [if_pos h, hr]

theorem nextLine_overrun (h : ¬s.Terminated) :
    s.nextLine env chunks = some (.error .overrun) := by
  unfold Buffered.nextLine
  rw [if_neg h]

end Step

/-- The listener goes on from the first line feed that it handles. -/
theorem resume_nextLine (env : Env) (fuel : ℕ) {x : Except Fault Buffered} (chunks : List Text) :
    ∀ s : Buffered, s.nextLine env chunks = some x →
      ∃ before after, chunks = before ++ after ∧
        s.resume env (fuel + 1) chunks = x >>= fun s' =>
          (s'.scan env fuel).map (Buffered.refill env) >>= fun s'' =>
            listen env (fuel + 1) s'' after := by
  have hfound : ∀ (s : Buffered) (chunks : List Text), s.Terminated →
      ∀ r, strchr '\n' (strAt s.szBufferStdOut s.work) = some r → s.nextLine env chunks = some x →
      s.resume env (fuel + 1) chunks = x >>= fun s' =>
        (s'.scan env fuel).map (Buffered.refill env) >>= fun s'' =>
          listen env (fuel + 1) s'' chunks := by
    intro s chunks hterm r hr h
    rw [nextLine_some hterm hr, Option.some.injEq] at h
    rw [← h, Buffered.resume, scan_some hterm hr]
    cases Buffered.lineFeed env { s with work := s.work + r.1.length } <;> rfl
  have hover : ∀ (s : Buffered) (chunks : List Text), ¬s.Terminated →
      s.nextLine env chunks = some x →
      s.resume env (fuel + 1) chunks = x >>= fun s' =>
        (s'.scan env fuel).map (Buffered.refill env) >>= fun s'' =>
          listen env (fuel + 1) s'' chunks := by
    intro s chunks hterm h
    rw [nextLine_overrun hterm, Option.some.injEq] at h
    rw [← h, Buffered.resume, scan_overrun hterm]
    rfl
  induction chunks with
  | nil =>
    intro s h
    refine ⟨[], [], rfl, ?_⟩
    by_cases hterm : s.Terminated
    · cases hc : strchr '\n' (strAt s.szBufferStdOut s.work) with
      | none => exact absurd (nextLine_nil hterm hc ▸ h) (by simp)
      | some r => exact hfound s [] hterm r hc h
    · exact hover s [] hterm h
  | cons chunk chunks ih =>
    intro s h
    by_cases hterm : s.Terminated
    · cases hc : strchr '\n' (strAt s.szBufferStdOut s.work) with
      | none =>
        rw [nextLine_cons hterm hc] at h
        obtain ⟨before, after, rfl, hrun⟩ := ih _ h
        refine ⟨chunk :: before, after, rfl, ?_⟩
        rw [← hrun, Buffered.resume, scan_none hterm hc]
        rfl
      | some r => exact ⟨[], chunk :: chunks, rfl, hfound s _ hterm r hc h⟩
    · exact ⟨[], chunk :: chunks, rfl, hover s _ hterm h⟩

/-- The listener stands at the start of the line of a `QUERY` marker, with `t` still to be looked
at of the last read. The line `# at` of the event has closed the row before it. -/
structure AtLineStart (env : Env) (s : Buffered) (t : Text) : Prop where
  buffer : ∃ pre tail, s.szBufferStdOut = pre ++ (t ++ nul :: tail) ∧ s.startLine = pre.length ∧
    s.work = pre.length
  clean : nul ∉ t
  ends : s.work + t.length ≤ env.iMaxBufferLine
  closed : s.core.loc.bDataColumnInProgress = false

/-- The first line that the listener dispatches is the whole line; it is written, and its position
is the one in progress and is saved. -/
def CapturedWhole (env : Env) (s : Buffered) (chunks : List Text) (line : Text) (logPos : ℕ) :
    Prop :=
  ∃ s' r, s.nextLine env chunks = some (.ok s') ∧
    s'.core.capture.listened = s.core.capture.listened ++ (line ++ ['\n']) ∧
    s'.core.records = s.core.records ++ [r] ∧ r.line = line ∧ r.fLob = false ∧
    s'.core.shared.stBinLogSeqInProgess = ⟨s.core.loc.szBinLogName, logPos, 0⟩ ∧
    s'.core.shared.xai = s.core.shared.xai ++ [⟨s.core.loc.szBinLogName, logPos, 0⟩]

/-- A line that begins behind the first 2048 bytes of the buffer can be moved to its start; any
other line stays where it begins. -/
def fixedOffset (startLine : ℕ) : ℕ := if startLine < iLenBufferOut then startLine else 0

/-- Whenever a read ends inside the line, there is room for another one behind what has been read
of the line. -/
def NeverFull (env : Env) (startLine : ℕ) (line t : Text) (chunks : List Text) : Prop :=
  ∀ k, (t ++ (chunks.take k).flatten).length ≤ line.length →
    fixedOffset startLine + (t ++ (chunks.take k).flatten).length + iLenBufferOut ≤
      env.iMaxBufferLine

section NextLine
variable {env : Env} {s : Buffered} {core : Listener} {rest t chunk : Text}

/-- A read behind the unfinished line. -/
theorem Ready.got (h : Ready env s core rest) (hlen : chunk.length ≤ iLenBufferOut) :
    LineAt (s.got chunk) core rest chunk ∧ (s.got chunk).startLine = s.startLine ∧
      (s.got chunk).work + chunk.length ≤ env.iMaxBufferLine := by
  obtain ⟨rfl, ⟨pre, tail, hbuf, hstart, hb⟩, hlob, hroom⟩ := h
  refine ⟨⟨rfl, ⟨pre, tail.drop (chunk.length + 1), ?_, hstart, hb⟩, hlob⟩, rfl, ?_⟩
  · change poke s.szBufferStdOut s.bufferStart (chunk ++ [nul]) = _
    rw [hbuf, ← List.append_assoc, poke_append (by simp [hb])]
    simp
  · change s.bufferStart + chunk.length ≤ env.iMaxBufferLine
    omega

/-- Two texts without line feed in front of a line feed. -/
theorem append_lineFeed_inj {u v a b : Text} (hu : '\n' ∉ u) (hv : '\n' ∉ v)
    (h : u ++ '\n' :: a = v ++ '\n' :: b) : u = v := by
  have hsplit := congrArg (fun t => (split '\n' [] t).1.head?) h
  simpa [split_line '\n' hu, split_line '\n' hv] using hsplit

theorem neverFull_cons {startLine j : ℕ} {line : Text} {chunks : List Text}
    (hfix : fixedOffset j = fixedOffset startLine)
    (hfirst : fixedOffset startLine + t.length + iLenBufferOut ≤ env.iMaxBufferLine) :
    NeverFull env startLine line t (chunk :: chunks) ↔
      NeverFull env j line (t ++ chunk) chunks := by
  constructor
  · intro h k hk
    have hk' := h (k + 1)
    simp only [List.take_succ_cons, List.flatten_cons, ← List.append_assoc] at hk'
    rw [hfix]
    exact hk' hk
  · intro h k hk
    cases k with
    | zero => simpa using hfirst
    | succ k =>
      simp only [List.take_succ_cons, List.flatten_cons, ← List.append_assoc] at hk ⊢
      rw [← hfix]
      exact h k hk

end NextLine

/-- The line feed of the line is among the bytes still to be looked at. -/
theorem nextLine_found {env : Env} {s : Buffered} {core : Listener} {part seg todo : Text}
    (h : LineAt s core part (seg ++ '\n' :: todo)) (hpart : nul ∉ part)
    (htodo : nul ∉ seg ++ '\n' :: todo) (hseg : '\n' ∉ seg) (chunks : List Text) :
    ∃ x, s.nextLine env chunks = some x ∧
      x.map Buffered.core = refLine env core (part ++ seg) := by
  obtain ⟨rfl, ⟨pre, tail, hbuf, hstart, hwork⟩, hlob⟩ := h
  have htext : strAt s.szBufferStdOut s.work = seg ++ '\n' :: todo := by
    rw [hbuf, ← List.append_assoc, strAt_append (by rw [hwork]; simp) htodo]
  have hline : nul ∉ part ++ seg := by
    simp only [List.mem_append, not_or] at htodo ⊢
    exact ⟨hpart, htodo.1⟩
  have hstep := lineFeed_plain env (s := { s with work := s.work + seg.length })
    (show s.szBufferStdOut = pre ++ ((part ++ seg) ++ '\n' :: (todo ++ nul :: tail)) by
      simp [hbuf]) hstart
    (by simp [hwork, Nat.add_assoc]) hline hlob
  have hterm : s.Terminated := terminated_of_eq (p := pre ++ part) (u := tail)
    (hbuf.trans (List.append_assoc _ _ _).symm) (by rw [hwork, List.length_append])
  refine ⟨Buffered.lineFeed env { s with work := s.work + seg.length }, ?_, ?_⟩
  · exact nextLine_some (r := (seg, todo)) hterm (by rw [htext, strchr_append hseg])
  · rw [hstep, refLine]
    dsimp only
    cases s.core.lineEnd env (part ++ seg ++ ['\n']) (part ++ seg) false <;> rfl

/-- No line feed is among the bytes still to be looked at: they belong to the unfinished line. -/
theorem nextLine_part (env : Env) {s : Buffered} {core : Listener} {part todo : Text}
    (h : LineAt s core part todo) (htodo : nul ∉ todo) (hn : '\n' ∉ todo) :
    LineAt { s with work := s.work + todo.length } core (part ++ todo) [] ∧
      s.nextLine env [] = none ∧
      ∀ chunk chunks, s.nextLine env (chunk :: chunks) = Buffered.nextLine env chunks
        ((Buffered.refill env { s with work := s.work + todo.length }).got chunk) := by
  obtain ⟨hcore, ⟨pre, tail, hbuf, hstart, hwork⟩, hlob⟩ := h
  have htext : strAt s.szBufferStdOut s.work = todo := by
    rw [hbuf, ← List.append_assoc, strAt_append (by rw [hwork]; simp) htodo]
  have hterm : s.Terminated := terminated_of_eq (p := pre ++ part) (u := tail)
    (hbuf.trans (List.append_assoc _ _ _).symm) (by rw [hwork, List.length_append])
  have hnone : strchr '\n' (strAt s.szBufferStdOut s.work) = none := by
    rw [htext]
    exact strchr_eq_none_iff.mpr hn
  refine ⟨⟨hcore, ⟨pre, tail, by simp [hbuf], hstart, by simp [hwork, Nat.add_assoc]⟩, hlob⟩,
    nextLine_nil hterm hnone, fun chunk chunks => ?_⟩
  rw [nextLine_cons hterm hnone, htext]

/-- The refill with an unfinished line that is no column: it stays, it moves, or it is dropped. -/
theorem refill_unfinished {env : Env} {s : Buffered} {core : Listener} {rest : Text}
    (h : LineAt s core rest []) (hrest : nul ∉ rest) (hwork : s.work ≤ env.iMaxBufferLine)
    (henv : 2 * iLenBufferOut ≤ env.iMaxBufferLine)
    (hclosed : core.loc.bDataColumnInProgress = false) :
    (Ready env (s.refill env) core rest ∧
        fixedOffset (s.refill env).startLine = fixedOffset s.startLine ∧
        fixedOffset s.startLine + rest.length + iLenBufferOut ≤ env.iMaxBufferLine) ∨
      Ready env (s.refill env) core [] ∧ rest ≠ [] ∧
        env.iMaxBufferLine < fixedOffset s.startLine + rest.length + iLenBufferOut := by
  obtain ⟨pre, tail, hbuf, hstart, hw⟩ := h.buffer
  have hcore := h.core_eq
  unfold fixedOffset
  by_cases hfull : s.work + iLenBufferOut > env.iMaxBufferLine
  · by_cases hsmall : s.startLine < iLenBufferOut
    · have hdc : s.core.loc.bDataColumnInProgress = false := by
        rw [hcore]
        exact hclosed
      refine .inr ⟨?_, ?_, ?_⟩
      · rw [Buffered.refill, if_pos hfull, if_pos hsmall, hdc]
        refine ⟨hcore, ⟨[], s.szBufferStdOut, rfl, rfl, rfl⟩, h.fLob_eq, ?_⟩
        change 0 + iLenBufferOut ≤ env.iMaxBufferLine
        omega
      · rintro rfl
        rw [List.length_nil] at hw
        omega
      · rw [if_pos hsmall]
        omega
    · have hmove : (s.refill env).startLine = 0 := by
        rw [Buffered.refill, if_pos hfull, if_neg hsmall]
      refine .inl ⟨refill_move h hrest hwork (Nat.le_of_not_lt hsmall) hfull, ?_, ?_⟩
      · rw [hmove, if_neg hsmall, if_pos (by decide)]
      · rw [if_neg hsmall]
        omega
  · rw [refill_room (Nat.le_of_not_lt hfull)]
    refine .inl ⟨⟨hcore, ⟨pre, nul :: tail, hbuf, hstart, hw⟩, h.fLob_eq,
      Nat.le_of_not_lt hfull⟩, rfl, ?_⟩
    split_ifs
    all_goals omega

/-- A line whose end is read already is handled whole. -/
theorem nextLine_read {env : Env} {core : Listener} {s : Buffered} {part todo line more : Text}
    (h : LineAt s core part todo) (hpart : nul ∉ part) (htodo : nul ∉ todo) (chunks : List Text)
    (htext : part ++ todo ++ chunks.flatten = line ++ '\n' :: more) (hpn : '\n' ∉ part)
    (hln : '\n' ∉ line) (hmem : '\n' ∈ todo) :
    NeverFull env s.startLine line (part ++ todo) chunks ∧
      ∃ x, s.nextLine env chunks = some x ∧ x.map Buffered.core = refLine env core line := by
  obtain ⟨seg, todo, rfl, hseg⟩ := List.eq_append_cons_of_mem hmem
  have hline : part ++ seg = line := by
    apply append_lineFeed_inj ?_ hln (a := todo ++ chunks.flatten) (b := more)
    · simpa using htext
    · rw [List.mem_append, not_or]
      exact ⟨hpn, hseg⟩
  rw [← hline]
  constructor
  · intro k hk
    simp only [List.length_append, List.length_cons] at hk
    omega
  · exact nextLine_found h hpart htodo hseg chunks

/-- What the listener handles first is an end of the line, and it is the whole line exactly when
the buffer is never full of it. -/
theorem nextLine_eq {env : Env} (henv : 2 * iLenBufferOut ≤ env.iMaxBufferLine)
    {core : Listener} (hclosed : core.loc.bDataColumnInProgress = false) {more : Text}
    (chunks : List Text) : ∀ (s : Buffered) (part todo line : Text),
      LineAt s core part todo → nul ∉ part → nul ∉ todo →
      s.work + todo.length ≤ env.iMaxBufferLine → (∀ c ∈ chunks, IsRead c) →
      part ++ todo ++ chunks.flatten = line ++ '\n' :: more → '\n' ∉ part → '\n' ∉ line →
      ∃ l, l <:+ line ∧ (l = line ↔ NeverFull env s.startLine line (part ++ todo) chunks) ∧
        ∃ x, s.nextLine env chunks = some x ∧ x.map Buffered.core = refLine env core l := by
  induction chunks with
  | nil =>
    intro s part todo line h hpart htodo hends hreads htext hpn hln
    have hmem : '\n' ∈ todo := by
      rw [List.flatten_nil, List.append_nil] at htext
      have hm : '\n' ∈ part ++ todo := htext ▸ List.mem_append_right line List.mem_cons_self
      exact (List.mem_append.mp hm).resolve_left hpn
    obtain ⟨hnever, hnext⟩ := nextLine_read h hpart htodo [] htext hpn hln hmem
    exact ⟨line, List.suffix_rfl, iff_of_true rfl hnever, hnext⟩
  | cons chunk chunks ih =>
    intro s part todo line h hpart htodo hends hreads htext hpn hln
    by_cases hmem : '\n' ∈ todo
    · obtain ⟨hnever, hnext⟩ := nextLine_read h hpart htodo _ htext hpn hln hmem
      exact ⟨line, List.suffix_rfl, iff_of_true rfl hnever, hnext⟩
    · rw [List.forall_mem_cons] at hreads
      obtain ⟨⟨-, hlen, hchunk⟩, hreads⟩ := hreads
      have hrest : nul ∉ part ++ todo := by
        rw [List.mem_append, not_or]
        exact ⟨hpart, htodo⟩
      have hrn : '\n' ∉ part ++ todo := by
        rw [List.mem_append, not_or]
        exact ⟨hpn, hmem⟩
      obtain ⟨hat, -, hnext⟩ := nextLine_part env h htodo hmem
      rw [hnext]
      rw [List.flatten_cons] at htext
      obtain ⟨line', rfl, htext'⟩ := lineFeed_behind hrn htext
      have hln' : '\n' ∉ line' := fun hm => hln (List.mem_append_right _ hm)
      rcases refill_unfinished hat hrest hends henv hclosed with
        ⟨hready, hfix, hroom⟩ | ⟨hready, hne, hfull⟩
      · obtain ⟨hat', hstart', hends'⟩ := hready.got hlen
        obtain ⟨l, hl, hiff, hf⟩ := ih _ (part ++ todo) chunk (part ++ todo ++ line') hat' hrest
          hchunk hends' hreads (by rw [List.append_assoc, htext']; simp) hrn hln
        refine ⟨l, hl, ?_, hf⟩
        rw [hiff, neverFull_cons (j := ((Buffered.refill env
          { s with work := s.work + todo.length }).got chunk).startLine) ?_ hroom]
        rw [hstart']
        exact hfix
      · obtain ⟨hat', hstart', hends'⟩ := hready.got hlen
        obtain ⟨l, hl, -, hf⟩ := ih _ [] chunk line' hat' (by simp) hchunk hends' hreads
          (by simpa using htext') (by simp) hln'
        refine ⟨l, hl.trans (List.suffix_append _ _), iff_of_false ?_ ?_, hf⟩
        · rintro rfl
          have hle := hl.length_le
          have hpos := List.length_pos_of_ne_nil hne
          rw [List.length_append] at hle
          omega
        · intro hnf
          have hzero := hnf 0 (by simp)
          simp only [List.take_zero, List.flatten_nil, List.append_nil] at hzero
          dsimp only at hfull
          omega

/-- Without a line feed the listener handles no line. -/
theorem nextLine_none {env : Env} (henv : 2 * iLenBufferOut ≤ env.iMaxBufferLine)
    {core : Listener} (hclosed : core.loc.bDataColumnInProgress = false) (chunks : List Text) :
    ∀ (s : Buffered) (part todo : Text), LineAt s core part todo → nul ∉ part → nul ∉ todo →
      s.work + todo.length ≤ env.iMaxBufferLine → (∀ c ∈ chunks, IsRead c) → '\n' ∉ todo →
      '\n' ∉ chunks.flatten → s.nextLine env chunks = none := by
  induction chunks with
  | nil => exact fun s part todo h _ htodo _ _ hn _ => (nextLine_part env h htodo hn).2.1
  | cons chunk chunks ih =>
    intro s part todo h hpart htodo hends hreads hn hns
    rw [List.forall_mem_cons] at hreads
    obtain ⟨⟨-, hlen, hchunk⟩, hreads⟩ := hreads
    rw [List.flatten_cons, List.mem_append, not_or] at hns
    have hrest : nul ∉ part ++ todo := by
      rw [List.mem_append, not_or]
      exact ⟨hpart, htodo⟩
    obtain ⟨hat, -, hnext⟩ := nextLine_part env h htodo hn
    rw [hnext]
    rcases refill_unfinished hat hrest hends henv hclosed with ⟨hready, -, -⟩ | ⟨hready, -, -⟩
    · obtain ⟨hat', -, hends'⟩ := hready.got hlen
      exact ih _ _ chunk hat' hrest hchunk hends' hreads hns.1 hns.2
    · obtain ⟨hat', -, hends'⟩ := hready.got hlen
      exact ih _ [] chunk hat' (by simp) hchunk hends' hreads hns.1 hns.2

/-- Inside a long line the listener stays inside it up to the line feed. -/
theorem nextLine_lob {env : Env} (chunks : List Text) : ∀ {s s' : Buffered}, s.fLob = true →
    s.nextLine env chunks = some (.ok s') →
    ∃ (core : Listener) (entry text : Text) (column : Bool), core.records = s.core.records ∧
      core.lineEnd env entry text true = .ok (s'.core, column) := by
  have hfound : ∀ {s s' : Buffered} {r : Text × Text}, s.fLob = true →
      Buffered.lineFeed env { s with work := s.work + r.1.length } = .ok s' →
      ∃ (core : Listener) (entry text : Text) (column : Bool), core.records = s.core.records ∧
        core.lineEnd env entry text true = .ok (s'.core, column) := by
    intro s s' r hlob hs
    unfold Buffered.lineFeed at hs
    rw [hlob] at hs
    obtain ⟨⟨core, column⟩, hr, he⟩ := bind_eq_ok_iff.mp hs
    cases he
    exact ⟨_, _, _, _, rfl, hr⟩
  have hterm : ∀ {s s' : Buffered} {chunks : List Text}, s.nextLine env chunks = some (.ok s') →
      s.Terminated := by
    intro s s' chunks hs
    by_contra hterm
    rw [nextLine_overrun hterm] at hs
    cases hs
  induction chunks with
  | nil =>
    intro s s' hlob hs
    cases hc : strchr '\n' (strAt s.szBufferStdOut s.work) with
    | none =>
      rw [nextLine_nil (hterm hs) hc] at hs
      cases hs
    | some r =>
      rw [nextLine_some (hterm hs) hc, Option.some.injEq] at hs
      exact hfound hlob hs
  | cons chunk chunks ih =>
    intro s s' hlob hs
    cases hc : strchr '\n' (strAt s.szBufferStdOut s.work) with
    | some r =>
      rw [nextLine_some (hterm hs) hc, Option.some.injEq] at hs
      exact hfound hlob hs
    | none =>
      rw [nextLine_cons (hterm hs) hc] at hs
      have hrefill : ∀ s : Buffered, s.fLob = true → (s.refill env).fLob = true ∧
          (s.refill env).core.records = s.core.records := by
        intro s hlob
        unfold Buffered.refill
        split_ifs
        all_goals exact ⟨by first | rfl | exact hlob, rfl⟩
      obtain ⟨hlob', hrec⟩ := hrefill { s with
        work := s.work + (strAt s.szBufferStdOut s.work).length } hlob
      obtain ⟨core, entry, text, column, hcore, hend⟩ := ih (s := Buffered.got _ chunk) hlob' hs
      exact ⟨core, entry, text, column, hcore.trans hrec, hend⟩

section Query
variable {env : Env} {s : Buffered} {t query more : Text} {pos logPos ulIndex : ℕ}
  {chunks : List Text}

/-- The line of a `QUERY` marker. -/
def queryMarkerLine (pos logPos : ℕ) (query : Text) (ulIndex : ℕ) : Text :=
  queryTag ++ (markerPositions pos logPos ++ (query ++ '!' :: decimal ulIndex ++ ['!']))

theorem not_isColumn_query (u : Text) : ¬IsColumn (queryTag ++ u) := by
  rintro ⟨hpre, -⟩
  have hapart := startsWith_apart u (by decide : Apart queryTag columnPrefix)
  rw [startsWith_iff.mpr hpre] at hapart
  exact Bool.noConfusion hapart

/-- What the unbounded listener does with the marker of a `QUERY` event. -/
theorem refLine_query {core : Listener} (hclosed : core.loc.bDataColumnInProgress = false)
    (u : Text) :
    ∃ c r, refLine env core (queryTag ++ (markerPositions pos logPos ++ u)) = .ok c ∧
      c.records = core.records ++ [r] ∧
      r.line = queryTag ++ (markerPositions pos logPos ++ u) ∧ r.fLob = false ∧
      c.shared.stBinLogSeqInProgess = ⟨core.loc.szBinLogName, clip logPos, 0⟩ ∧
      c.shared.xai = core.shared.xai ++ [⟨core.loc.szBinLogName, clip logPos, 0⟩] := by
  have hopen : endOfDataColumn core.loc (queryTag ++ (markerPositions pos logPos ++ u)) =
      (core.loc, []) := by
    rw [endOfDataColumn, hclosed, Bool.false_and, if_neg Bool.false_ne_true]
  obtain ⟨h, hd, -, hops⟩ := acts_query pos logPos u core.shared.stBinLogSeq core.loc
  have hh : handleLine core.shared.stBinLogSeq core.loc
      (queryTag ++ (markerPositions pos logPos ++ u)) = .ok h := by
    rw [handleLine, hopen, hd]
    rfl
  rw [refLine, lineEnd_eq, hh]
  refine ⟨_, _, rfl, rfl, rfl, rfl, ?_, ?_⟩
  · change (core.shared.execAll h.ops).stBinLogSeqInProgess = _
    rw [hops]
    rfl
  · change (core.shared.execAll h.ops).xai = _
    rw [hops]
    rfl

theorem newline_not_mem_queryMarkerLine (hquery : '\n' ∉ query) :
    '\n' ∉ queryMarkerLine pos logPos query ulIndex := by
  simp only [queryMarkerLine, List.mem_append, List.mem_cons, List.mem_nil_iff, not_or]
  exact ⟨by decide, newline_not_mem_markerPositions pos logPos,
    ⟨hquery, by decide, newline_not_mem_decimal ulIndex⟩, by decide, not_false⟩

/-- Behind a byte 0x1A in the statement the end of the line never comes. -/
theorem newline_not_mem_piped_queryMarker (hquery : '\n' ∉ query) (hz : ctrlZ ∈ query)
    (pos logPos ulIndex : ℕ) (more : Text) :
    '\n' ∉ piped (queryMarker pos logPos query ulIndex ++ more) := by
  have hmem : ctrlZ ∈ queryMarkerLine pos logPos query ulIndex :=
    List.mem_append_right _ (List.mem_append_right _ (List.mem_append_left _
      (List.mem_append_left _ hz)))
  have heq : queryMarker pos logPos query ulIndex ++ more =
      queryMarkerLine pos logPos query ulIndex ++ ('\n' :: more) := by
    rw [queryMarker, textLine, ← queryMarkerLine]
    simp
  rw [heq, piped_append_of_mem hmem]
  exact fun h => newline_not_mem_queryMarkerLine hquery ((piped_isPrefix _).subset h)

/-- A line that a byte 0x1A cuts off is never handled. -/
theorem AtLineStart.nextLine_none (henv : 2 * iLenBufferOut ≤ env.iMaxBufferLine)
    (hs : AtLineStart env s t) (hlob : s.fLob = false) (hreads : ∀ c ∈ chunks, IsRead c)
    (hquery : '\n' ∉ query) (hz : ctrlZ ∈ query)
    (htext : t ++ chunks.flatten = piped (queryMarker pos logPos query ulIndex ++ more)) :
    s.nextLine env chunks = none := by
  obtain ⟨⟨pre, tail, hbuf, hstart, hwork⟩, hclean, hends, hclosed⟩ := hs
  have hn := newline_not_mem_piped_queryMarker hquery hz pos logPos ulIndex more
  rw [← htext, List.mem_append, not_or] at hn
  exact BinlogCapture.nextLine_none henv hclosed chunks s [] t
    ⟨rfl, ⟨pre, tail, hbuf, hstart, by simp [hwork]⟩, hlob⟩ (by simp) hclean hends hreads hn.1 hn.2

/-- From the start of the line the listener first handles an end of it. -/
theorem AtLineStart.nextLine (henv : 2 * iLenBufferOut ≤ env.iMaxBufferLine)
    (hs : AtLineStart env s t) (hlob : s.fLob = false) (hreads : ∀ c ∈ chunks, IsRead c)
    (hquery : '\n' ∉ query)
    (htext : t ++ chunks.flatten = queryMarker pos logPos query ulIndex ++ more) :
    ∃ l, l <:+ queryMarkerLine pos logPos query ulIndex ∧
      (l = queryMarkerLine pos logPos query ulIndex ↔
        NeverFull env s.startLine (queryMarkerLine pos logPos query ulIndex) t chunks) ∧
      ∃ x, s.nextLine env chunks = some x ∧ x.map Buffered.core = refLine env s.core l := by
  obtain ⟨⟨pre, tail, hbuf, hstart, hwork⟩, hclean, hends, hclosed⟩ := hs
  have hline : [] ++ t ++ chunks.flatten =
      queryMarkerLine pos logPos query ulIndex ++ '\n' :: more := by
    rw [List.nil_append, htext, queryMarker, textLine, ← queryMarkerLine]
    simp
  exact nextLine_eq henv hclosed chunks s [] t (queryMarkerLine pos logPos query ulIndex)
    ⟨rfl, ⟨pre, tail, hbuf, hstart, by simp [hwork]⟩, hlob⟩ (by simp) hclean hends hreads
    hline (by simp) (newline_not_mem_queryMarkerLine hquery)

/-- The line of a long read in progress is dispatched in place of the line. -/
theorem CapturedWhole.fLob_eq {u : Text} (h : CapturedWhole env s chunks (queryTag ++ u) logPos) :
    s.fLob = false := by
  obtain ⟨s', r, hs', -, hrec, hline, hr, -, -⟩ := h
  by_contra hlob
  obtain ⟨core, entry, text, column, hcore, hend⟩ :=
    nextLine_lob chunks (Bool.not_eq_false _ ▸ hlob) hs'
  rw [lineEnd_eq] at hend
  obtain ⟨hh, hhandle, he⟩ := map_eq_ok_iff.mp hend
  obtain ⟨hc, hcol⟩ := Prod.mk.inj he
  rw [← hc] at hrec
  have hsame : lineRecord env core (core.writeLine env entry) entry text true hh = r := by
    have hlist :
        core.records ++ [lineRecord env core (core.writeLine env entry) entry text true hh] =
          s.core.records ++ [r] := hrec
    rw [hcore] at hlist
    simpa using hlist
  have hcolumn : hh.column = true := by
    rw [← hsame] at hr
    simpa [lineRecord] using hr
  have htext : text = queryTag ++ u := by
    rw [← hline, ← hsame]
    rfl
  exact not_isColumn_query u (htext ▸ isColumn_of_handleLine hhandle hcolumn)

theorem CapturedWhole.neverFull (henv : 2 * iLenBufferOut ≤ env.iMaxBufferLine)
    (hs : AtLineStart env s t) (hreads : ∀ c ∈ chunks, IsRead c) (hquery : '\n' ∉ query)
    (htext : t ++ chunks.flatten = queryMarker pos logPos query ulIndex ++ more)
    (h : CapturedWhole env s chunks (queryMarkerLine pos logPos query ulIndex) logPos) :
    NeverFull env s.startLine (queryMarkerLine pos logPos query ulIndex) t chunks := by
  have hlob := h.fLob_eq
  obtain ⟨l, -, hiff, x, hx, hcore⟩ := hs.nextLine henv hlob hreads hquery htext
  obtain ⟨s', r, hs', hlistened, -⟩ := h
  rw [hs', Option.some.injEq] at hx
  rw [← hx] at hcore
  obtain ⟨hwritten, -⟩ := refLine_effect (hcore.symm : refLine env s.core l = .ok s'.core)
  rw [hlistened, List.append_cancel_left_eq] at hwritten
  exact hiff.mp (List.append_cancel_right hwritten).symm

/-- The line of a `QUERY` event, as the pipe delivers it, is captured and its position saved exactly
when no other long line is in progress, the position is below 2^31, the statement has no byte 0x1A,
and no read that ends inside the line leaves less room than the next read may need: for a line that
begins in the first 2048 bytes of the buffer the room behind it, for any other the room behind it
once it is moved to the start. -/
theorem capturedWhole_iff (env : Env) (henv : 2 * iLenBufferOut ≤ env.iMaxBufferLine)
    (s : Buffered) (t : Text) (hs : AtLineStart env s t) (chunks : List Text)
    (hreads : ∀ c ∈ chunks, IsRead c) (pos logPos ulIndex : ℕ) (query : Text)
    (hquery : '\n' ∉ query) (more : Text)
    (htext : t ++ chunks.flatten = piped (queryMarker pos logPos query ulIndex ++ more)) :
    CapturedWhole env s chunks (queryMarkerLine pos logPos query ulIndex) logPos ↔
      s.fLob = false ∧ logPos < 2 ^ 31 ∧ ctrlZ ∉ query ∧
        NeverFull env s.startLine (queryMarkerLine pos logPos query ulIndex) t chunks := by
  have hplain : ctrlZ ∉ query →
      t ++ chunks.flatten = queryMarker pos logPos query ulIndex ++ piped more := fun hz => by
    rw [htext, piped_append (ctrlZ_not_mem_queryMarker hz _ _ _)]
  constructor
  · intro h
    have hlob := h.fLob_eq
    have hz : ctrlZ ∉ query := by
      intro hz
      obtain ⟨s', r, hs', -⟩ := h
      rw [hs.nextLine_none henv hlob hreads hquery hz htext] at hs'
      cases hs'
    have hfull := h.neverFull henv hs hreads hquery (hplain hz)
    refine ⟨hlob, ?_, hz, hfull⟩
    obtain ⟨l, -, hiff, x, hx, hcore⟩ := hs.nextLine henv hlob hreads hquery (hplain hz)
    rw [hiff.mpr hfull] at hcore
    obtain ⟨s', r, hs', -, -, -, -, hprog, -⟩ := h
    obtain ⟨c, r', hc, -, -, -, hprog', -⟩ := refLine_query
      hs.closed (query ++ '!' :: decimal ulIndex ++ ['!'])
    rw [hs', Option.some.injEq] at hx
    rw [← hx, queryMarkerLine, hc] at hcore
    have hsame : s'.core = c := Except.ok.inj hcore
    rw [hsame, hprog'] at hprog
    have hclip := congrArg BinLogSequence.ulPosition hprog
    have hle : clip logPos ≤ 2 ^ 31 - 1 := Nat.min_le_right _ _
    dsimp only at hclip
    omega
  · rintro ⟨hlob, hpos, hz, hfull⟩
    obtain ⟨l, -, hiff, x, hx, hcore⟩ := hs.nextLine henv hlob hreads hquery (hplain hz)
    obtain ⟨c, r, hc, hrec, hline, hr, hprog, hxai⟩ := refLine_query
      hs.closed (query ++ '!' :: decimal ulIndex ++ ['!'])
    have hclip : clip logPos = logPos := Nat.min_eq_left (by omega)
    rw [hclip] at hprog hxai
    rw [hiff.mpr hfull, queryMarkerLine, hc] at hcore
    obtain ⟨s', rfl, rfl⟩ := map_eq_ok_iff.mp hcore
    exact ⟨s', r, hx, (refLine_effect hc).1, hrec, hline, hr, hprog, hxai⟩

end Query

theorem ctrlZ_not_mem_xs (n : ℕ) : ctrlZ ∉ xs n :=
  fun h => absurd (List.eq_of_mem_replicate h) (by decide)

/-- Half of the buffer is behind the listener, and a read has ended inside the marker. -/
def movedStart : Buffered :=
  { Buffered.start (.initial .small) (xs 4096 ++ ("*!QUERY!4!100!".toList ++ [nul])) with
    startLine := 4096
    work := 4096 }

/-- The reads of a statement of more than 4 KiB; the second one fills the buffer. -/
def movedReads : List Text := [xs 2034, xs 2047, xs 5 ++ "!1!\n".toList]

theorem movedReads_isRead : ∀ c ∈ movedReads, IsRead c := by
  have hx (n : ℕ) (hn : 0 < n) (hn' : n ≤ 2048) : IsRead (xs n) :=
    ⟨List.ne_nil_of_length_pos (by rw [length_xs]; exact hn), by rw [length_xs]; exact hn',
      (xs_clean n).1⟩
  have hlast : IsRead (xs 5 ++ "!1!\n".toList) := by
    unfold IsRead
    decide
  simp only [movedReads, List.forall_mem_cons]
  exact ⟨hx 2034 (by decide) (by decide), hx 2047 (by decide) (by decide), hlast, by simp⟩

theorem movedReads_flatten :
    "*!QUERY!4!100!".toList ++ movedReads.flatten = queryMarker 4 100 (xs 4086) 1 := by
  have hxs : xs 2034 ++ (xs 2047 ++ xs 5) = xs 4086 := by
    rw [xs_append, xs_append]
  rw [movedReads, List.flatten_cons, List.flatten_cons, List.flatten_singleton, queryMarker, ← hxs]
  simp only [textLine, List.append_assoc]
  rfl

/-- A statement cut over four reads, whose line moves to the start of the buffer once. -/
theorem capturedWhole_moved :
    CapturedWhole .small movedStart movedReads (queryMarkerLine 4 100 (xs 4086) 1) 100 := by
  refine (capturedWhole_iff .small (by decide) movedStart "*!QUERY!4!100!".toList
    ⟨⟨xs 4096, [], rfl, (length_xs _).symm, (length_xs _).symm⟩, by decide, by decide, rfl⟩
    movedReads movedReads_isRead 4 100 1 (xs 4086) (xs_clean _).2 [] ?_).mpr
    ⟨rfl, by decide, ctrlZ_not_mem_xs _, fun k hk => ?_⟩
  · rw [List.append_nil, piped_of_not_mem (ctrlZ_not_mem_queryMarker (ctrlZ_not_mem_xs _) _ _ _),
      movedReads_flatten]
  · have hline : (queryMarkerLine 4 100 (xs 4086) 1).length = 4103 := by
      simp only [queryMarkerLine, List.length_append, length_xs]
      rfl
    have hoffset : fixedOffset movedStart.startLine = 0 := rfl
    rw [hline] at hk
    rw [hoffset]
    exact (Nat.add_le_add_right (Nat.add_le_add_left hk 0) iLenBufferOut).trans (by decide)

/-- The reads of a statement of more than 8 KiB. -/
def longQueryReads : List Text :=
  ("*!QUERY!4!100!".toList ++ xs 2034) :: (List.replicate 3 (xs 2048) ++
    [xs 8 ++ "!1!\n".toList])

theorem longQueryReads_flatten : longQueryReads.flatten = queryMarker 4 100 (xs 8186) 1 := by
  have hxs : xs 2034 ++ (xs (3 * 2048) ++ xs 8) = xs 8186 := by
    rw [xs_append, xs_append]
  rw [longQueryReads, List.flatten_cons, List.flatten_append, xs_flatten, List.flatten_singleton,
    queryMarker, ← hxs]
  simp only [textLine, List.append_assoc]
  rfl

/-- At the start of the buffer, a statement that fills it is dropped up to what is read last. -/
theorem not_capturedWhole_long :
    ¬∀ (env : Env) (s : Buffered) (t : Text) (chunks : List Text) (pos logPos ulIndex : ℕ)
      (query more : Text), 2 * iLenBufferOut ≤ env.iMaxBufferLine → AtLineStart env s t →
      s.fLob = false → (∀ c ∈ chunks, IsRead c) → '\n' ∉ query →
      t ++ chunks.flatten = piped (queryMarker pos logPos query ulIndex ++ more) →
      CapturedWhole env s chunks (queryMarkerLine pos logPos query ulIndex) logPos := by
  intro h
  have hx (n : ℕ) (hn : 0 < n) (hn' : n ≤ 2048) : IsRead (xs n) :=
    ⟨List.ne_nil_of_length_pos (by rw [length_xs]; exact hn), by rw [length_xs]; exact hn',
      (xs_clean n).1⟩
  have hstart : AtLineStart .small (.start (.initial .small) [nul]) [] :=
    ⟨⟨[], [], rfl, rfl, rfl⟩, by simp, by decide, rfl⟩
  have hreads : ∀ c ∈ longQueryReads, IsRead c := by
    have hhead : IsRead ("*!QUERY!4!100!".toList ++ xs 2034) := by
      refine ⟨by simp, by rw [List.length_append, length_xs]; decide, ?_⟩
      rw [List.mem_append, not_or]
      exact ⟨by decide, (xs_clean _).1⟩
    have hlast : IsRead (xs 8 ++ "!1!\n".toList) := by
      unfold IsRead
      decide
    simp only [longQueryReads, List.forall_mem_cons, List.forall_mem_append]
    exact ⟨hhead, fun c hc => List.eq_of_mem_replicate hc ▸ hx 2048 (by decide) le_rfl, hlast,
      by simp⟩
  have htext : ([] : Text) ++ longQueryReads.flatten = queryMarker 4 100 (xs 8186) 1 ++ [] := by
    rw [List.nil_append, List.append_nil, longQueryReads_flatten]
  have hpipe := ctrlZ_not_mem_queryMarker (ctrlZ_not_mem_xs 8186) 4 100 1
  have hcap := h .small _ [] longQueryReads 4 100 1 (xs 8186) [] (by decide) hstart rfl hreads
    (xs_clean _).2 (by rw [List.append_nil, piped_of_not_mem hpipe, htext, List.append_nil])
  have hfull := hcap.neverFull (by decide) hstart hreads (xs_clean _).2 htext
  have hfour : ((longQueryReads.take 4).flatten).length = 8192 := by
    rw [longQueryReads, List.take_succ_cons, List.take_append_of_le_length (by simp),
      List.take_of_length_le (by simp), List.flatten_cons, xs_flatten, List.length_append,
      List.length_append, length_xs, length_xs]
    rfl
  have hline : 8192 ≤ (queryMarkerLine 4 100 (xs 8186) 1).length := by
    have htag : queryTag.length = 8 := rfl
    have hpositions : (markerPositions 4 100).length = 6 := rfl
    simp only [queryMarkerLine, List.length_append, length_xs]
    omega
  have hroom := hfull 4
  simp only [List.nil_append, hfour] at hroom
  exact absurd (hroom hline) (by decide)

end BinlogCapture
