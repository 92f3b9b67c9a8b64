import BinlogCapture.Listener
import Mathlib.Logic.Relation

/-! Everything the listener does to its state is a line end or a write of part of a line,
whatever the stream, the reads and the size of the buffer are. -/
namespace BinlogCapture
open CString Fallible

theorem slice_append (pre mid post : Text) :
    slice (pre ++ (mid ++ post)) pre.length (pre.length + mid.length) = mid := by
  rw [slice, List.drop_left, Nat.add_sub_cancel_left, List.take_left]

/-- The buffer holds `rest`, a part of one line, from the start of the line up to index `n`. -/
def Buffered.Holds (s : Buffered) (n : ℕ) (rest : Text) : Prop :=
  ∃ pre tail, s.szBufferStdOut = pre ++ (rest ++ tail) ∧ s.startLine = pre.length ∧
    n = pre.length + rest.length ∧ nul ∉ rest ∧ '\n' ∉ rest

theorem holds_nil {s : Buffered} (h : s.startLine ≤ s.szBufferStdOut.length) :
    s.Holds s.startLine [] :=
  ⟨s.szBufferStdOut.take s.startLine, s.szBufferStdOut.drop s.startLine, by simp, by simp [h],
    by simp [h], by simp, by simp⟩

theorem lineFeed_holds {env : Env} {s s' : Buffered} {line post : Text}
    (h : ∃ pre, s.szBufferStdOut = pre ++ (line ++ '\n' :: post) ∧ s.startLine = pre.length ∧
      s.work = pre.length + line.length)
    (hs : s.lineFeed env = .ok s') :
    (∃ text c, s.core.lineEnd env (line ++ ['\n']) text s.fLob = .ok (s'.core, c)) ∧
      s'.work = s'.startLine ∧ s'.startLine ≤ s'.szBufferStdOut.length := by
  obtain ⟨pre, hbuf, hstart, hwork⟩ := h
  have hentry : slice s.szBufferStdOut s.startLine (s.work + 1) = line ++ ['\n'] := by
    have hslice := slice_append pre (line ++ ['\n']) post
    simp only [List.append_assoc, List.singleton_append, List.length_append,
      List.length_singleton] at hslice
    rw [hbuf, hstart, hwork, Nat.add_assoc, hslice]
  have hlen : s.work + 1 ≤ s.szBufferStdOut.length := by
    rw [hbuf, hwork]
    simp only [List.length_append, List.length_cons]
    omega
  unfold Buffered.lineFeed at hs
  simp only [hentry] at hs
  obtain ⟨r, hr, hs⟩ := bind_eq_ok_iff.mp hs
  cases hs
  refine ⟨⟨_, r.2, hr⟩, rfl, ?_⟩
  dsimp only
  split
  · exact Nat.zero_le _
  · split_ifs
    · rw [length_poke (by rw [strcpy_zero]; simp)]
      exact le_max_right _ _
    · rw [length_poke (by omega)]
      exact le_max_right _ _

/-- What the listener can do to its state: the end of a line, of which `entry` is what the
capture file still lacks, or a write of a part of a line. -/
inductive Listener.Step (env : Env) : Listener → Listener → Prop where
  | line {s s' : Listener} {entry text : Text} {fLob column : Bool} (hnul : nul ∉ entry)
      (hnl : '\n' ∉ entry) (h : s.lineEnd env (entry ++ ['\n']) text fLob = .ok (s', column)) :
      Step env s s'
  | lob {s : Listener} {entry : Text} (hnul : nul ∉ entry) (hnl : '\n' ∉ entry) :
      Step env s (s.writeLob env entry)

abbrev Listener.Steps (env : Env) : Listener → Listener → Prop :=
  Relation.ReflTransGen (Listener.Step env)

theorem scan_steps (env : Env) : ∀ (fuel : ℕ) (s s' : Buffered) (rest : Text),
    s.Holds s.work rest → s.scan env fuel = .ok s' →
    Listener.Steps env s.core s'.core ∧ ∃ rest', s'.Holds s'.work rest' := by
  intro fuel
  induction fuel with
  | zero => exact fun s s' rest _ h => absurd h (by simp [Buffered.scan])
  | succ fuel ih =>
    rintro s s' rest ⟨pre, tail, hbuf, hstart, hwork, hnul, hnl⟩ h
    have htext : strAt s.szBufferStdOut s.work = tail.takeWhile (· ≠ nul) := by
      rw [strAt, hbuf, hwork, ← List.append_assoc, ← List.length_append, List.drop_left]
    have htnul : nul ∉ tail.takeWhile (· ≠ nul) := by
      intro hm
      simpa using List.mem_takeWhile_imp hm
    obtain ⟨post, hpost⟩ := List.takeWhile_prefix (p := (· ≠ nul)) (l := tail)
    have hterm := terminated_of_scan h
    cases hc : strchr '\n' (tail.takeWhile (· ≠ nul)) with
    | none =>
      rw [scan_none hterm (htext ▸ hc), htext] at h
      cases h
      refine ⟨.refl, rest ++ tail.takeWhile (· ≠ nul), pre, post, ?_, hstart, ?_, ?_, ?_⟩
      · rw [List.append_assoc, hpost]
        exact hbuf
      · simp [hwork, Nat.add_assoc]
      · simp only [List.mem_append, not_or]
        exact ⟨hnul, htnul⟩
      · simp only [List.mem_append, not_or]
        exact ⟨hnl, strchr_eq_none_iff.mp hc⟩
    | some r =>
      obtain ⟨seg, todo⟩ := r
      obtain ⟨hseg, hsn⟩ := strchr_eq_some hc
      rw [scan_some hterm (htext ▸ hc)] at h
      obtain ⟨s₁, hs₁, h⟩ := bind_eq_ok_iff.mp h
      have hbuf' : s.szBufferStdOut = pre ++ ((rest ++ seg) ++ '\n' :: (todo ++ post)) := by
        rw [hbuf, ← hpost, hseg]
        simp only [List.append_assoc, List.cons_append]
      have hwork' : s.work + seg.length = pre.length + (rest ++ seg).length := by
        rw [hwork, List.length_append, Nat.add_assoc]
      obtain ⟨⟨text, c, hend⟩, hw, hlen⟩ := lineFeed_holds (s := { s with
        work := s.work + seg.length }) ⟨pre, hbuf', hstart, hwork'⟩ hs₁
      have hsnul : nul ∉ seg := by
        intro hm
        rw [hseg] at htnul
        exact htnul (List.mem_append_left _ hm)
      have hend' : s.core.lineEnd env (rest ++ seg ++ ['\n']) text s.fLob = .ok (s₁.core, c) :=
        hend
      have hnul' : nul ∉ rest ++ seg := by
        simp only [List.mem_append, not_or]
        exact ⟨hnul, hsnul⟩
      have hnl' : '\n' ∉ rest ++ seg := by
        simp only [List.mem_append, not_or]
        exact ⟨hnl, hsn⟩
      have hstep : Listener.Step env s.core s₁.core := .line hnul' hnl' hend'
      obtain ⟨hsteps, hholds⟩ := ih s₁ s' [] (hw ▸ holds_nil hlen) h
      exact ⟨.head hstep hsteps, hholds⟩

theorem refill_steps {env : Env} {s : Buffered} {rest : Text} (h : s.Holds s.work rest) :
    Listener.Steps env s.core (s.refill env).core ∧
      ∃ rest', (s.refill env).Holds (s.refill env).bufferStart rest' := by
  obtain ⟨pre, tail, hbuf, hstart, hwork, hnul, hnl⟩ := h
  have hnil (t : Buffered) (h₁ : t.startLine = 0) (h₂ : t.bufferStart = 0) :
      t.Holds t.bufferStart [] :=
    ⟨[], t.szBufferStdOut, rfl, h₁, h₂, by simp, by simp⟩
  unfold Buffered.refill
  split
  · split
    · split
      · have hentry : slice s.szBufferStdOut s.startLine s.work = rest := by
          rw [hbuf, hstart, hwork, slice_append]
        rw [hentry]
        exact ⟨.single (.lob hnul hnl), [], hnil _ rfl rfl⟩
      · exact ⟨.refl, [], hnil _ rfl rfl⟩
    · refine ⟨.refl, rest, [], ?_⟩
      have hstr : rest <+: strAt s.szBufferStdOut s.startLine := by
        rw [strAt, hbuf, hstart, List.drop_left]
        rw [List.takeWhile_append_of_pos fun c hc => by
          simpa using fun he : c = nul => hnul (he ▸ hc)]
        exact List.prefix_append _ _
      obtain ⟨u, hu⟩ := hstr
      refine ⟨u ++ nul :: s.szBufferStdOut.drop ((rest ++ u).length + 1), ?_, rfl, ?_, hnul, hnl⟩
      · rw [← hu, strcpy_zero]
        simp
      · simp [hwork, hstart]
  · exact ⟨.refl, rest, pre, tail, hbuf, hstart, hwork, hnul, hnl⟩

theorem read_steps {env : Env} {fuel : ℕ} {s s' : Buffered} {rest chunk : Text}
    (h : s.Holds s.bufferStart rest) (hread : s.read env fuel chunk = .ok s') :
    Listener.Steps env s.core s'.core ∧ ∃ rest', s'.Holds s'.bufferStart rest' := by
  obtain ⟨t, ht, rfl⟩ := map_eq_ok_iff.mp hread
  obtain ⟨pre, tail, hbuf, hstart, hb, hnul, hnl⟩ := h
  have hpoke : poke s.szBufferStdOut s.bufferStart (chunk ++ [nul]) =
      pre ++ (rest ++ (chunk ++ [nul] ++ tail.drop (chunk ++ [nul]).length)) := by
    rw [hbuf, ← List.append_assoc, poke_append (by simp [hb])]
    simp
  obtain ⟨hsteps, rest', hholds⟩ := scan_steps env fuel { s with
      szBufferStdOut := poke s.szBufferStdOut s.bufferStart (chunk ++ [nul])
      work := s.bufferStart } t rest ⟨pre, _, hpoke, hstart, hb, hnul, hnl⟩ ht
  obtain ⟨hsteps', hholds'⟩ := refill_steps hholds
  exact ⟨hsteps.trans hsteps', hholds'⟩

/-- A run of the listener, on any reads, is a run of line ends and part writes. -/
theorem listen_steps {env : Env} {fuel : ℕ} :
    ∀ (chunks : List Text) (s s' : Buffered) (rest : Text),
    s.Holds s.bufferStart rest → listen env fuel s chunks = .ok s' →
    Listener.Steps env s.core s'.core := by
  intro chunks
  induction chunks with
  | nil =>
    intro s s' rest _ h
    cases h
    exact .refl
  | cons c cs ih =>
    intro s s' rest hs h
    rw [listen, List.foldlM_cons] at h
    obtain ⟨t, ht, h⟩ := bind_eq_ok_iff.mp h
    obtain ⟨hsteps, rest', hholds⟩ := read_steps hs ht
    exact hsteps.trans (ih t s' rest' hholds h)

theorem start_holds (core : Listener) (mem : Text) : (Buffered.start core mem).Holds 0 [] :=
  ⟨[], mem, rfl, rfl, rfl, by simp, by simp⟩

theorem steps_invariant {env : Env} (P : Listener → Prop)
    (hstep : ∀ s s', Listener.Step env s s' → P s → P s') {s s' : Listener}
    (h : Listener.Steps env s s') (hs : P s) : P s' := by
  induction h with
  | refl => exact hs
  | tail _ hlast ih => exact hstep _ _ hlast ih

/-- What every line end and every part write preserves holds throughout every run. -/
theorem listen_invariant {env : Env} {fuel : ℕ} (P : Listener → Prop)
    (hstep : ∀ s s', Listener.Step env s s' → P s → P s') {core : Listener} {mem : Text}
    {chunks : List Text} {s : Buffered} (hcore : P core)
    (h : listen env fuel (.start core mem) chunks = .ok s) : P s.core := by
  exact steps_invariant P hstep
    (listen_steps chunks (.start core mem) s [] (start_holds core mem) h) hcore

theorem step_records {env : Env} {s s' : Listener} (h : Listener.Step env s s') :
    s.records <+: s'.records := by
  cases h with
  | line _ _ h =>
    rw [lineEnd_eq] at h
    obtain ⟨hh, -, he⟩ := map_eq_ok_iff.mp h
    rw [← (Prod.mk.inj he).1]
    exact List.prefix_append _ _
  | lob => exact List.prefix_rfl

theorem steps_records {env : Env} {s s' : Listener} (h : Listener.Steps env s s') :
    s.records <+: s'.records := by
  induction h with
  | refl => exact List.prefix_rfl
  | tail _ hlast ih => exact ih.trans (step_records hlast)

end BinlogCapture
