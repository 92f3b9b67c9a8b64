import BinlogCapture.BytePipe
import BinlogCapture.Coverage
import BinlogCapture.Delivery
import BinlogCapture.OrderlyStop
import BinlogCapture.StatementText
import BinlogCapture.Lib.Simulation

/-! The threads over a pipe of bytes against the threads over a pipe of lines: a run of the first is
a run of the second, however the texts are cut into reads, as long as whole lines are printed that
fit the line buffer. -/
namespace BinlogCapture
open CString Fallible LineFeed Runs

/-- The bytes of the lines. -/
def texts (lines : List PrintedLine) : Text := unlines '\n' (lines.map PrintedLine.text)

section Printed
variable {dates : ℕ → DateText} {v w : World}

theorem texts_append (lines lines' : List PrintedLine) :
    texts (lines ++ lines') = texts lines ++ texts lines' := by
  rw [texts, List.map_append, unlines, List.flatMap_append]
  rfl

theorem texts_plainLines {t : Text} (h : Whole t) (ulIndex : ℕ) (name : Text) :
    texts (plainLines ulIndex name t) = t := by
  rw [texts, plainLines, List.map_map]
  exact (congrArg _ (List.map_id _)).trans (unlines_completeLines h)

theorem texts_headLines {t : Text} (h : Whole t) (ulIndex : ℕ) (name : Text) (source : Source) :
    texts (headLines ulIndex name source t) = t := by
  have hlines := unlines_completeLines h
  unfold texts headLines
  cases hl : completeLines t with
  | nil =>
    rw [hl] at hlines
    exact hlines
  | cons l ls =>
    rw [hl] at hlines
    simpa [Function.comp_def] using hlines

theorem Whole.of_append {t u : Text} (h : Whole (t ++ u)) (ht : Whole t) : Whole u := by
  rw [Whole, split_append, ht] at h
  exact h

theorem line_plainLines {ulIndex : ℕ} {name t : Text} :
    ∀ x ∈ plainLines ulIndex name t, '\n' ∉ x.text := by
  intro x hx
  obtain ⟨l, hl, rfl⟩ := List.mem_map.mp hx
  exact split_lines_not_mem '\n' (by simp) t l hl

theorem line_headLines {ulIndex : ℕ} {name t : Text} {source : Source} :
    ∀ x ∈ headLines ulIndex name source t, '\n' ∉ x.text := by
  have hlines : ∀ l ∈ completeLines t, '\n' ∉ l := split_lines_not_mem '\n' (by simp) t
  intro x hx
  unfold headLines at hx
  cases hl : completeLines t with
  | nil =>
    rw [hl] at hx
    cases hx
  | cons l ls =>
    rw [hl] at hx hlines
    rw [List.forall_mem_cons] at hlines
    rcases List.mem_cons.mp hx with rfl | hx
    · exact hlines.1
    · obtain ⟨l, hl, rfl⟩ := List.mem_map.mp hx
      exact hlines.2 l hl

/-- The lines are the text, and each of them is one line. -/
structure LinesOf (t : Text) (lines : List PrintedLine) : Prop where
  texts_eq : texts lines = t
  line : ∀ x ∈ lines, '\n' ∉ x.text

theorem LinesOf.append {t u : Text} {lines lines' : List PrintedLine} (h : LinesOf t lines)
    (h' : LinesOf u lines') : LinesOf (t ++ u) (lines ++ lines') where
  texts_eq := by rw [texts_append, h.texts_eq, h'.texts_eq]
  line := List.forall_mem_append.mpr ⟨h.line, h'.line⟩

theorem linesOf_nil : LinesOf [] [] := ⟨rfl, List.forall_mem_nil _⟩

theorem linesOf_plain {t : Text} (h : Whole t) (ulIndex : ℕ) (name : Text) :
    LinesOf t (plainLines ulIndex name t) := ⟨texts_plainLines h ulIndex name, line_plainLines⟩

theorem linesOf_head {t : Text} (h : Whole t) (ulIndex : ℕ) (name : Text) (source : Source) :
    LinesOf t (headLines ulIndex name source t) :=
  ⟨texts_headLines h ulIndex name source, line_headLines⟩

theorem LinesOf.completeLines_eq {t : Text} {lines : List PrintedLine} (h : LinesOf t lines) :
    completeLines t = lines.map PrintedLine.text := by
  have hlines : ∀ l ∈ lines.map PrintedLine.text, '\n' ∉ l := List.forall_mem_map.mpr h.line
  have hsplit := split_unlines '\n' hlines []
  rw [List.append_nil] at hsplit
  rw [← h.texts_eq, completeLines, texts, hsplit]
  exact List.append_nil _

theorem linesOf_event {ulIndex : ℕ} {info : PrintInfo} {pos : ℕ} {ev : LogEvent}
    (h : Whole (printEvent ulIndex info pos ev).2) (name : Text) :
    LinesOf (printEvent ulIndex info pos ev).2 (eventLines ulIndex name info pos ev) := by
  have hat : Whole (printAt pos) := whole_textLine _
  have hbefore := whole_printBefore info ev
  have hmarker := whole_marker ev pos ulIndex
  have hafter : Whole (printAfter (printBefore info ev).1 ev).2 :=
    Whole.of_append h ((hat.append hbefore).append hmarker)
  exact (((linesOf_head hat _ _ _).append (linesOf_plain hbefore _ _)).append
    (linesOf_head hmarker _ _ _)).append (linesOf_plain hafter _ _)

variable (dates) in
/-- `ReadJournal` prints a text as its lines. -/
theorem linesOf_journalStep (hpipe : v.pipe = []) (hwhole : Whole (v.printed dates))
    (h : v.journalStep dates = some w) : LinesOf (v.printed dates) w.pipe := by
  unfold World.printed at hwhole ⊢
  unfold World.journalStep at h
  cases hpc : v.pc with
  | loaded names =>
    rw [hpc] at h
    obtain rfl := Option.some.inj h
    unfold World.select
    dsimp only
    split <;> split <;> (dsimp only; rw [hpipe]; exact linesOf_nil)
  | named seq more =>
    rw [hpc] at h hwhole
    obtain rfl := Option.some.inj h
    unfold World.printFirst
    dsimp only
    rw [hpipe, List.nil_append]
    exact linesOf_head hwhole _ _ _
  | opening name pos more =>
    rw [hpc] at h hwhole
    obtain ⟨f, hf, rfl⟩ := Option.map_eq_some_iff.mp h
    simp only [hf] at hwhole ⊢
    have hfile : Whole (fileLine startBinlogTag f.name v.ulIndex) := whole_textLine _
    have hstart : Whole (unlines '\n' startLines) := plain_startLines.2
    have hrest := Whole.of_append hwhole (hfile.append hstart)
    unfold World.openFile
    dsimp only
    rw [hpipe, List.nil_append]
    exact ((linesOf_head hfile _ _ _).append (linesOf_plain hstart _ _)).append
      (linesOf_plain hrest _ _)
  | reading info name offset more =>
    rw [hpc] at h hwhole
    obtain ⟨f, hf, h⟩ := Option.bind_eq_some_iff.mp h
    simp only [hf] at hwhole ⊢
    unfold World.readEvent at h
    cases hfind : f.eventsAt.find? (·.1 = offset) with
    | some e =>
      simp only [hfind] at h hwhole ⊢
      obtain rfl := Option.some.inj h
      dsimp only
      rw [hpipe, List.nil_append]
      exact linesOf_event hwhole f.name
    | none =>
      simp only [hfind] at h hwhole ⊢
      split at h
      · obtain rfl := Option.some.inj h
        have hend : Whole (unlines '\n' endLines) := plain_endLines.2
        dsimp only
        rw [hpipe, List.nil_append]
        exact (linesOf_plain hend _ _).append (linesOf_head (Whole.of_append hwhole hend) _ _ _)
      · cases h
  | closing name =>
    rw [hpc] at h hwhole
    obtain rfl := Option.some.inj h
    dsimp only
    rw [hpipe, List.nil_append]
    exact linesOf_head hwhole _ _ _
  | waiting =>
    rw [hpc] at h
    dsimp only at h
    split at h
    · obtain rfl := Option.some.inj h
      dsimp only
      rw [hpipe]
      exact linesOf_nil
    · cases h
  | stopped =>
    rw [hpc] at h
    cases h
  | _ =>
    rw [hpc] at h
    obtain rfl := Option.some.inj h
    dsimp only
    rw [hpipe]
    exact linesOf_nil

end Printed

section Frame
variable {dates : ℕ → DateText} {v : World}

/-- The world with a pipe of lines in front, and with the state of its listener. -/
def World.within (v : World) (pipe taken : List PrintedLine) (loc : Locals) : World :=
  { v with pipe := pipe ++ v.pipe, taken := taken, loc := loc }

/-- `ReadJournal` does not look at the pipe, nor at the state of the listener. -/
theorem journalStep_within (hpipe : v.pipe = []) (pipe taken : List PrintedLine) (loc : Locals) :
    (v.within pipe taken loc).journalStep dates =
      (v.journalStep dates).map fun w => w.within pipe taken loc := by
  unfold World.journalStep
  cases hpc : v.pc with
  | top =>
    simp only [World.within, hpc, Option.map_some]
    rfl
  | loaded names =>
    simp only [World.within, hpc, Option.map_some, World.select]
    split <;> split <;> rfl
  | named seq more =>
    simp only [World.within, hpc, Option.map_some, World.printFirst, hpipe, List.append_nil,
      List.nil_append]
  | opening name pos more =>
    simp only [World.within, hpc, World.file, Option.map_map, World.openFile, hpipe,
      List.append_nil, List.nil_append, Function.comp_def, List.append_assoc]
  | reading info name offset more =>
    simp only [World.within, hpc, World.file, hpipe, List.append_nil]
    cases v.files.find? (·.name = name) with
    | none => rfl
    | some f =>
      simp only [Option.bind_some, World.readEvent, hpipe, List.nil_append]
      cases f.eventsAt.find? (·.1 = offset) with
      | some e => rfl
      | none =>
        dsimp only
        split <;> simp [List.append_assoc]
  | closing name =>
    simp only [World.within, hpc, Option.map_some, hpipe, List.append_nil, List.nil_append]
  | waiting =>
    simp only [World.within, hpc]
    split <;> rfl
  | stopped => simp only [World.within, hpc, Option.map_none]
  | ended name =>
    simp only [World.within, hpc, Option.map_some]
    rfl
  | _ => simp only [World.within, hpc, Option.map_some]

theorem step_within {turn : Turn} (hturn : turn ≠ .listener) (hpipe : v.pipe = [])
    (pipe taken : List PrintedLine) (loc : Locals) :
    World.step dates (v.within pipe taken loc) turn =
      (World.step dates v turn).map fun w => w.within pipe taken loc := by
  cases turn with
  | listener => exact absurd rfl hturn
  | journal => exact journalStep_within hpipe pipe taken loc
  | giveUp =>
    by_cases hwait : v.pc = .waiting ∧ v.shared.hEventEndOfBinlog = false <;>
      simp [World.step, World.within, hwait]
  | appendFile f =>
    have hnames : (v.within pipe taken loc).names = v.names := rfl
    unfold World.step
    dsimp only
    rw [hnames]
    by_cases hnew : f.name ≠ [] ∧ f.name ∉ v.names
    · rw [if_pos hnew, if_pos hnew]
      rfl
    · rw [if_neg hnew, if_neg hnew]
      rfl
  | appendEvents f =>
    simp only [World.step, World.within]
    cases v.files.getLast? with
    | none => rfl
    | some g =>
      by_cases hsame : f.name = g.name ∧ f.description = g.description ∧ g.events <+: f.events
      · simp only [Option.bind_some, if_pos hsame, Option.map_some]
      · simp only [Option.bind_some, if_neg hsame, Option.map_none]

/-- Only `ReadJournal` prints. -/
theorem pipe_step {w : World} {turn : Turn} (hjournal : turn ≠ .journal)
    (hlistener : turn ≠ .listener) (h : World.step dates v turn = some w) : w.pipe = v.pipe := by
  cases World.stepped h with
  | journal => exact absurd rfl hjournal
  | access | take => exact absurd rfl hlistener
  | _ => rfl

end Frame

section Lines
variable {env : Env} {s : Buffered}

theorem takeLine_plain {pre line post : Text}
    (hbuf : s.szBufferStdOut = pre ++ (line ++ '\n' :: post)) (hstart : s.startLine = pre.length)
    (hwork : s.work = pre.length + line.length) (hline : nul ∉ line) (hlob : s.fLob = false) :
    s.takeLine env = (s.core.lineTaken env (line ++ ['\n']) line).map fun p =>
      ({ s with
        core := p.1
        szBufferStdOut := pre ++ (line ++ nul :: post)
        work := s.work + 1
        startLine := s.work + 1 }, p.2.ops) := by
  have hentry : slice s.szBufferStdOut s.startLine (s.work + 1) = line ++ ['\n'] := by
    have h := slice_append pre (line ++ ['\n']) post
    simp only [List.append_assoc, List.singleton_append, List.length_append,
      List.length_singleton] at h
    rw [hbuf, hstart, hwork, Nat.add_assoc, h]
  have hpoke : poke s.szBufferStdOut s.work [nul] = pre ++ (line ++ nul :: post) := by
    rw [hbuf, hwork, ← List.append_assoc, poke_append (by simp)]
    simp
  have hstr : strAt (pre ++ (line ++ nul :: post)) s.startLine = line :=
    strAt_append hstart hline post
  simp only [Buffered.takeLine, hlob, hentry, hpoke, hstr, Bool.false_eq_true, ↓reduceIte,
    Bool.and_false, Bool.false_and]
  cases s.core.lineTaken env (line ++ ['\n']) line with
  | error e => rfl
  | ok p => rfl

theorem lineTaken_eq (core : Listener) (entry line : Text) :
    core.lineTaken env entry line =
      (handleLine core.shared.stBinLogSeq core.loc line).map fun h =>
        ({ core.writeLine env entry with loc := h.loc }, h) := by
  unfold Listener.lineTaken
  simp only [shared_writeLine, loc_writeLine]
  cases handleLine core.shared.stBinLogSeq core.loc line <;> rfl

/-- With the accesses done at once, it is the line feed of the listener that runs alone. -/
theorem lineFeed_eq_takeLine (env : Env) (s : Buffered) :
    (s.lineFeed env).map (fun s' => { s' with core.records := s.core.records }) =
      (s.takeLine env).map fun r => { r.1 with core.shared := s.core.shared.execAll r.2 } := by
  unfold Buffered.lineFeed Buffered.takeLine
  dsimp only
  rw [lineEnd_eq, lineTaken_eq]
  generalize strAt (poke _ _ _) _ = line
  cases handleLine s.core.shared.stBinLogSeq s.core.loc line with
  | error e => rfl
  | ok h =>
    have hrecords := records_writeLine env s.core (slice s.szBufferStdOut s.startLine (s.work + 1))
    change Except.ok _ = Except.ok _
    simp [hrecords]

/-- The bytes before a line feed that are no line are no more than the line. -/
theorem length_le_of_append_eq {p q x r : Text} (hp : '\n' ∉ p) (h : p ++ q = x ++ '\n' :: r) :
    p.length ≤ x.length := by
  rcases List.append_eq_append_iff.mp h with ⟨a, rfl, -⟩ | ⟨a, rfl, ha⟩
  · rw [List.length_append]
    omega
  · cases a with
    | nil => simp
    | cons c a =>
      obtain ⟨rfl, -⟩ := List.cons.inj ha
      simp at hp

end Lines

/-- Where the listener is in its line buffer: `rest` is the unfinished line, and `todo` has been
read but not looked at. -/
inductive BufferAt (env : Env) (b : ByteWorld) (rest todo : Text) : Prop where
  | ready (hscanning : b.scanning = false) (htodo : todo = [])
      (h : Ready env b.buffer b.buffer.core rest)
  | scanning (hscanning : b.scanning = true) (h : LineAt b.buffer b.buffer.core rest todo)
      (hroom : b.buffer.work + todo.length ≤ env.iMaxBufferLine)

/-- The bytes in the pipe and in the line buffer are those of the lines in the pipe, and the bytes
of the lines that are taken are in the capture, behind `captured`. -/
structure Represents (env : Env) (captured : Text) (b : ByteWorld) (w : World) : Prop where
  pipe : b.world.pipe = []
  world : w = b.world.within w.pipe w.taken w.loc
  loc : b.buffer.core.loc = w.loc
  capture : b.buffer.core.capture.listened = captured ++ texts w.taken
  line : ∀ x ∈ w.taken, '\n' ∉ x.text
  fits : ∀ x ∈ w.pipe, Fits env x.text
  buffer : ∃ rest todo, BufferAt env b rest todo ∧ '\n' ∉ rest ∧
    texts w.pipe = rest ++ (todo ++ b.pipe)

/-- What `ReadJournal` prints next are lines that fit the line buffer. -/
def World.PrintsLines (env : Env) (dates : ℕ → DateText) (w : World) : Turn → Prop
  | .journal => Whole (w.printed dates) ∧ ∀ l ∈ completeLines (w.printed dates), Fits env l
  | _ => True

section Simulation
variable {env : Env} {dates : ℕ → DateText} {captured : Text} {b b' : ByteWorld} {w : World}

theorem Represents.nul_not_mem (h : Represents env captured b w) : nul ∉ texts w.pipe :=
  nul_not_mem_unlines (List.forall_mem_map.mpr fun x hx => (h.fits x hx).1)

theorem Represents.files_eq (h : Represents env captured b w) : w.files = b.world.files := by
  rw [h.world]
  rfl

theorem Represents.shared_eq (h : Represents env captured b w) : w.shared = b.world.shared := by
  rw [h.world]
  rfl

theorem Represents.pending_eq (h : Represents env captured b w) : w.pending = b.world.pending := by
  rw [h.world]
  rfl

/-- A step that is not one of the listener, with the text that it prints. -/
theorem Represents.world_step (h : Represents env captured b w) {turn : Turn}
    (hturn : turn ≠ .listener) {v : World} (hv : World.step dates b.world turn = some v)
    {printed : Text} (hprinted : LinesOf printed v.pipe) (hfits : ∀ x ∈ v.pipe, Fits env x.text) :
    World.step dates w turn = some (v.within w.pipe w.taken w.loc) ∧
      Represents env captured { b with world := { v with pipe := [] }, pipe := b.pipe ++ printed }
        (v.within w.pipe w.taken w.loc) := by
  constructor
  · have hstep : World.step dates (b.world.within w.pipe w.taken w.loc) turn = _ :=
      step_within hturn h.pipe w.pipe w.taken w.loc
    rw [← h.world, hv] at hstep
    exact hstep
  · obtain ⟨rest, todo, hbuffer, hrest, htexts⟩ := h.buffer
    constructor
    · rfl
    · unfold World.within
      simp
    · exact h.loc
    · exact h.capture
    · exact h.line
    · exact List.forall_mem_append.mpr ⟨h.fits, hfits⟩
    · refine ⟨rest, todo, ?_, hrest, ?_⟩
      · cases hbuffer with
        | ready hscanning htodo hready => exact .ready hscanning htodo hready
        | scanning hscanning hline hroom => exact .scanning hscanning hline hroom
      · unfold World.within
        dsimp only
        rw [texts_append, htexts, hprinted.texts_eq]
        simp only [List.append_assoc]

/-- An access of the listener that is left to do. -/
theorem Represents.access (h : Represents env captured b w) {op : ThreadOp} {ops : List ThreadOp}
    (hpending : b.world.pending = op :: ops) :
    ∃ w', World.step dates w .listener = some w' ∧
      Represents env captured
        { b with world := { b.world with
            shared := (op.exec b.world.shared).1
            pending := (op.exec b.world.shared).2 ++ ops } } w' := by
  refine ⟨{ w with shared := (op.exec w.shared).1, pending := (op.exec w.shared).2 ++ ops }, ?_, ?_⟩
  · simp only [World.step, World.listenerStep, h.pending_eq, hpending]
  · obtain ⟨rest, todo, hbuffer, hrest, htexts⟩ := h.buffer
    constructor
    · exact h.pipe
    · rw [h.shared_eq]
      conv_lhs => rw [h.world]
      rfl
    · exact h.loc
    · exact h.capture
    · exact h.line
    · exact h.fits
    · refine ⟨rest, todo, ?_, hrest, htexts⟩
      cases hbuffer with
      | ready hscanning htodo hready => exact .ready hscanning htodo hready
      | scanning hscanning hline hroom => exact .scanning hscanning hline hroom

/-- A read changes nothing that the lines tell. -/
theorem Represents.read (h : Represents env captured b w) {n : ℕ} (hscanning : b.scanning = false)
    (hb : b.read n = some b') : Represents env captured b' w := by
  unfold ByteWorld.read at hb
  dsimp only at hb
  split at hb
  · next hn =>
    obtain rfl := Option.some.inj hb
    obtain ⟨rest, todo, hbuffer, hrest, htexts⟩ := h.buffer
    cases hbuffer with
    | scanning htrue => simp [hscanning] at htrue
    | ready _ htodo hready =>
      obtain ⟨-, ⟨pre, tail, hbuf, hstart, hstop⟩, hlob, hroom⟩ := hready
      constructor
      · exact h.pipe
      · exact h.world
      · exact h.loc
      · exact h.capture
      · exact h.line
      · exact h.fits
      · have hsplit := List.prefix_iff_eq_append.mp
          ((piped_isPrefix (b.pipe.take n)).trans (List.take_prefix n b.pipe))
        have hlen := (piped_isPrefix (b.pipe.take n)).length_le
        refine ⟨rest, piped (b.pipe.take n), .scanning rfl ?_ ?_, hrest, ?_⟩
        · refine ⟨rfl, ⟨pre, tail.drop ((piped (b.pipe.take n)).length + 1), ?_, hstart, hstop⟩,
            hlob⟩
          dsimp only
          rw [hbuf, ← List.append_assoc, poke_append (by simp [hstop])]
          simp
        · dsimp only
          rw [List.length_take] at hlen
          omega
        · dsimp only
          rw [hsplit, htexts, htodo, List.nil_append]
  · cases hb

/-- The line whose feed is next is the first line in the pipe. -/
theorem Represents.next_line (h : Represents env captured b w) {rest seg todo : Text}
    (hrest : '\n' ∉ rest) (hseg : '\n' ∉ seg)
    (htexts : texts w.pipe = rest ++ (seg ++ '\n' :: todo ++ b.pipe)) :
    ∃ x pipe, w.pipe = x :: pipe ∧ x.text = rest ++ seg ∧ texts pipe = todo ++ b.pipe := by
  cases hpipe : w.pipe with
  | nil =>
    rw [hpipe] at htexts
    simp [texts] at htexts
  | cons x pipe =>
    have hx := (h.fits x (by rw [hpipe]; exact List.mem_cons_self)).2.1
    have hline : '\n' ∉ rest ++ seg := by simp [hrest, hseg]
    have hcons : x.text ++ '\n' :: texts pipe = (rest ++ seg) ++ '\n' :: (todo ++ b.pipe) := by
      rw [hpipe, texts, List.map_cons, unlines_cons] at htexts
      simpa [texts] using htexts
    obtain ⟨htext, hmore⟩ := append_sep_injective '\n' hx hline hcons
    exact ⟨x, pipe, rfl, htext, hmore⟩

/-- The bytes of a line that is not complete leave room for two reads. -/
theorem Represents.pending_short (h : Represents env captured b w)
    (henv : 2 * iLenBufferOut ≤ env.iMaxBufferLine) {rest more : Text} (hrest : '\n' ∉ rest)
    (htexts : texts w.pipe = rest ++ more) :
    rest.length + 2 * iLenBufferOut ≤ env.iMaxBufferLine := by
  cases hpipe : w.pipe with
  | nil =>
    rw [hpipe] at htexts
    obtain rfl : rest = [] := (List.append_eq_nil_iff.mp htexts.symm).1
    simpa using henv
  | cons x pipe =>
    have hfits := (h.fits x (by rw [hpipe]; exact List.mem_cons_self)).2.2
    rw [hpipe, texts, List.map_cons, unlines_cons] at htexts
    have hle := length_le_of_append_eq hrest htexts.symm
    omega

/-- Without a line feed in what is read, the unfinished line stays in the buffer. -/
theorem Represents.scan_end (h : Represents env captured b w)
    (henv : 2 * iLenBufferOut ≤ env.iMaxBufferLine) {rest todo : Text}
    (hline : LineAt b.buffer b.buffer.core rest todo)
    (hroom : b.buffer.work + todo.length ≤ env.iMaxBufferLine) (hn : '\n' ∉ rest ++ todo)
    (htexts : texts w.pipe = rest ++ (todo ++ b.pipe)) :
    Represents env captured { b with
      buffer := Buffered.refill env { b.buffer with work := b.buffer.work + todo.length }
      scanning := false } w := by
  obtain ⟨-, ⟨pre, tail, hbuf, hstart, hwork⟩, hlob⟩ := hline
  have htexts' : texts w.pipe = (rest ++ todo) ++ b.pipe := by rw [htexts, List.append_assoc]
  have hnul : nul ∉ rest ++ todo := by
    have hnul := h.nul_not_mem
    rw [htexts', List.mem_append, not_or] at hnul
    exact hnul.1
  have hat : LineAt { b.buffer with work := b.buffer.work + todo.length } b.buffer.core
      (rest ++ todo) [] := by
    refine ⟨rfl, ⟨pre, tail, ?_, hstart, ?_⟩, hlob⟩
    · simp [hbuf]
    · simp [hwork, Nat.add_assoc]
  have hready := refill_plain hat (by simpa using hnul) hroom (h.pending_short henv hn htexts')
  have hcore := hready.core_eq
  constructor
  · exact h.pipe
  · exact h.world
  · dsimp only
    rw [hcore]
    exact h.loc
  · dsimp only
    rw [hcore]
    exact h.capture
  · exact h.line
  · exact h.fits
  · refine ⟨rest ++ todo, [], .ready rfl rfl ?_, hn, htexts'⟩
    dsimp only
    rw [hcore]
    exact hready

/-- The loop over the bytes takes the next line, or ends. -/
theorem Represents.scan (h : Represents env captured b w)
    (henv : 2 * iLenBufferOut ≤ env.iMaxBufferLine) (hpending : b.world.pending = [])
    (hscanning : b.scanning = true) (hb : b.scan env = some b') :
    ∃ w', (w' = w ∨ World.step dates w .listener = some w') ∧ Represents env captured b' w' := by
  obtain ⟨rest, todo, hbuffer, hrest, htexts⟩ := h.buffer
  have hnul := h.nul_not_mem
  rw [htexts] at hnul
  simp only [List.mem_append, not_or] at hnul
  cases hbuffer with
  | ready hfalse => simp [hscanning] at hfalse
  | scanning _ hline hroom =>
    have hend := fun hn => h.scan_end henv hline hroom hn htexts
    obtain ⟨-, ⟨pre, tail, hbuf, hstart, hwork⟩, hlob⟩ := hline
    have htodo : strAt b.buffer.szBufferStdOut b.buffer.work = todo := by
      rw [hbuf, ← List.append_assoc, strAt_append (by simp [hwork]) hnul.2.1]
    have hterm : b.buffer.Terminated := by
      apply terminated_of_eq (p := pre ++ rest) (t := todo) (u := tail)
      · rw [hbuf, List.append_assoc]
      · rw [hwork, List.length_append]
    unfold ByteWorld.scan at hb
    simp only [if_pos hterm, htodo] at hb
    cases hfeed : strchr '\n' todo with
    | none =>
      simp only [hfeed] at hb
      obtain rfl := Option.some.inj hb
      have hn : '\n' ∉ rest ++ todo := by simp [hrest, strchr_eq_none_iff.mp hfeed]
      exact ⟨w, .inl rfl, hend hn⟩
    | some r =>
      obtain ⟨seg, todo'⟩ := r
      obtain ⟨rfl, hseg⟩ := strchr_eq_some hfeed
      obtain ⟨x, pipe, hpipe, hx, hmore⟩ := h.next_line hrest hseg htexts
      have hlinenul : nul ∉ rest ++ seg := by
        simp only [List.mem_append, not_or] at hnul
        simp [hnul.1, hnul.2.1.1]
      have htake : Buffered.takeLine env _ = _ := takeLine_plain (s := { b.buffer with
          core := { b.buffer.core with shared := b.world.shared }
          work := b.buffer.work + seg.length })
        (show b.buffer.szBufferStdOut = pre ++ ((rest ++ seg) ++ '\n' :: (todo' ++ nul :: tail)) by
          simp [hbuf]) hstart (by simp [hwork, Nat.add_assoc]) hlinenul hlob
      rw [lineTaken_eq] at htake
      simp only [hfeed, htake] at hb
      cases hhandle : handleLine b.world.shared.stBinLogSeq b.buffer.core.loc (rest ++ seg) with
      | error e =>
        simp only [hhandle] at hb
        cases hb
      | ok hh =>
        simp only [hhandle] at hb
        obtain rfl := Option.some.inj hb
        refine ⟨{ w with
          pipe := pipe, loc := hh.loc, pending := hh.ops.map .op, taken := w.taken ++ [x] },
          .inr ?_, ?_⟩
        · rw [World.step, World.listenerStep]
          simp only [h.pending_eq, hpending, hpipe, h.shared_eq, ← h.loc, hx, hhandle]
        · constructor
          · exact h.pipe
          · conv_lhs => rw [h.world]
            unfold World.within
            simp [h.pipe]
          · rfl
          · dsimp only
            rw [listened_writeLine, h.capture, texts_append, List.append_assoc, texts, ← hx]
            simp [texts]
          · have hx := (h.fits x (by rw [hpipe]; exact List.mem_cons_self)).2.1
            exact List.forall_mem_append.mpr ⟨h.line, List.forall_mem_singleton.mpr hx⟩
          · intro y hy
            exact h.fits y (by rw [hpipe]; exact List.mem_cons_of_mem _ hy)
          · refine ⟨[], todo', .scanning hscanning ?_ ?_, by simp, hmore⟩
            · refine ⟨rfl, ⟨pre ++ ((rest ++ seg) ++ [nul]), tail, ?_, ?_, ?_⟩, hlob⟩
              · simp
              · simp [hwork]
                omega
              · simp [hwork]
                omega
            · simp only [List.length_append, List.length_cons] at hroom ⊢
              omega

/-- Each step of the threads over bytes is a step over lines, or none: a condition on the step that
looks at the binlogs alone is one on both. -/
theorem simulates_lines (henv : 2 * iLenBufferOut ≤ env.iMaxBufferLine)
    {cond : World → Turn → Prop}
    (hfiles : ∀ v w turn, v.files = w.files → cond v turn → cond w turn) :
    Simulates (ByteWorld.step env dates) (World.step dates)
      (fun b t => cond b.world t.1 ∧ b.world.PrintsLines env dates t.1) cond
      (Represents env captured) := by
  rintro b b' w ⟨turn, n⟩ h ⟨hcond, hprints⟩ hb
  have hw : cond w turn := hfiles b.world w turn h.files_eq.symm hcond
  have hquiet : ∀ {turn}, turn ≠ .journal → turn ≠ .listener → cond w turn → ∀ {v},
      World.step dates b.world turn = some v → ∃ w', Answers (World.step dates) cond w w' ∧
        Represents env captured
          { b with world := { v with pipe := [] }, pipe := b.pipe ++ [] } w' := by
    intro turn hjournal hlistener hw v hv
    have hnone : v.pipe = [] := (pipe_step hjournal hlistener hv).trans h.pipe
    obtain ⟨hstep, hrel⟩ := h.world_step hlistener hv (hnone ▸ linesOf_nil)
      (by rw [hnone]; exact List.forall_mem_nil _)
    exact ⟨_, .step hw hstep, hrel⟩
  cases turn with
  | listener =>
    unfold ByteWorld.step ByteWorld.listenerStep at hb
    cases hpending : b.world.pending with
    | cons op ops =>
      rw [hpending] at hb
      obtain rfl := Option.some.inj hb
      obtain ⟨w', hstep, hrel⟩ := h.access hpending
      exact ⟨w', .step hw hstep, hrel⟩
    | nil =>
      rw [hpending] at hb
      dsimp only at hb
      split at hb
      · next hscanning =>
        obtain ⟨w', rfl | hstep, hrel⟩ := h.scan henv hpending hscanning hb
        · exact ⟨w', .stay, hrel⟩
        · exact ⟨w', .step hw hstep, hrel⟩
      · next hscanning => exact ⟨w, .stay, h.read (by simpa using hscanning) hb⟩
  | journal =>
    obtain ⟨v, hv, rfl⟩ := Option.map_eq_some_iff.mp hb
    obtain ⟨hwhole, hfits⟩ := hprints
    have hlines := linesOf_journalStep dates h.pipe hwhole hv
    rw [hlines.completeLines_eq] at hfits
    obtain ⟨hstep, hrel⟩ := h.world_step Turn.noConfusion hv hlines (List.forall_mem_map.mp hfits)
    exact ⟨_, .step hw hstep, hrel⟩
  | giveUp =>
    obtain ⟨v, hv, rfl⟩ := Option.map_eq_some_iff.mp hb
    exact hquiet Turn.noConfusion Turn.noConfusion hw hv
  | appendFile f =>
    obtain ⟨v, hv, rfl⟩ := Option.map_eq_some_iff.mp hb
    exact hquiet Turn.noConfusion Turn.noConfusion hw hv
  | appendEvents f =>
    obtain ⟨v, hv, rfl⟩ := Option.map_eq_some_iff.mp hb
    exact hquiet Turn.noConfusion Turn.noConfusion hw hv

/-- The state in which the threads begin. -/
structure ByteWorld.Begins (b : ByteWorld) : Prop where
  world : b.world.Begins
  pipe : b.pipe = []
  scanning : b.scanning = false
  buffer : ∃ core mem, b.buffer = .start core mem ∧ core.loc = {} ∧ core.capture.listened = []

theorem ByteWorld.Begins.represents (h : b.Begins) (henv : 2 * iLenBufferOut ≤ env.iMaxBufferLine) :
    Represents env [] b b.world := by
  obtain ⟨core, mem, hbuffer, hloc, hlistened⟩ := h.buffer
  constructor
  · exact h.world.pipe
  · unfold World.within
    rw [h.world.pipe, List.append_nil, ← h.world.pipe]
  · rw [hbuffer, h.world.loc]
    exact hloc
  · rw [hbuffer, h.world.taken]
    exact hlistened
  · rw [h.world.taken]
    exact List.forall_mem_nil _
  · rw [h.world.pipe]
    exact List.forall_mem_nil _
  · refine ⟨[], [], .ready h.scanning rfl ?_, by simp, ?_⟩
    · rw [hbuffer]
      exact ready_start core mem (by omega)
    · rw [h.world.pipe, h.pipe]
      rfl

/-- Every run of the threads over bytes is a run over lines, however the bytes are cut into reads,
when whole lines are printed that fit the line buffer. -/
theorem runs_over_lines (henv : 2 * iLenBufferOut ≤ env.iMaxBufferLine) (dates : ℕ → DateText)
    (cond : World → Turn → Prop)
    (hfiles : ∀ v w turn, v.files = w.files → cond v turn → cond w turn) {b₀ b : ByteWorld}
    (h₀ : b₀.Begins) (hrun : Run (ByteWorld.step env dates)
      (fun b t => cond b.world t.1 ∧ b.world.PrintsLines env dates t.1) b₀ b) :
    ∃ w, Run (World.step dates) cond b₀.world w ∧ Represents env [] b w :=
  Simulates.run (simulates_lines henv hfiles) (h₀.represents henv) hrun

/-- A first line of the marker of the event is one of the lines that are captured. -/
def CapturedLine (captured : Text) (e : ℕ × LogEvent) : Prop :=
  ∃ ulIndex, ∃ l ∈ completeLines captured,
    (completeLines ((e.2.marker e.1 ulIndex).getD [])).head? = some l

/-- Every event that a position has passed is captured in the bytes that are written. -/
def ByteWorld.AtLeastOnce (b : ByteWorld) : Prop :=
  ∀ q, q = b.world.shared.stBinLogSeq ∨ q = b.world.shared.stBinLogSeqInProgess ∨
      b.world.shared.persisted = some q →
    ∀ f ∈ b.world.files, ∀ e ∈ f.eventsAt, (e.2.marker e.1 0).isSome = true →
      AtOrBefore b.world.names b.world.origin.place ⟨f.name, e.1⟩ →
      AtOrBefore b.world.names ⟨f.name, e.2.logPos⟩ q.place →
      CapturedLine b.buffer.core.capture.listened e

theorem Represents.atLeastOnce (h : Represents env [] b w) (hw : w.AtLeastOnce) :
    b.AtLeastOnce := by
  have horigin : w.origin = b.world.origin := by
    rw [h.world]
    rfl
  intro q hq f hf e he hmarker hfrom hto
  rw [← h.shared_eq] at hq
  unfold World.names at hfrom hto
  rw [← h.files_eq] at hf hfrom hto
  rw [← horigin] at hfrom
  obtain ⟨x, hx, -, -, hfirst⟩ := hw q hq f hf e he hmarker hfrom hto
  refine ⟨x.ulIndex, x.text, ?_, hfirst⟩
  have hlines : LinesOf (texts w.taken) w.taken := ⟨rfl, h.line⟩
  rw [h.capture, List.nil_append, hlines.completeLines_eq]
  exact List.mem_map_of_mem hx

theorem plain_of_files : ∀ v w : World, ∀ _ : Turn, v.files = w.files → v.Plain → w.Plain := by
  intro v w _ hfiles h
  unfold World.Plain at h ⊢
  rwa [← hfiles]

/-- Over binlogs without a text that looks like a marker and with lines that fit, whatever the two
threads do and however the listener is given the bytes, every event that a position has passed is in
the bytes it has written. -/
theorem bytes_atLeastOnce (henv : 2 * iLenBufferOut ≤ env.iMaxBufferLine) (dates : ℕ → DateText)
    {b₀ b : ByteWorld} (h₀ : b₀.Begins) (hrun : Run (ByteWorld.step env dates)
      (fun b t => b.world.Plain ∧ b.world.PrintsLines env dates t.1) b₀ b) : b.AtLeastOnce := by
  obtain ⟨w, hw, hrel⟩ :=
    Simulates.run (simulates_lines henv plain_of_files) (h₀.represents henv) hrun
  have hsound := hw.invariant World.Sound (fun _ _ _ hs hplain hst => hs.step hplain hst)
    h₀.world.sound
  exact hrel.atLeastOnce hsound.atLeastOnce

end Simulation

section Statement

instance (t : Text) : Decidable (Whole t) := inferInstanceAs (Decidable (_ = _))

instance (env : Env) (l : Text) : Decidable (Fits env l) := inferInstanceAs (Decidable (_ ∧ _))

/-- The threads go on over binlogs that stay as they are. -/
def Goes (env : Env) (dates : ℕ → DateText) (b : ByteWorld) (t : Turn × ℕ) : Prop :=
  t.1.OfThread ∧ b.world.PrintsLines env dates t.1

instance (env : Env) (dates : ℕ → DateText) (b : ByteWorld) (t : Turn × ℕ) :
    Decidable (Goes env dates b t) :=
  match t with
  | (.journal, _) => decidable_of_iff (Whole (b.world.printed dates) ∧
      ∀ l ∈ completeLines (b.world.printed dates), Fits env l) ⟨fun h => ⟨trivial, h⟩, And.right⟩
  | (.giveUp, _) | (.listener, _) => .isTrue ⟨trivial, trivial⟩
  | (.appendEvents _, _) | (.appendFile _, _) => .isFalse fun h => h.1

theorem files_byteStep {env : Env} {dates : ℕ → DateText} {b b' : ByteWorld} {t : Turn × ℕ}
    (ht : t.1.OfThread) (h : b.step env dates t = some b') : b'.world.files = b.world.files := by
  obtain ⟨turn, n⟩ := t
  cases turn with
  | appendEvents | appendFile => exact ht.elim
  | journal =>
    obtain ⟨v, hv, rfl⟩ := Option.map_eq_some_iff.mp h
    have hfiles : v.files = b.world.files := files_step (show Turn.OfThread .journal from ht) hv
    exact hfiles
  | giveUp =>
    obtain ⟨v, hv, rfl⟩ := Option.map_eq_some_iff.mp h
    have hfiles : v.files = b.world.files := files_step (show Turn.OfThread .giveUp from ht) hv
    exact hfiles
  | listener =>
    unfold ByteWorld.step ByteWorld.listenerStep ByteWorld.scan ByteWorld.read at h
    cases hpending : b.world.pending with
    | cons op ops =>
      rw [hpending] at h
      obtain rfl := Option.some.inj h
      rfl
    | nil =>
      rw [hpending] at h
      dsimp only at h
      split at h
      · split at h
        · split at h
          · obtain rfl := Option.some.inj h
            rfl
          · split at h
            · cases h
            · obtain rfl := Option.some.inj h
              rfl
        · cases h
      · split at h
        · obtain rfl := Option.some.inj h
          rfl
        · cases h

def ByteWorld.start (f : BinlogFile) : ByteWorld where
  world := .start f
  pipe := []
  buffer := .start { (Listener.initial .default) with capture := .empty } []
  scanning := false

theorem ByteWorld.begins_start (f : BinlogFile) (hf : f.name ≠ []) :
    (ByteWorld.start f).Begins where
  world := BinlogCapture.begins_start f hf
  pipe := rfl
  scanning := rfl
  buffer := ⟨_, _, rfl, rfl, rfl⟩

/-- The statement is printed, and read with a cut inside a line. -/
def byteSteps : List (Turn × ℕ) :=
  List.replicate 9 (.journal, 0) ++ List.replicate 7 (.listener, 100) ++
    List.replicate 11 (.listener, 255)

theorem execIf_byteSteps : ∃ b, execIf (ByteWorld.step .default fun _ => someDate)
    (Goes .default fun _ => someDate) (.start (statementFile "drop table t".toList)) byteSteps =
      some b ∧ b.world.shared.persisted = some ⟨firstName, 300, 0⟩ := by
  have h : ((execIf (ByteWorld.step .default fun _ => someDate) (Goes .default fun _ => someDate)
      (.start (statementFile "drop table t".toList)) byteSteps).map
        fun b => b.world.shared.persisted) = some (some ⟨firstName, 300, 0⟩) := by
    decide +kernel
  exact Option.map_eq_some_iff.mp h

theorem run_byteSteps {b : ByteWorld} (h : execIf (ByteWorld.step .default fun _ => someDate)
    (Goes .default fun _ => someDate) (.start (statementFile "drop table t".toList)) byteSteps =
      some b) : Run (ByteWorld.step .default fun _ => someDate)
        (fun b t => b.world.Plain ∧ b.world.PrintsLines .default (fun _ => someDate) t.1)
        (.start (statementFile "drop table t".toList)) b := by
  apply Run.strengthen (fun b => b.world.files = [statementFile "drop table t".toList]) _ _ rfl
    (Run.execIf .start h)
  · intro b t b' hfiles hgoes hstep
    exact (files_byteStep hgoes.1 hstep).trans hfiles
  · intro b t hfiles hgoes
    refine ⟨?_, hgoes.2⟩
    rw [World.Plain, hfiles]
    exact plain_statementFile (by decide) (by decide)

theorem bytes_atLeastOnce_statement : ∃ b : ByteWorld,
    b.world.shared.persisted = some ⟨firstName, 300, 0⟩ ∧ b.AtLeastOnce := by
  obtain ⟨b, hb, hsaved⟩ := execIf_byteSteps
  exact ⟨b, hsaved, bytes_atLeastOnce (by decide) (fun _ => someDate)
    (ByteWorld.begins_start _ (by decide)) (run_byteSteps hb)⟩

theorem runs_over_lines_statement : ∃ b w, b.world.shared.persisted = some ⟨firstName, 300, 0⟩ ∧
    Run (World.step fun _ => someDate) (fun w _ => w.Plain)
      (World.start (statementFile "drop table t".toList)) w ∧ Represents .default [] b w := by
  obtain ⟨b, hb, hsaved⟩ := execIf_byteSteps
  obtain ⟨w, hw, hrel⟩ := runs_over_lines (by decide) (fun _ => someDate) (fun w _ => w.Plain)
    plain_of_files (ByteWorld.begins_start _ (by decide)) (run_byteSteps hb)
  exact ⟨b, w, hsaved, hw, hrel⟩

end Statement

end BinlogCapture
