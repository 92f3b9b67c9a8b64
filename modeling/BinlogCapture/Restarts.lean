import BinlogCapture.AtMostOnce
import BinlogCapture.WriteAhead
import BinlogCapture.XaiFile
import Mathlib.Logic.Relation

/-! Restarts: a process begins at the position that the one before it has left in the XAI file. No
position is inside an event, so nothing is lost between what two processes capture. -/
namespace BinlogCapture
open CString Fallible LineFeed Runs Histories

/-- The offset is in the file, and no event begins in front of it and ends behind it. -/
structure BinlogFile.Cuts (f : BinlogFile) (pos : ℕ) : Prop where
  le_size : pos ≤ f.size
  outside : ∀ e ∈ f.eventsAt, e.2.logPos ≤ pos ∨ pos ≤ e.1

/-- The place is between the events of a binlog. -/
def AtCut (files : List BinlogFile) (p : BinLogInfo) : Prop :=
  ∃ f ∈ files, f.name = p.szBinLogName ∧ f.Cuts p.ulPosition

section Cuts
variable {f : BinlogFile} {e : ℕ × LogEvent}

theorem BinlogFile.cuts_header (f : BinlogFile) : f.Cuts binLogHeaderSize where
  le_size := f.header_le_size
  outside _ he := .inr (f.event_bounds he).1

theorem BinlogFile.cuts_size (f : BinlogFile) : f.Cuts f.size where
  le_size := le_rfl
  outside _ he := .inl (f.event_bounds he).2.2

theorem BinlogFile.cuts_start (f : BinlogFile) (he : e ∈ f.eventsAt) : f.Cuts e.1 := by
  obtain ⟨-, hlt, hend⟩ := f.event_bounds he
  constructor
  · omega
  · intro d hd
    rcases f.events_disjoint hd he with rfl | hfront | hbehind
    · exact .inr le_rfl
    · exact .inl hfront
    · exact .inr (by omega)

theorem BinlogFile.cuts_end (f : BinlogFile) (he : e ∈ f.eventsAt) : f.Cuts e.2.logPos := by
  obtain ⟨-, hlt, hend⟩ := f.event_bounds he
  constructor
  · exact hend
  · intro d hd
    rcases f.events_disjoint hd he with rfl | hfront | hbehind
    · exact .inl le_rfl
    · exact .inl (by omega)
    · exact .inr hbehind

end Cuts

section Places
variable {files files' : List BinlogFile} {origin p q : BinLogInfo}
  {lines lines' : List PrintedLine}

theorem AtCut.within (h : AtCut files p) : Within files p := by
  obtain ⟨f, hf, hname, hcuts⟩ := h
  exact ⟨f, hf, hname, hcuts.le_size⟩

/-- What the server appends begins behind the end of its file. -/
theorem AtCut.grow (hgrows : Grows files files') (hnodup : (files.map BinlogFile.name).Nodup)
    (h : AtCut files p) : AtCut files' p := by
  obtain ⟨f, hf, hname, hcuts⟩ := h
  obtain ⟨f', hf', hname', hsize⟩ := hgrows.old f hf
  refine ⟨f', hf', hname'.trans hname, hcuts.le_size.trans hsize, fun e he => ?_⟩
  have hmem : f'.name ∈ files.map BinlogFile.name := by
    rw [hname']
    exact List.mem_map_of_mem hf
  obtain ⟨g, hg, hgname, hev⟩ := hgrows.events f' hf' e he hmem
  obtain rfl := eq_of_name hnodup hg hf (hgname.trans hname')
  rcases hev with hev | ⟨hbehind, -⟩
  · exact hcuts.outside e hev
  · exact .inr (hcuts.le_size.trans hbehind)

/-- What is captured up to a place between two events, and from there on. -/
theorem Covers.append (h : Covers files origin lines p) (hp : AtCut files p)
    (hnodup : (files.map BinlogFile.name).Nodup) (h' : Covers files p lines' q) :
    Covers files origin (lines ++ lines') q := by
  obtain ⟨g, hg, hname, hcuts⟩ := hp
  have hpmem : p.szBinLogName ∈ files.map BinlogFile.name := hname ▸ List.mem_map_of_mem hg
  intro f hf e he hm ho hq
  have hfmem : f.name ∈ files.map BinlogFile.name := List.mem_map_of_mem hf
  have hfront : AtOrBefore (files.map BinlogFile.name) ⟨f.name, e.2.logPos⟩ p →
      ∃ x ∈ lines ++ lines', x.IsMarker f.name e := by
    intro hle
    obtain ⟨x, hx, hmarker⟩ := h f hf e he hm ho hle
    exact ⟨x, List.mem_append_left _ hx, hmarker⟩
  have hbehind : AtOrBefore (files.map BinlogFile.name) p ⟨f.name, e.1⟩ →
      ∃ x ∈ lines ++ lines', x.IsMarker f.name e := by
    intro hle
    obtain ⟨x, hx, hmarker⟩ := h' f hf e he hm hle hq
    exact ⟨x, List.mem_append_right _ hx, hmarker⟩
  rcases Nat.lt_trichotomy ((files.map BinlogFile.name).idxOf f.name)
    ((files.map BinlogFile.name).idxOf p.szBinLogName) with hlt | heq | hgt
  · exact hfront ⟨hpmem, .inl hlt⟩
  · have hfp : f.name = p.szBinLogName := (List.idxOf_inj hfmem).mp heq
    obtain rfl := eq_of_name hnodup hg hf (hname.trans hfp.symm)
    rcases hcuts.outside e he with hle | hle
    · exact hfront ⟨hpmem, .inr ⟨hfp, hle⟩⟩
    · exact hbehind ⟨hfmem, .inr ⟨hfp.symm, hle⟩⟩
  · exact hbehind ⟨hfmem, .inl hgt⟩

end Places

/-- The positions that an access holds that is left. -/
def ThreadOp.held : ThreadOp → List BinLogSequence
  | .op (.setInProgess seq) | .writeXai seq | .writeSeq seq => [seq]
  | .op (.resetUnlessFirst name) => [⟨name, binLogHeaderSize, 0⟩]
  | _ => []

def JournalPc.held : JournalPc → List BinLogSequence
  | .status seq | .found seq _ | .cleared seq _ | .named seq _ | .begun seq _ => [seq]
  | .copying seq => [seq]
  | .opening name pos _ | .reading _ name pos _ => [⟨name, pos, 0⟩]
  | _ => []

/-- Every position has the property that a variable holds, `ReadJournal` or the listener has still
to use, or a line of the pipe moves the listener to. -/
structure World.Holds (P : BinLogInfo → Prop) (w : World) : Prop where
  seq : P w.shared.stBinLogSeq.place
  inProgess : P w.shared.stBinLogSeqInProgess.place
  xai : ∀ q ∈ w.shared.xai, P q.place
  pending : ∀ op ∈ w.pending, ∀ q ∈ op.held, P q.place
  lines : ∀ first, ∀ q ∈ targets first (nameOf w.taken) (w.pipe.map PrintedLine.action), P q.place
  pc : ∀ q ∈ w.pc.held, P q.place

section Steps
variable {P Q : BinLogInfo → Prop} {w w' : World}

theorem World.Holds.grow (h : w.Holds P) (hPQ : ∀ p, P p → Q p) (files : List BinlogFile) :
    World.Holds Q { w with files := files } where
  seq := hPQ _ h.seq
  inProgess := hPQ _ h.inProgess
  xai q hq := hPQ _ (h.xai q hq)
  pending op hop q hq := hPQ _ (h.pending op hop q hq)
  lines first q hq := hPQ _ (h.lines first q hq)
  pc q hq := hPQ _ (h.pc q hq)

/-- An access copies positions. -/
theorem World.Holds.access (h : w.Holds P) {op : ThreadOp} {ops : List ThreadOp}
    (hpending : w.pending = op :: ops) :
    World.Holds P { w with
      shared := (op.exec w.shared).1, pending := (op.exec w.shared).2 ++ ops } := by
  have hall := h.pending
  rw [hpending, List.forall_mem_cons] at hall
  obtain ⟨hop, hops⟩ := hall
  have hin := h.inProgess
  have hkeep : ∀ {g : Shared} {more : List ThreadOp}, op.exec w.shared = (g, more) →
      P g.stBinLogSeq.place → P g.stBinLogSeqInProgess.place → (∀ q ∈ g.xai, P q.place) →
      (∀ op ∈ more, ∀ q ∈ op.held, P q.place) →
      World.Holds P { w with
        shared := (op.exec w.shared).1, pending := (op.exec w.shared).2 ++ ops } := by
    intro g more hexec hseq hin hxai hmore
    rw [hexec]
    exact ⟨hseq, hin, hxai, List.forall_mem_append.mpr ⟨hmore, hops⟩, h.lines, h.pc⟩
  cases op with
  | op op =>
    cases op with
    | setInProgess seq =>
      exact hkeep rfl h.seq (hop seq (List.mem_singleton_self _)) h.xai (List.forall_mem_nil _)
    | saveInDisk idx =>
      refine hkeep rfl h.seq h.inProgess h.xai (List.forall_mem_singleton.mpr ?_)
      exact List.forall_mem_singleton.mpr hin
    | resetUnlessFirst name =>
      refine hkeep rfl h.seq h.inProgess h.xai ?_
      split
      · exact List.forall_mem_singleton.mpr hop
      · exact List.forall_mem_nil _
    | publishIfLast name =>
      refine hkeep rfl h.seq h.inProgess h.xai ?_
      split
      · simp [ThreadOp.held]
      · exact List.forall_mem_nil _
    | _ => exact hkeep rfl h.seq h.inProgess h.xai (List.forall_mem_nil _)
  | writeXai seq =>
    refine hkeep rfl h.seq h.inProgess ?_ (List.forall_mem_nil _)
    exact List.forall_mem_append.mpr ⟨h.xai, hop⟩
  | copySeq =>
    refine hkeep rfl h.seq h.inProgess h.xai (List.forall_mem_singleton.mpr ?_)
    exact List.forall_mem_singleton.mpr hin
  | writeSeq seq =>
    exact hkeep rfl (hop seq (List.mem_singleton_self _)) h.inProgess h.xai (List.forall_mem_nil _)
  | signal => exact hkeep rfl h.seq h.inProgess h.xai (List.forall_mem_nil _)

/-- The accesses of an action hold the positions it moves to. -/
theorem held_action {a : Action} {name : Text} {op : SharedOp} (hop : op ∈ a.ops name)
    {q : BinLogSequence} (hq : q ∈ (ThreadOp.op op).held) : ∃ first, q ∈ a.targets first name := by
  cases a with
  | goTo pos =>
    rw [List.mem_singleton.mp hop] at hq
    exact ⟨[], hq⟩
  | save idx pos =>
    rcases List.mem_pair.mp hop with rfl | rfl
    · exact ⟨[], hq⟩
    · cases hq
  | startBinlog name' =>
    rcases List.mem_pair.mp hop with rfl | rfl
    · cases hq
    · refine ⟨'x' :: name', ?_⟩
      rw [Action.targets, if_pos (List.cons_ne_self 'x' name').symm]
      exact hq
  | skip => cases hop
  | lastBinlog => rcases List.mem_pair.mp hop with rfl | rfl <;> cases hq
  | _ =>
    rw [List.mem_singleton.mp hop] at hq
    cases hq

/-- The listener takes a line. -/
theorem World.Holds.take (h : w.Holds P) {x : PrintedLine} {pipe : List PrintedLine}
    (hpipe : w.pipe = x :: pipe) {hh : Handled} {closes : List SharedOp}
    (hcloses : ClosesRow closes) (hops : hh.ops = closes ++ x.action.ops (nameOf w.taken)) :
    World.Holds P { w with
      pipe := pipe, loc := hh.loc, pending := hh.ops.map .op, taken := w.taken ++ [x] } := by
  have hlines := h.lines
  rw [hpipe] at hlines
  constructor
  · exact h.seq
  · exact h.inProgess
  · exact h.xai
  · dsimp only
    rw [hops, List.forall_mem_map, List.forall_mem_append]
    constructor
    · intro op hop
      rcases hcloses with rfl | rfl
      · cases hop
      · rw [List.mem_singleton.mp hop]
        exact List.forall_mem_nil _
    · intro op hop q hq
      obtain ⟨first, hfirst⟩ := held_action hop hq
      exact hlines first q (List.mem_append_left _ hfirst)
  · intro first q hq
    dsimp only at hq
    rw [nameOf_append] at hq
    exact hlines first q (List.mem_append_right _ hq)
  · exact h.pc

/-- `ReadJournal` prints nothing. -/
theorem World.Holds.goOn (h : w.Holds P) {g : Shared} {pc : JournalPc} {origin : BinLogSequence}
    {signalled : Bool} (hseq : P g.stBinLogSeq.place) (hin : P g.stBinLogSeqInProgess.place)
    (hxai : ∀ q ∈ g.xai, P q.place) (hpc : ∀ q ∈ pc.held, P q.place) :
    World.Holds P { w with shared := g, pc := pc, origin := origin, signalled := signalled } :=
  ⟨hseq, hin, hxai, h.pending, h.lines, hpc⟩

/-- `ReadJournal` prints lines that move the listener to such positions only. -/
theorem World.Holds.print (h : w.Holds P) {lines : List PrintedLine}
    (hlines : ∀ first, ∀ q ∈ targets first (nameOf (w.taken ++ w.pipe))
      (lines.map PrintedLine.action), P q.place)
    (pc : JournalPc) (hpc : ∀ q ∈ pc.held, P q.place) (ulIndex : ℕ)
    (annotateEvent : Option (Header × Text)) :
    World.Holds P { w with
      pipe := w.pipe ++ lines, pc := pc, ulIndex := ulIndex, annotateEvent := annotateEvent } := by
  constructor
  · exact h.seq
  · exact h.inProgess
  · exact h.xai
  · exact h.pending
  · intro first q hq
    dsimp only at hq
    rw [List.map_append, targets_append, List.mem_append, ← nameOf_append] at hq
    exact hq.elim (h.lines first q) (hlines first q)
  · exact hpc

end Steps

section Journal
variable {P : BinLogInfo → Prop} {w w' : World}

theorem World.Holds.select (h : w.Holds P) (hcut : ∀ p, AtCut w.files p → P p)
    (names : List Text) : (w.select names).Holds P := by
  unfold World.select
  dsimp only
  split
  · split
    · exact h.goOn h.seq h.inProgess h.xai (List.forall_mem_nil _)
    · next f hlast =>
      refine h.goOn h.seq h.inProgess h.xai (List.forall_mem_singleton.mpr ?_)
      exact hcut _ ⟨f, List.mem_of_getLast? hlast, rfl, f.cuts_size⟩
  · split
    · exact h.goOn h.seq h.inProgess h.xai (List.forall_mem_nil _)
    · exact h.goOn h.seq h.inProgess h.xai (List.forall_mem_singleton.mpr h.seq)

/-- The first line of a file moves the listener to its header. -/
theorem World.Holds.openFile (h : w.Holds P) (hplain : w.Plain)
    (hcut : ∀ p, AtCut w.files p → P p) {f : BinlogFile} (hf : f ∈ w.files) {pos : ℕ}
    {more : List Text} (hpc : w.pc = .opening f.name pos more) :
    (w.openFile f pos more).Holds P := by
  have hpos := h.pc
  rw [hpc] at hpos
  obtain ⟨hnl, -, htexts⟩ := hplain f hf
  obtain ⟨-, hquiet⟩ := quiet_openFile w.ulIndex f.name w.annotateEvent htexts pos
  unfold World.openFile
  dsimp only
  rw [headLines_fileLine (by decide) hnl,
    List.append_assoc _ _ (plainLines _ _ (printEvents _ _ _).2),
    List.append_assoc]
  generalize plainLines w.ulIndex f.name (unlines '\n' startLines) ++ plainLines w.ulIndex f.name
    (printEvents w.ulIndex { annotateEvent := w.annotateEvent } (f.resent pos)).2 = quiet
    at hquiet ⊢
  apply h.print
  · intro first q hq
    rw [List.map_append, targets_append, hquiet.targets, List.append_nil, List.map_singleton] at hq
    dsimp only [PrintedLine.action, targets, Action.targets] at hq
    rw [List.append_nil] at hq
    split at hq
    · rw [List.mem_singleton.mp hq]
      exact hcut _ ⟨f, hf, rfl, f.cuts_header⟩
    · cases hq
  · exact hpos

/-- The lines of an event move the listener to where it begins or ends. -/
theorem World.Holds.readEvent (h : w.Holds P) (hsound : w.Sound) (hplain : w.Plain)
    (hshort : w.Short) (hcut : ∀ p, AtCut w.files p → P p) {f : BinlogFile} (hf : f ∈ w.files)
    {info : PrintInfo} {offset : ℕ} {more : List Text}
    (hpc : w.pc = .reading info f.name offset more)
    (hw : w.readEvent f info offset more = some w') : w'.Holds P := by
  have hpcs := hsound.pc
  rw [hpc] at hpcs
  obtain ⟨-, hbehind, hname, hinfo⟩ := hpcs
  obtain ⟨hnl, -, htexts⟩ := hplain f hf
  cases World.readOn hw with
  | @event ev he =>
    obtain ⟨-, hlt, hsize⟩ := f.event_bounds he
    have hev := htexts _ he w.ulIndex
    apply h.print
    · intro first q hq
      rw [hname, targets_eventLines hinfo hev hlt (hsize.trans_lt (hshort f hf))] at hq
      obtain ⟨c, hc, rfl⟩ := List.mem_map.mp hq
      apply hcut
      refine ⟨f, hf, rfl, ?_⟩
      rcases checkpoint_cases (Option.mem_toList.mp hc) with rfl | rfl
      · exact f.cuts_start he
      · exact f.cuts_end he
    · refine List.forall_mem_singleton.mpr (hcut _ ⟨f, hf, rfl, ?_⟩)
      exact f.cuts_end he
  | fileEnd hsize =>
    rw [headLines_fileLine (by decide) hnl]
    have hquiet : Quiet (plainLines w.ulIndex f.name (unlines '\n' endLines)) :=
      quiet_plain plain_endLines
    generalize plainLines w.ulIndex f.name (unlines '\n' endLines) = quiet at hquiet ⊢
    rw [List.append_assoc]
    apply h.print
    · intro first q hq
      rw [List.map_append, targets_append, hquiet.targets] at hq
      cases hq
    · cases more with
      | nil => exact List.forall_mem_nil _
      | cons next more =>
        obtain ⟨g, hg, hgname⟩ := List.mem_map.mp (hbehind.next hsound.nodup).1.mem
        exact List.forall_mem_singleton.mpr (hcut _ ⟨g, hg, hgname, g.cuts_header⟩)

/-- `ReadJournal` copies positions, or takes the bounds of files and events. -/
theorem World.Holds.journalStep (h : w.Holds P) (hsound : w.Sound) (hplain : w.Plain)
    (hshort : w.Short) (hcut : ∀ p, AtCut w.files p → P p) {dates : ℕ → DateText}
    (hw : w.journalStep dates = some w') : w'.Holds P := by
  have hpos := h.pc
  unfold World.journalStep at hw
  cases hpc : w.pc with
  | top =>
    rw [hpc] at hw
    obtain rfl := Option.some.inj hw
    exact h.goOn h.seq h.inProgess h.xai (List.forall_mem_nil _)
  | loaded names =>
    rw [hpc] at hw
    obtain rfl := Option.some.inj hw
    exact h.select hcut names
  | status seq =>
    rw [hpc] at hw hpos
    obtain rfl := Option.some.inj hw
    exact h.goOn (hpos seq (List.mem_singleton_self _)) h.inProgess h.xai (List.forall_mem_nil _)
  | saving =>
    rw [hpc] at hw
    obtain rfl := Option.some.inj hw
    refine h.goOn h.seq h.inProgess ?_ (List.forall_mem_nil _)
    exact List.forall_mem_append.mpr ⟨h.xai, List.forall_mem_singleton.mpr h.seq⟩
  | found seq more =>
    rw [hpc] at hw hpos
    obtain rfl := Option.some.inj hw
    exact h.goOn h.seq h.inProgess h.xai hpos
  | cleared seq more =>
    rw [hpc] at hw hpos
    obtain rfl := Option.some.inj hw
    exact h.goOn h.seq h.inProgess h.xai hpos
  | named seq more =>
    rw [hpc] at hw hpos
    obtain rfl := Option.some.inj hw
    have hpcs := hsound.pc
    rw [hpc] at hpcs
    obtain ⟨f, hf, hname⟩ := List.mem_map.mp hpcs.2.mem
    have hnl := (hplain f hf).1
    rw [hname] at hnl
    rw [World.printFirst, headLines_passLine (by decide) hnl]
    apply h.print
    · intro first q hq
      cases hq
    · exact hpos
  | begun seq more =>
    rw [hpc] at hw hpos
    obtain rfl := Option.some.inj hw
    have hseq := hpos seq (List.mem_singleton_self _)
    exact h.goOn h.seq hseq h.xai (List.forall_mem_singleton.mpr hseq)
  | opening name pos more =>
    rw [hpc] at hw
    obtain ⟨f, hf, rfl⟩ := Option.map_eq_some_iff.mp hw
    obtain ⟨hmem, rfl⟩ := mem_of_file hf
    exact h.openFile hplain hcut hmem hpc
  | reading info name offset more =>
    rw [hpc] at hw
    dsimp only at hw
    obtain ⟨f, hf, hread⟩ := Option.bind_eq_some_iff.mp hw
    obtain ⟨hmem, rfl⟩ := mem_of_file hf
    exact h.readEvent hsound hplain hshort hcut hmem hpc hread
  | ended name =>
    rw [hpc] at hw
    obtain rfl := Option.some.inj hw
    exact h.goOn h.seq h.inProgess h.xai (List.forall_mem_nil _)
  | closing name =>
    rw [hpc] at hw
    obtain rfl := Option.some.inj hw
    have hpcs := hsound.pc
    rw [hpc] at hpcs
    obtain ⟨f, hf, rfl⟩ := List.mem_map.mp hpcs
    rw [headLines_passLine (by decide) (hplain f hf).1]
    apply h.print
    · intro first q hq
      cases hq
    · exact List.forall_mem_nil _
  | waiting =>
    rw [hpc] at hw
    dsimp only at hw
    split at hw
    · obtain rfl := Option.some.inj hw
      exact h.goOn h.seq h.inProgess h.xai (List.forall_mem_nil _)
    · cases hw
  | gaveUp =>
    rw [hpc] at hw
    obtain rfl := Option.some.inj hw
    exact h.goOn h.seq h.inProgess h.xai (List.forall_mem_singleton.mpr h.inProgess)
  | copying seq =>
    rw [hpc] at hw hpos
    obtain rfl := Option.some.inj hw
    exact h.goOn (hpos seq (List.mem_singleton_self _)) h.inProgess h.xai (List.forall_mem_nil _)
  | stopped =>
    rw [hpc] at hw
    cases hw

end Journal

/-- The process has a position, and the capture begins where it has begun. -/
structure World.Resumed (start : BinLogSequence) (w : World) : Prop where
  origin : w.origin = start
  named : w.shared.stBinLogSeq.szBinLogName ≠ []

section Resumed
variable {start : BinLogSequence} {w w' : World}

/-- Only without a position `ReadJournal` takes that of the server. -/
theorem World.Resumed.journalStep (h : w.Resumed start) (hsound : w.Sound) {dates : ℕ → DateText}
    (hw : w.journalStep dates = some w') : w'.Resumed start := by
  have hpcs := hsound.pc
  unfold World.journalStep at hw
  cases hpc : w.pc with
  | loaded names =>
    rw [hpc] at hw
    obtain rfl := Option.some.inj hw
    unfold World.select
    dsimp only
    split
    · exact absurd ‹_› h.named
    · split
      · exact ⟨h.origin, h.named⟩
      · exact ⟨h.origin, h.named⟩
  | status seq =>
    rw [hpc] at hpcs
    exact absurd hpcs.2 h.named
  | opening name pos more =>
    rw [hpc] at hw
    obtain ⟨f, -, rfl⟩ := Option.map_eq_some_iff.mp hw
    exact ⟨h.origin, h.named⟩
  | reading info name offset more =>
    rw [hpc] at hw
    dsimp only at hw
    obtain ⟨f, -, hread⟩ := Option.bind_eq_some_iff.mp hw
    cases World.readOn hread with
    | event => exact ⟨h.origin, h.named⟩
    | fileEnd => exact ⟨h.origin, h.named⟩
  | waiting =>
    rw [hpc] at hw
    dsimp only at hw
    split at hw
    · obtain rfl := Option.some.inj hw
      exact ⟨h.origin, h.named⟩
    · cases hw
  | copying seq =>
    rw [hpc] at hw hpcs
    obtain rfl := Option.some.inj hw
    exact ⟨h.origin, hpcs.2⟩
  | stopped =>
    rw [hpc] at hw
    cases hw
  | _ =>
    rw [hpc] at hw
    obtain rfl := Option.some.inj hw
    exact ⟨h.origin, h.named⟩

theorem World.Resumed.access (h : w.Resumed start) (hsound : w.Sound) {op : ThreadOp}
    {ops : List ThreadOp} (hpending : w.pending = op :: ops) :
    World.Resumed start { w with
      shared := (op.exec w.shared).1, pending := (op.exec w.shared).2 ++ ops } := by
  have hall := hsound.pending
  rw [hpending, List.forall_mem_cons] at hall
  have hexec := exec_sound hall.1 hsound.inProgess fun hop hin =>
    hop ((hsound.unpublished hin).pending op (hpending ▸ List.mem_cons_self))
  constructor
  · exact h.origin
  · rcases hexec.seq with heq | ⟨-, hne⟩
    · dsimp only
      rw [heq]
      exact h.named
    · exact hne

theorem World.Resumed.step (h : w.Resumed start) (hsound : w.Sound) {dates : ℕ → DateText}
    {turn : Turn} (hw : World.step dates w turn = some w') : w'.Resumed start := by
  cases World.stepped hw with
  | journal hw => exact h.journalStep hsound hw
  | access hpending => exact h.access hsound hpending
  | _ => exact ⟨h.origin, h.named⟩

end Resumed

/-- The place is none, the one where the process has begun, or between two events. -/
def Comes (files : List BinlogFile) (start p : BinLogInfo) : Prop :=
  p.szBinLogName = [] ∨ p = start ∨ AtCut files p

section Comes
variable {files : List BinlogFile} {origin start p : BinLogInfo}

theorem Comes.of_none (h : Comes files start p) (hnone : start.szBinLogName = []) :
    Comes files origin p := by
  rcases h with hnil | rfl | hcut
  · exact .inl hnil
  · exact .inl hnone
  · exact .inr (.inr hcut)

theorem Comes.of_atCut (h : Comes files start p) (hstart : AtCut files start) :
    Comes files origin p := by
  rcases h with hnil | rfl | hcut
  · exact .inl hnil
  · exact .inr (.inr hstart)
  · exact .inr (.inr hcut)

end Comes

section Process
variable {origin : BinLogInfo} {captured : List PrintedLine} {start : BinLogSequence} {w w' : World}

theorem World.Holds.step (h : w.Holds (Comes w.files start.place)) (hsound : w.Sound)
    (hplain : w.Plain) (hshort : w.Short) {dates : ℕ → DateText} {turn : Turn}
    (hw : World.step dates w turn = some w') : w'.Holds (Comes w'.files start.place) := by
  have hgrow : ∀ {files' : List BinlogFile}, Grows w.files files' → ∀ p,
      Comes w.files start.place p → Comes files' start.place p := fun hgrows p hp =>
    hp.imp_right (Or.imp_right (AtCut.grow hgrows hsound.nodup))
  cases World.stepped hw with
  | appendEvents hlast hname hdescription hevents =>
    have hgrows := grows_appendEvents hlast hname hdescription hevents hsound.nodup
    exact h.grow (hgrow hgrows) _
  | appendFile hname hnew => exact h.grow (hgrow (grows_appendFile hnew)) _
  | journal hj =>
    have hfiles : w'.files = w.files := files_step (by trivial) hw
    rw [hfiles]
    exact h.journalStep hsound hplain hshort (fun p hp => .inr (.inr hp)) hj
  | giveUp => exact h.goOn h.seq h.inProgess h.xai (List.forall_mem_nil _)
  | access hpending => exact h.access hpending
  | take hpending hpipe hline =>
    obtain ⟨-, closes, -, hcloses, hops⟩ := hsound.line hpipe hline
    exact h.take hpipe hcloses hops

theorem World.Begins.holds (h : w.Begins) (hstart : w.shared.stBinLogSeq = start) :
    w.Holds (Comes w.files start.place) := by
  subst hstart
  constructor
  · exact .inr (.inl rfl)
  · rw [h.inProgess]
    exact .inl rfl
  · intro q hq
    rw [h.xai q hq]
    exact .inr (.inl rfl)
  · rw [h.pending]
    exact List.forall_mem_nil _
  · intro first q hq
    rw [h.pipe] at hq
    cases hq
  · rw [h.pc]
    exact List.forall_mem_nil _

/-- What the processes before have captured stays captured while the server appends. -/
theorem covers_step (hsound : w.Sound) {p : BinLogInfo}
    (h : Covers w.files origin captured p ∧ AtCut w.files p) {dates : ℕ → DateText} {turn : Turn}
    (hw : World.step dates w turn = some w') :
    Covers w'.files origin captured p ∧ AtCut w'.files p := by
  have hgrow : ∀ {files' : List BinlogFile}, Grows w.files files' →
      Covers files' origin captured p ∧ AtCut files' p := fun hgrows =>
    ⟨h.1.grow hgrows hsound.nodup h.2.within, h.2.grow hgrows hsound.nodup⟩
  cases turn with
  | appendEvents f =>
    cases World.stepped hw with
    | appendEvents hlast hname hdescription hevents =>
      exact hgrow (grows_appendEvents hlast hname hdescription hevents hsound.nodup)
  | appendFile f =>
    cases World.stepped hw with
    | appendFile hname hnew => exact hgrow (grows_appendFile hnew)
  | _ =>
    rw [files_step (by trivial) hw]
    exact h

end Process

/-- The binlogs, the XAI file, and the lines that the processes have left in the capture. -/
structure Machine where
  files : List BinlogFile
  xai : XaiFile
  /-- Where the capture has begun. -/
  origin : BinLogInfo
  captured : List PrintedLine

/-- The position at which the next process begins. -/
def Machine.next (m : Machine) : BinLogSequence := (initParam m.xai).toSequence

/-- Nothing is captured yet. -/
structure Machine.Begins (m : Machine) : Prop where
  nodup : (m.files.map BinlogFile.name).Nodup
  named : [] ∉ m.files.map BinlogFile.name
  origin : m.origin = m.next.place
  captured : m.captured = []

/-- The lines that a process leaves in the capture: all that it has written, unless it is killed
while the C library holds some of them back. -/
def Leaves (lFlush : ℤ) (ending : Ending) (taken kept : List PrintedLine) : Prop :=
  kept <+: taken ∧ (ending = .exits ∨ lFlush ≠ 0 → kept = taken)

/-- One process, which ends at any moment: it begins with what `InitParam` reads, and what it saves
is written over the XAI file. Without a position the capture begins where the process begins. -/
inductive Machine.Process (lFlush : ℤ) (dates : ℕ → DateText) (ending : Ending) (m : Machine) :
    Machine → Prop where
  | ends {w₀ w : World} {rs : List SequenceRecord} {kept : List PrintedLine} (hbegins : w₀.Begins)
      (hfiles : w₀.files = m.files) (hseq : w₀.shared.stBinLogSeq = m.next)
      (hxai : w₀.shared.xai = [])
      (hrun : Run (World.step dates) (fun w _ => w.Plain ∧ w.Short) w₀ w)
      (hsaved : w.shared.xai = rs.map SequenceRecord.toSequence)
      (hkept : Leaves lFlush ending w.taken kept) : m.Process lFlush dates ending
        { files := w.files
          xai := saveAll m.xai rs
          origin := if m.next.szBinLogName = [] then w.origin.place else m.origin
          captured := m.captured ++ kept }

/-- One process that leaves every line it has written: it flushes every write, or it ends through
`exit`. -/
def Machine.Flushes (lFlush : ℤ) (dates : ℕ → DateText) (m m' : Machine) : Prop :=
  ∃ ending, (ending = .killed → lFlush ≠ 0) ∧ m.Process lFlush dates ending m'

/-- What every process keeps. -/
structure Machine.Complete (m : Machine) : Prop where
  nodup : (m.files.map BinlogFile.name).Nodup
  named : [] ∉ m.files.map BinlogFile.name
  covers : Covers m.files m.origin m.captured m.next.place
  comes : Comes m.files m.origin m.next.place

section Machine
variable {lFlush : ℤ} {dates : ℕ → DateText} {m m' : Machine}

theorem Machine.Begins.complete (h : m.Begins) : m.Complete where
  nodup := h.nodup
  named := h.named
  covers := by
    rw [h.origin]
    exact covers_origin _ _ _
  comes := .inr (.inl h.origin.symm)

/-- What one process captures between its beginning and the position it leaves. -/
theorem covers_run {w₀ w : World} (hbegins : w₀.Begins)
    (hrun : Run (World.step dates) (fun w _ => w.Plain ∧ w.Short) w₀ w) :
    w.Sound ∧ w.Holds (Comes w.files w₀.shared.stBinLogSeq.place) := by
  apply hrun.invariant (fun w => w.Sound ∧ w.Holds (Comes w.files w₀.shared.stBinLogSeq.place))
  · rintro v turn v' ⟨hsound, hholds⟩ ⟨hplain, hshort⟩ hv
    exact ⟨hsound.step hplain hv, hholds.step hsound hplain hshort hv⟩
  · exact ⟨hbegins.sound, hbegins.holds rfl⟩

/-- A process that begins at a position captures from there on, and the capture before it stays. -/
theorem resumed_run {w₀ w : World} (hbegins : w₀.Begins)
    (hnamed : w₀.shared.stBinLogSeq.szBinLogName ≠ [])
    (hrun : Run (World.step dates) (fun w _ => w.Plain ∧ w.Short) w₀ w) (origin : BinLogInfo)
    (captured : List PrintedLine) : w.Resumed w₀.shared.stBinLogSeq ∧
      (Covers w₀.files origin captured w₀.shared.stBinLogSeq.place →
        AtCut w₀.files w₀.shared.stBinLogSeq.place →
        Covers w.files origin captured w₀.shared.stBinLogSeq.place ∧
          AtCut w.files w₀.shared.stBinLogSeq.place) := by
  induction hrun with
  | start => exact ⟨⟨hbegins.origin, hnamed⟩, fun h hcut => ⟨h, hcut⟩⟩
  | step hrun hcond hst ih =>
    have hsound := (covers_run hbegins hrun).1
    exact ⟨ih.1.step hsound hst, fun h hcut => covers_step hsound (ih.2 h hcut) hst⟩

theorem Machine.Complete.process (h : m.Complete) (hm : m.Flushes lFlush dates m') :
    m'.Complete := by
  obtain ⟨ending, hflush, hm⟩ := hm
  cases hm with
  | @ends w₀ w rs kept hbegins hfiles hseq hxai hrun hsaved hkept =>
  obtain rfl : kept = w.taken := by
    apply hkept.2
    cases ending with
    | exits => exact .inl rfl
    | killed => exact .inr (hflush rfl)
  obtain ⟨hsound, hholds⟩ := covers_run hbegins hrun
  rw [hseq] at hholds
  have hnext : ∀ files origin captured,
      Machine.next ⟨files, saveAll m.xai rs, origin, captured⟩ = w.shared.persisted.getD m.next :=
    fun _ _ _ => toSequence_initParam m.xai rs hsaved
  have hlast : ∀ q ∈ w.shared.persisted, Covers w.files w.origin.place w.taken q.place ∧
      Comes w.files m.next.place q.place := fun q hq =>
    ⟨hsound.atLeastOnce q (.inr (.inr hq)), hholds.xai q (List.mem_of_getLast? hq)⟩
  by_cases hname : m.next.szBinLogName = []
  · have hboth : Covers w.files w.origin.place w.taken (w.shared.persisted.getD m.next).place ∧
        Comes w.files m.next.place (w.shared.persisted.getD m.next).place := by
      cases hp : w.shared.persisted with
      | none =>
        refine ⟨covers_of_not_mem ?_, .inl hname⟩
        rw [Option.getD_none, BinLogSequence.place, hname]
        exact hsound.named
      | some q => exact hlast q hp
    constructor
    · exact hsound.nodup
    · exact hsound.named
    · rw [hnext]
      dsimp only
      rw [if_pos hname]
      exact hboth.1.mono (List.subset_append_right _ _)
    · rw [hnext]
      exact hboth.2.of_none hname
  · have hnamed : w₀.shared.stBinLogSeq.szBinLogName ≠ [] := by rwa [hseq]
    obtain ⟨hresumed, hbefore⟩ := resumed_run hbegins hnamed hrun m.origin m.captured
    rw [hseq] at hresumed hbefore
    rw [hfiles] at hbefore
    have hstart : w.origin.place = m.next.place := by rw [hresumed.origin]
    rw [hstart] at hlast
    have hboth : Covers w.files m.next.place w.taken (w.shared.persisted.getD m.next).place ∧
        Comes w.files m.next.place (w.shared.persisted.getD m.next).place := by
      cases hp : w.shared.persisted with
      | none => exact ⟨covers_origin _ _ _, .inr (.inl rfl)⟩
      | some q => exact hlast q hp
    have hall : Covers w.files m.origin (m.captured ++ w.taken)
        (w.shared.persisted.getD m.next).place ∧
        Comes w.files m.origin (w.shared.persisted.getD m.next).place := by
      rcases h.comes with hnil | heq | hcut
      · exact absurd hnil hname
      · rw [← heq]
        exact ⟨hboth.1.mono (List.subset_append_right _ _), hboth.2⟩
      · obtain ⟨hcovers, hcut'⟩ := hbefore h.covers hcut
        exact ⟨hcovers.append hcut' hsound.nodup hboth.1, hboth.2.of_atCut hcut'⟩
    constructor
    · exact hsound.nodup
    · exact hsound.named
    · rw [hnext]
      dsimp only
      rw [if_neg hname]
      exact hall.1
    · rw [hnext]
      dsimp only
      rw [if_neg hname]
      exact hall.2

/-- Over any history of processes, each of them ended at any moment, that flush every write or end
through `exit`, every event between the place where the capture has begun and the position in the
XAI file is captured, and the position is none, that place, or between two events. -/
theorem covers_of_processes {m₀ : Machine} (h₀ : m₀.Begins)
    (h : Relation.ReflTransGen (Machine.Flushes lFlush dates) m₀ m) :
    Covers m.files m.origin m.captured m.next.place ∧ Comes m.files m.origin m.next.place := by
  have hcomplete : m.Complete := by
    induction h with
    | refl => exact h₀.complete
    | tail _ hm ih => exact ih.process hm
  exact ⟨hcomplete.covers, hcomplete.comes⟩

end Machine

section Statement

/-- A process that begins in the only binlog at this offset. -/
def World.startAt (f : BinlogFile) (ulPosition : ℕ) : World :=
  { World.start f with
    shared := { Shared.initial with stBinLogSeq := ⟨f.name, ulPosition, 0⟩ }
    origin := ⟨f.name, ulPosition, 0⟩ }

theorem begins_startAt (f : BinlogFile) (hf : f.name ≠ []) (ulPosition : ℕ) :
    (World.startAt f ulPosition).Begins := by
  have h := begins_start f hf
  constructor
  · exact h.nodup
  · exact h.named
  · exact h.pc
  · exact h.taken
  · exact h.pipe
  · exact h.pending
  · exact h.loc
  · exact h.inProgess
  · exact h.first
  · exact h.last
  · exact h.event
  · exact h.signalled
  · exact List.forall_mem_nil _
  · rfl

theorem toSequence_firstRecord {ulPosition : ℕ} (h : ulPosition < 256 ^ 4) :
    (firstRecord ulPosition h).toSequence = ⟨firstName, ulPosition, 0⟩ := by
  have hname : (firstRecord ulPosition h).name = firstName :=
    SequenceRecord.name_eq nameFits_first rfl
  rw [SequenceRecord.toSequence, hname]
  rfl

/-- A process over the statement that begins at one position and leaves another one. -/
theorem process_statement {m : Machine} (hfiles : m.files = [statementFile "drop table t".toList])
    {lFlush : ℤ} {ending : Ending} (keeps : List PrintedLine → List PrintedLine)
    (hkeeps : ∀ taken, Leaves lFlush ending taken (keeps taken)) {pos pos' k n : ℕ}
    (hpos' : pos' < 256 ^ 4) (hnext : m.next = ⟨firstName, pos, 0⟩)
    (hexec : ((exec (World.step fun _ => someDate)
      (World.startAt (statementFile "drop table t".toList) pos) (firstSteps k n)).map
        fun w => w.shared.xai) = some [⟨firstName, pos', 0⟩]) :
    ∃ m', m.Process lFlush (fun _ => someDate) ending m' ∧ m'.files = m.files ∧
      m'.origin = m.origin ∧ m'.next = ⟨firstName, pos', 0⟩ ∧
      ∃ taken, m'.captured = m.captured ++ keeps taken := by
  obtain ⟨w, hw, hxai⟩ := Option.map_eq_some_iff.mp hexec
  have hrun : Run (World.step fun _ => someDate) (fun w _ => w.Plain ∧ w.Short)
      (World.startAt (statementFile "drop table t".toList) pos) w := by
    apply run_threads _ (ofThread_firstSteps k n) hw
    intro u hu _ _
    rw [World.Plain, World.Short, hu]
    exact ⟨plain_statementFile (by decide) (by decide),
      List.forall_mem_singleton.mpr (by decide)⟩
  have hsaved : w.shared.xai = [firstRecord pos' hpos'].map SequenceRecord.toSequence := by
    rw [hxai, List.map_singleton, toSequence_firstRecord hpos']
  have hbegins := begins_startAt (statementFile "drop table t".toList) (by decide) pos
  refine ⟨_, .ends hbegins hfiles.symm hnext.symm rfl hrun hsaved (hkeeps w.taken), ?_, ?_, ?_,
    w.taken, rfl⟩
  · exact (files_exec (ofThread_firstSteps k n) hw).trans hfiles.symm
  · dsimp only
    rw [hnext]
    exact if_neg (by decide : firstName ≠ [])
  · refine (toSequence_initParam m.xai _ hsaved).trans ?_
    rw [Shared.persisted, hxai]
    rfl

theorem exec_startAt_header : ((exec (World.step fun _ => someDate)
    (World.startAt (statementFile "drop table t".toList) 4) (firstSteps 9 16)).map
      fun w => w.shared.xai) = some [⟨firstName, 300, 0⟩] := by
  decide +kernel

theorem exec_startAt_end : ((exec (World.step fun _ => someDate)
    (World.startAt (statementFile "drop table t".toList) 300) (firstSteps 8 15)).map
      fun w => w.shared.xai) = some [⟨firstName, 331, 0⟩] := by
  decide +kernel

/-- Nothing is captured yet of the statement. -/
def statementMachine : Machine where
  files := [statementFile "drop table t".toList]
  xai := saveInDisk none (firstRecord 4 (by decide))
  origin := ⟨firstName, 4⟩
  captured := []

theorem next_statementMachine : statementMachine.next = ⟨firstName, 4, 0⟩ := by
  rw [Machine.next, statementMachine, initParam_saveInDisk, toSequence_firstRecord]

theorem begins_statementMachine : statementMachine.Begins where
  nodup := List.nodup_singleton _
  named h := absurd (List.mem_singleton.mp h) (by decide)
  origin := by
    rw [next_statementMachine]
    rfl
  captured := rfl

/-- The process that handles the statement is killed, and the next one captures the transaction. -/
theorem covers_of_processes_statement : ∃ m : Machine, m.origin = ⟨firstName, 4⟩ ∧
    m.next = ⟨firstName, 331, 0⟩ ∧ Covers m.files m.origin m.captured m.next.place ∧
    Comes m.files m.origin m.next.place := by
  have hall : ∀ ending taken, Leaves 1 ending taken (id taken) := fun _ _ =>
    ⟨List.prefix_rfl, fun _ => rfl⟩
  obtain ⟨m₁, h₁, hfiles₁, horigin₁, hnext₁, -⟩ := process_statement (m := statementMachine) rfl
    id (hall .killed) (by decide : 300 < 256 ^ 4) next_statementMachine exec_startAt_header
  obtain ⟨m₂, h₂, -, horigin₂, hnext₂, -⟩ := process_statement hfiles₁ id (hall .exits)
    (by decide : 331 < 256 ^ 4) hnext₁ exec_startAt_end
  refine ⟨m₂, horigin₂.trans horigin₁, hnext₂, ?_⟩
  have hfirst : statementMachine.Flushes 1 (fun _ => someDate) m₁ :=
    ⟨.killed, fun _ => by decide, h₁⟩
  have hsecond : m₁.Flushes 1 (fun _ => someDate) m₂ := ⟨.exits, Ending.noConfusion, h₂⟩
  exact covers_of_processes begins_statementMachine
    ((Relation.ReflTransGen.single hfirst).tail hsecond)

/-- Without a flush at every write, a process that is killed can leave a position that has passed
what it has not left in the capture. -/
theorem not_covers_of_killed : ∃ m : Machine,
    statementMachine.Process 0 (fun _ => someDate) .killed m ∧
      ¬Covers m.files m.origin m.captured m.next.place := by
  have hnone : ∀ taken, Leaves 0 .killed taken [] := fun taken =>
    ⟨List.nil_prefix, fun h => h.elim Ending.noConfusion fun h => absurd rfl h⟩
  obtain ⟨m, hm, hfiles, horigin, hnext, taken, hcaptured⟩ :=
    process_statement (m := statementMachine) rfl (fun _ => []) hnone
      (by decide : 300 < 256 ^ 4) next_statementMachine exec_startAt_header
  refine ⟨m, hm, fun hcovers => ?_⟩
  rw [hfiles, horigin, hnext, hcaptured] at hcovers
  obtain ⟨x, hx, -⟩ := hcovers (statementFile "drop table t".toList) List.mem_cons_self
    (256, trailingQuery) (by decide) (by decide) ⟨by decide, .inr ⟨rfl, by decide⟩⟩
    ⟨by decide, .inr ⟨rfl, by decide⟩⟩
  exact absurd hx List.not_mem_nil

end Statement

end BinlogCapture
