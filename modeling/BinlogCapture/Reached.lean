import BinlogCapture.Places
import BinlogCapture.ThreadRuns

/-! What both threads keep while the positions move: whatever position a variable holds, or a line
moves the listener to, the events in front of it are captured. -/
namespace BinlogCapture
open CString Fallible LineFeed Runs Histories

/-- The markers of all events between the origin and any of the positions are captured. -/
def World.AtLeastOnce (w : World) : Prop :=
  ∀ q, q = w.shared.stBinLogSeq ∨ q = w.shared.stBinLogSeqInProgess ∨ w.shared.persisted = some q →
    Covers w.files w.origin.place w.taken q.place

section Sound
variable (files : List BinlogFile) (origin : BinLogInfo)

/-- A position that the shared variables may hold. -/
def Reached (lines : List PrintedLine) (q : BinLogSequence) : Prop :=
  Covers files origin lines q.place ∧
    (q.szBinLogName = [] ∨ q.place = origin ∨ Within files q.place)

/-- A position that a line may move the listener to. -/
def Stands (lines : List PrintedLine) (q : BinLogSequence) : Prop :=
  Covers files origin lines q.place ∧ Within files q.place

/-- The line does what it is printed for, and it moves only to positions that are captured when it
is taken. -/
def LineSound (before : List PrintedLine) (x : PrintedLine) : Prop :=
  Acts x.text x.action ∧ ∀ first, ∀ q ∈ x.action.targets first (nameOf before),
    Stands files origin (before ++ [x]) q

def OpSound (taken : List PrintedLine) : ThreadOp → Prop
  | .op (.setInProgess seq) => Stands files origin taken seq
  | .op (.resetUnlessFirst name) => Stands files origin taken ⟨name, binLogHeaderSize, 0⟩
  | .writeXai seq => Reached files origin taken seq
  | .writeSeq seq => Reached files origin taken seq ∧ seq.szBinLogName ≠ []
  | _ => True

/-- Where `ReadJournal` stands, everything before has been printed. -/
def PcSound (taken pipe : List PrintedLine) (g : Shared) : JournalPc → Prop
  | .loaded names => names <+: files.map BinlogFile.name
  | .status seq => seq.szBinLogName ≠ [] ∧ g.stBinLogSeq.szBinLogName = []
  | .found seq more | .cleared seq more | .named seq more | .begun seq more =>
    Reached files origin taken seq ∧ ListedBehind files seq.szBinLogName more
  | .opening name pos more =>
    Reached files origin (taken ++ pipe) ⟨name, pos, 0⟩ ∧ ListedBehind files name more
  | .reading info name offset more =>
    Reached files origin (taken ++ pipe) ⟨name, offset, 0⟩ ∧ ListedBehind files name more ∧
      nameOf (taken ++ pipe) = name ∧ InfoPlain info
  | .ended name | .closing name => name ∈ files.map BinlogFile.name
  | .copying seq => Reached files origin taken seq ∧ seq.szBinLogName ≠ []
  | .top | .saving | .waiting | .gaveUp | .stopped => True

end Sound

/-- `ReadJournal` has not yet found the first position. -/
def JournalPc.Outside : JournalPc → Prop
  | .top | .loaded _ | .status _ | .stopped => True
  | _ => False

/-- `ReadJournal` has not yet set a position in progress. -/
def JournalPc.Early : JournalPc → Prop
  | .top | .loaded _ | .status _ | .stopped | .saving | .found _ _ | .cleared _ _ | .named _ _
  | .begun _ _ => True
  | _ => False

/-- Neither the access nor one that follows from it publishes the position in progress. -/
def ThreadOp.Private : ThreadOp → Prop
  | .op (.publishIfLast _) | .copySeq => False
  | _ => True

/-- Before there is a position nothing is printed. -/
structure World.Fresh (w : World) : Prop where
  pc : w.pc.Outside
  lines : w.taken ++ w.pipe = []
  pending : w.pending = []
  inProgess : w.shared.stBinLogSeqInProgess.szBinLogName = []
  xai : ∀ q ∈ w.shared.xai, q.szBinLogName = []

/-- Before there is a position in progress nothing publishes it. -/
structure World.Unpublished (w : World) : Prop where
  pc : w.pc.Early
  lines : ∀ x ∈ w.taken ++ w.pipe, x.action ≠ .lastBinlog
  pending : ∀ op ∈ w.pending, op.Private

/-- What every step keeps. -/
structure World.Sound (w : World) : Prop where
  nodup : w.names.Nodup
  named : [] ∉ w.names
  lines : Extends (LineSound w.files w.origin.place) [] (w.taken ++ w.pipe)
  loc : w.loc.szBinLogName = nameOf w.taken
  pending : ∀ op ∈ w.pending, OpSound w.files w.origin.place w.taken op
  seq : Reached w.files w.origin.place w.taken w.shared.stBinLogSeq
  inProgess : Reached w.files w.origin.place w.taken w.shared.stBinLogSeqInProgess
  xai : ∀ q ∈ w.shared.xai, Reached w.files w.origin.place w.taken q
  pc : PcSound w.files w.origin.place w.taken w.pipe w.shared w.pc
  fresh : w.shared.stBinLogSeq.szBinLogName = [] → w.Fresh
  unpublished : w.shared.stBinLogSeqInProgess.szBinLogName = [] → w.Unpublished

theorem World.Sound.atLeastOnce {w : World} (h : w.Sound) : w.AtLeastOnce := by
  rintro q (rfl | rfl | hq)
  · exact h.seq.1
  · exact h.inProgess.1
  · exact (h.xai q (List.mem_of_getLast? hq)).1

section Facts
variable {files files' : List BinlogFile} {origin : BinLogInfo} {lines lines' : List PrintedLine}
  {q : BinLogSequence}

theorem Stands.reached (h : Stands files origin lines q) : Reached files origin lines q :=
  ⟨h.1, .inr (.inr h.2)⟩

theorem Reached.mono (h : Reached files origin lines q) (hsub : lines ⊆ lines') :
    Reached files origin lines' q := ⟨h.1.mono hsub, h.2⟩

theorem Stands.mono (h : Stands files origin lines q) (hsub : lines ⊆ lines') :
    Stands files origin lines' q := ⟨h.1.mono hsub, h.2⟩

theorem Stands.named (h : Stands files origin lines q) (hnamed : [] ∉ files.map BinlogFile.name) :
    q.szBinLogName ≠ [] := fun hq => hnamed (hq ▸ h.2.mem)

theorem reached_unnamed (hnamed : [] ∉ files.map BinlogFile.name) (hq : q.szBinLogName = []) :
    Reached files origin lines q :=
  ⟨covers_of_not_mem (by rw [BinLogSequence.place]; exact hq ▸ hnamed), .inl hq⟩

theorem reached_origin (hq : q.place = origin) : Reached files origin lines q :=
  ⟨hq ▸ covers_origin files origin lines, .inr (.inl hq)⟩

section Grow
variable (hgrows : Grows files files') (hnodup : (files.map BinlogFile.name).Nodup)
  (hnamed : [] ∉ files'.map BinlogFile.name)
include hgrows hnodup

theorem Stands.grow (h : Stands files origin lines q) : Stands files' origin lines q :=
  ⟨h.1.grow hgrows hnodup h.2, h.2.grow hgrows⟩

theorem LineSound.grow {x : PrintedLine} (h : LineSound files origin lines x) :
    LineSound files' origin lines x :=
  ⟨h.1, fun first q hq => (h.2 first q hq).grow hgrows hnodup⟩

include hnamed

theorem Reached.grow (h : Reached files origin lines q) : Reached files' origin lines q := by
  rcases h.2 with hq | hq | hq
  · exact reached_unnamed hnamed hq
  · exact reached_origin hq
  · exact ⟨h.1.grow hgrows hnodup hq, .inr (.inr (hq.grow hgrows))⟩

theorem OpSound.grow {op : ThreadOp} (h : OpSound files origin lines op) :
    OpSound files' origin lines op := by
  cases op with
  | op op =>
    cases op with
    | setInProgess seq => exact Stands.grow hgrows hnodup h
    | resetUnlessFirst name => exact Stands.grow hgrows hnodup h
    | _ => trivial
  | writeXai seq => exact Reached.grow hgrows hnodup hnamed h
  | writeSeq seq => exact ⟨Reached.grow hgrows hnodup hnamed h.1, h.2⟩
  | _ => trivial

theorem PcSound.grow {taken pipe : List PrintedLine} {g : Shared} {pc : JournalPc}
    (h : PcSound files origin taken pipe g pc) : PcSound files' origin taken pipe g pc := by
  have hreached : ∀ {lines q}, Reached files origin lines q → Reached files' origin lines q :=
    fun h => h.grow hgrows hnodup hnamed
  have hbehind : ∀ {name more}, ListedBehind files name more → ListedBehind files' name more :=
    fun h => h.grow hgrows.names
  cases pc with
  | loaded names => exact List.IsPrefix.trans h hgrows.names
  | status seq => exact h
  | found seq more => exact ⟨hreached h.1, hbehind h.2⟩
  | cleared seq more => exact ⟨hreached h.1, hbehind h.2⟩
  | named seq more => exact ⟨hreached h.1, hbehind h.2⟩
  | begun seq more => exact ⟨hreached h.1, hbehind h.2⟩
  | opening name pos more => exact ⟨hreached h.1, hbehind h.2⟩
  | reading info name offset more => exact ⟨hreached h.1, hbehind h.2.1, h.2.2⟩
  | ended name => exact hgrows.names.subset h
  | closing name => exact hgrows.names.subset h
  | copying seq => exact ⟨hreached h.1, h.2⟩
  | _ => trivial

end Grow

end Facts

section Steps
variable {w w' : World}

theorem World.Begins.sound (h : w.Begins) : w.Sound := by
  have hlines : w.taken ++ w.pipe = [] := by rw [h.taken, h.pipe]; rfl
  have hseq : Reached w.files w.origin.place w.taken w.shared.stBinLogSeq := by
    apply reached_origin
    rw [h.origin]
  constructor
  · exact h.nodup
  · exact h.named
  · rw [hlines]
    exact extends_nil []
  · rw [h.loc, h.taken]
    rfl
  · rw [h.pending]
    exact List.forall_mem_nil _
  · exact hseq
  · rw [h.inProgess]
    exact reached_unnamed h.named rfl
  · intro q hq
    rw [h.xai q hq]
    exact hseq
  · rw [h.pc]
    trivial
  · intro hname
    constructor
    · rw [h.pc]
      trivial
    · exact hlines
    · exact h.pending
    · rw [h.inProgess]
      rfl
    · intro q hq
      rw [h.xai q hq]
      exact hname
  · intro _
    constructor
    · rw [h.pc]
      trivial
    · rw [hlines]
      exact List.forall_mem_nil _
    · rw [h.pending]
      exact List.forall_mem_nil _

theorem World.Sound.grow (h : w.Sound) {files' : List BinlogFile} (hgrows : Grows w.files files')
    (hnodup : (files'.map BinlogFile.name).Nodup) (hnamed : [] ∉ files'.map BinlogFile.name) :
    World.Sound { w with files := files' } := by
  have hn : (w.files.map BinlogFile.name).Nodup := h.nodup
  constructor
  · exact hnodup
  · exact hnamed
  · exact h.lines.mono fun _ _ _ _ hx => hx.grow hgrows hn
  · exact h.loc
  · exact fun op hop => (h.pending op hop).grow hgrows hn hnamed
  · exact h.seq.grow hgrows hn hnamed
  · exact h.inProgess.grow hgrows hn hnamed
  · exact fun q hq => (h.xai q hq).grow hgrows hn hnamed
  · exact h.pc.grow hgrows hn hnamed
  · exact fun hname => ⟨(h.fresh hname).1, (h.fresh hname).2, (h.fresh hname).3,
      (h.fresh hname).4, (h.fresh hname).5⟩
  · exact fun hname => ⟨(h.unpublished hname).1, (h.unpublished hname).2, (h.unpublished hname).3⟩

/-- What an access may do to the positions, and what it leaves to do. -/
structure ExecSound (files : List BinlogFile) (origin : BinLogInfo) (taken : List PrintedLine)
    (g : Shared) (op : ThreadOp) (g' : Shared) (more : List ThreadOp) : Prop where
  seq : g'.stBinLogSeq = g.stBinLogSeq ∨
    Reached files origin taken g'.stBinLogSeq ∧ g'.stBinLogSeq.szBinLogName ≠ []
  inProgess : g'.stBinLogSeqInProgess = g.stBinLogSeqInProgess ∨
    Stands files origin taken g'.stBinLogSeqInProgess
  xai : ∀ q ∈ g'.xai, q ∈ g.xai ∨ Reached files origin taken q
  rest : ∀ op ∈ more, OpSound files origin taken op
  unpublished : op.Private → ∀ op ∈ more, op.Private

theorem exec_sound {files : List BinlogFile} {origin : BinLogInfo} {taken : List PrintedLine}
    {g : Shared} {op : ThreadOp} (hop : OpSound files origin taken op)
    (hin : Reached files origin taken g.stBinLogSeqInProgess)
    (hcopy : ¬op.Private → g.stBinLogSeqInProgess.szBinLogName ≠ []) :
    ExecSound files origin taken g op (op.exec g).1 (op.exec g).2 := by
  have hframe : ∀ {g' : Shared}, g'.stBinLogSeq = g.stBinLogSeq →
      g'.stBinLogSeqInProgess = g.stBinLogSeqInProgess → g'.xai = g.xai →
      ExecSound files origin taken g op g' [] := fun h₁ h₂ h₃ =>
    ⟨.inl h₁, .inl h₂, fun q hq => .inl (h₃ ▸ hq), List.forall_mem_nil _,
      fun _ => List.forall_mem_nil _⟩
  cases op with
  | op op =>
    cases op with
    | setInProgess seq =>
      exact ⟨.inl rfl, .inr hop, fun q hq => .inl hq, List.forall_mem_nil _,
        fun _ => List.forall_mem_nil _⟩
    | saveInDisk idx =>
      exact ⟨.inl rfl, .inl rfl, fun q hq => .inl hq, List.forall_mem_singleton.mpr hin,
        fun _ => List.forall_mem_singleton.mpr trivial⟩
    | resetUnlessFirst name =>
      simp only [ThreadOp.exec]
      split
      · exact ⟨.inl rfl, .inl rfl, fun q hq => .inl hq, List.forall_mem_singleton.mpr hop,
          fun _ => List.forall_mem_singleton.mpr trivial⟩
      · exact hframe rfl rfl rfl
    | publishIfLast name =>
      simp only [ThreadOp.exec]
      split
      · refine ⟨.inl rfl, .inl rfl, fun q hq => .inl hq, ?_, fun h => h.elim⟩
        simp only [List.forall_mem_cons]
        exact ⟨trivial, trivial, List.forall_mem_nil _⟩
      · exact hframe rfl rfl rfl
    | _ => exact hframe rfl rfl rfl
  | writeXai seq =>
    refine ⟨.inl rfl, .inl rfl, fun q hq => ?_, List.forall_mem_nil _,
      fun _ => List.forall_mem_nil _⟩
    rcases List.mem_append.mp hq with hq | hq
    · exact .inl hq
    · exact .inr (List.mem_singleton.mp hq ▸ hop)
  | copySeq =>
    exact ⟨.inl rfl, .inl rfl, fun q hq => .inl hq,
      List.forall_mem_singleton.mpr ⟨hin, hcopy id⟩, fun h => h.elim⟩
  | writeSeq seq =>
    exact ⟨.inr hop, .inl rfl, fun q hq => .inl hq, List.forall_mem_nil _,
      fun _ => List.forall_mem_nil _⟩
  | signal => exact hframe rfl rfl rfl

theorem PcSound.of_named {files : List BinlogFile} {origin : BinLogInfo}
    {taken pipe taken' pipe' : List PrintedLine} {g g' : Shared} {pc : JournalPc}
    (h : PcSound files origin taken pipe g pc) (hname : g.stBinLogSeq.szBinLogName ≠ [])
    (hlines : taken' ++ pipe' = taken ++ pipe) (hsub : taken ⊆ taken') :
    PcSound files origin taken' pipe' g' pc := by
  cases pc with
  | loaded names => exact h
  | status seq => exact absurd h.2 hname
  | found seq more => exact ⟨h.1.mono hsub, h.2⟩
  | cleared seq more => exact ⟨h.1.mono hsub, h.2⟩
  | named seq more => exact ⟨h.1.mono hsub, h.2⟩
  | begun seq more => exact ⟨h.1.mono hsub, h.2⟩
  | opening name pos more =>
    simp only [PcSound, hlines] at h ⊢
    exact h
  | reading info name offset more =>
    simp only [PcSound, hlines] at h ⊢
    exact h
  | ended name => exact h
  | closing name => exact h
  | copying seq => exact ⟨h.1.mono hsub, h.2⟩
  | _ => trivial

/-- An access of the listener. -/
theorem World.Sound.access (h : w.Sound) {op : ThreadOp} {ops : List ThreadOp}
    (hpending : w.pending = op :: ops) :
    World.Sound { w with
      shared := (op.exec w.shared).1, pending := (op.exec w.shared).2 ++ ops } := by
  have hall := h.pending
  rw [hpending, List.forall_mem_cons] at hall
  have hname : w.shared.stBinLogSeq.szBinLogName ≠ [] := fun hname => by
    have hnil := (h.fresh hname).pending
    rw [hpending] at hnil
    cases hnil
  have hexec := exec_sound hall.1 h.inProgess fun hop hin =>
    hop ((h.unpublished hin).pending op (hpending ▸ List.mem_cons_self))
  have hseq : (op.exec w.shared).1.stBinLogSeq.szBinLogName ≠ [] := by
    rcases hexec.seq with heq | ⟨-, hne⟩
    · rwa [heq]
    · exact hne
  constructor
  · exact h.nodup
  · exact h.named
  · exact h.lines
  · exact h.loc
  · exact List.forall_mem_append.mpr ⟨hexec.rest, hall.2⟩
  · exact hexec.seq.elim (fun heq => by rw [heq]; exact h.seq) fun hr => hr.1
  · exact hexec.inProgess.elim (fun heq => by rw [heq]; exact h.inProgess) Stands.reached
  · exact fun q hq => (hexec.xai q hq).elim (h.xai q) id
  · exact h.pc.of_named hname rfl (List.Subset.refl _)
  · exact fun hnil => absurd hnil hseq
  · intro hin
    rcases hexec.inProgess with heq | hstands
    · rw [heq] at hin
      have hearly := h.unpublished hin
      have hpriv := hearly.pending
      rw [hpending, List.forall_mem_cons] at hpriv
      exact ⟨hearly.pc, hearly.lines,
        List.forall_mem_append.mpr ⟨hexec.unpublished hpriv.1, hpriv.2⟩⟩
    · exact absurd hin (hstands.named h.named)

/-- What a line leaves to do. -/
theorem opSound_of_line {files : List BinlogFile} {origin : BinLogInfo} {before : List PrintedLine}
    {x : PrintedLine} (h : LineSound files origin before x) :
    ∀ op ∈ x.action.ops (nameOf before), OpSound files origin (before ++ [x]) (.op op) := by
  have htargets := h.2
  cases hx : x.action with
  | goTo pos =>
    rw [hx] at htargets
    exact List.forall_mem_singleton.mpr (htargets [] _ (List.mem_singleton_self _))
  | save idx pos =>
    rw [hx] at htargets
    simp only [Action.ops, List.forall_mem_cons]
    exact ⟨htargets [] _ (List.mem_singleton_self _), trivial, List.forall_mem_nil _⟩
  | startBinlog name =>
    rw [hx] at htargets
    simp only [Action.ops, List.forall_mem_cons]
    refine ⟨trivial, htargets ('x' :: name) _ ?_, List.forall_mem_nil _⟩
    rw [Action.targets, if_pos (List.cons_ne_self 'x' name).symm]
    exact List.mem_singleton_self _
  | _ => simp [Action.ops, OpSound]

theorem private_of_action {a : Action} (h : a ≠ .lastBinlog) (name : Text) :
    ∀ op ∈ a.ops name, (ThreadOp.op op).Private := by
  cases a with
  | lastBinlog => exact absurd rfl h
  | _ => simp [Action.ops, ThreadOp.Private]

/-- The line that the listener takes makes it do what it is printed for. -/
theorem World.Sound.line (h : w.Sound) {x : PrintedLine} {pipe : List PrintedLine}
    (hpipe : w.pipe = x :: pipe) {hh : Handled}
    (hline : handleLine w.shared.stBinLogSeq w.loc x.text = .ok hh) :
    LineSound w.files w.origin.place w.taken x ∧ ∃ closes,
      hh.loc.szBinLogName = x.action.szBinLogName (nameOf w.taken) ∧ ClosesRow closes ∧
        hh.ops = closes ++ x.action.ops (nameOf w.taken) := by
  have hx : LineSound w.files w.origin.place w.taken x := by
    have hall := h.lines
    rw [hpipe] at hall
    exact hall.at
  obtain ⟨hh', closes, hok, hloc, hcloses, hops⟩ := handleLine_acts hx.1 w.shared.stBinLogSeq w.loc
  obtain rfl : hh' = hh := Except.ok.inj (hok.symm.trans hline)
  rw [h.loc] at hloc hops
  exact ⟨hx, closes, hloc, hcloses, hops⟩

/-- The listener takes a line. -/
theorem World.Sound.take (h : w.Sound) {x : PrintedLine}
    {pipe : List PrintedLine} (hpipe : w.pipe = x :: pipe) {hh : Handled}
    (hline : handleLine w.shared.stBinLogSeq w.loc x.text = .ok hh) :
    World.Sound { w with
      pipe := pipe, loc := hh.loc, pending := hh.ops.map .op, taken := w.taken ++ [x] } := by
  have hlines : (w.taken ++ [x]) ++ pipe = w.taken ++ w.pipe := by
    rw [hpipe, List.append_assoc, List.singleton_append]
  have hsub : w.taken ⊆ w.taken ++ [x] := List.subset_append_left _ _
  obtain ⟨hx, closes, hloc, hcloses, hops⟩ := h.line hpipe hline
  have hname : w.shared.stBinLogSeq.szBinLogName ≠ [] := fun hname => by
    have hnil := (h.fresh hname).lines
    rw [hpipe] at hnil
    exact absurd hnil (by simp)
  constructor
  · exact h.nodup
  · exact h.named
  · dsimp only
    rw [hlines]
    exact h.lines
  · dsimp only
    rw [hloc, nameOf_append]
    rfl
  · dsimp only
    rw [hops, List.forall_mem_map, List.forall_mem_append]
    refine ⟨fun op hop => ?_, opSound_of_line hx⟩
    rcases hcloses with rfl | rfl
    · cases hop
    · rw [List.mem_singleton.mp hop]
      trivial
  · exact h.seq.mono hsub
  · exact h.inProgess.mono hsub
  · exact fun q hq => (h.xai q hq).mono hsub
  · exact h.pc.of_named hname hlines hsub
  · exact fun hnil => absurd hnil hname
  · intro hin
    have hearly := h.unpublished hin
    refine ⟨hearly.pc, ?_, ?_⟩
    · dsimp only
      rw [hlines]
      exact hearly.lines
    · dsimp only
      rw [hops, List.forall_mem_map, List.forall_mem_append]
      refine ⟨fun op hop => ?_, private_of_action ?_ _⟩
      · rcases hcloses with rfl | rfl
        · cases hop
        · rw [List.mem_singleton.mp hop]
          trivial
      · apply hearly.lines
        rw [hpipe]
        exact List.mem_append_right _ List.mem_cons_self

end Steps

end BinlogCapture
