import BinlogCapture.Coverage
import BinlogCapture.Handshake
import BinlogCapture.PassOrder
import BinlogCapture.Persisted

/-! What is captured twice: while every wait ends with the event, a pass begins where the listener
stands behind everything that was printed before, so only events behind the last checkpoint are
captured again. -/
namespace BinlogCapture
open CString Fallible LineFeed Runs Histories

/-- The offsets of the binlogs are carried by the markers. -/
def World.Short (w : World) : Prop := ∀ f ∈ w.files, f.size < 2 ^ 31

/-- The checkpoints of the events whose markers are among the lines are not behind the place. -/
def CheckpointsBefore (names : List Text) (lines : List PrintedLine) (p : BinLogInfo) : Prop :=
  ∀ z ∈ lines, ∀ pos ev, z.source = .marker pos ev → ∀ c ∈ ev.checkpoint pos,
    AtOrBefore names ⟨z.szBinLogName, c⟩ p

/-- The first line of an event is printed behind the checkpoints. -/
def BehindCheckpoints (names : List Text) (before : List PrintedLine) (y : PrintedLine) : Prop :=
  ∀ pos ev, y.source = .event pos ev → CheckpointsBefore names before ⟨y.szBinLogName, pos⟩

/-- A pass begins where everything that was printed is handled: not in front of a checkpoint that is
captured, and not behind an event that is not. -/
structure World.Continues (w : World) (seq : BinLogSequence) : Prop where
  pipe : w.pipe = []
  pending : w.pending = []
  inProgess : seq = w.shared.stBinLogSeqInProgess
  behind : CheckpointsBefore w.names w.taken seq.place
  covered : Covers w.files w.origin.place w.taken seq.place

/-- Where the passes begin, and what is captured twice: only what is behind all checkpoints that are
captured before the second time. -/
structure World.AtMostOnce (w : World) : Prop where
  next : ∀ seq more, w.pc = .found seq more → w.taken = [] ∨ w.Continues seq
  twice : ∀ before x y pos ev, w.CapturedTwice before x y pos ev →
    CheckpointsBefore w.names before ⟨y.szBinLogName, pos⟩

/-- The positions to which the accesses that are left move the listener. -/
def opTargets (first : Text) : ThreadOp → List BinLogSequence
  | .op (.setInProgess seq) => [seq]
  | .op (.resetUnlessFirst name) => if name ≠ first then [⟨name, binLogHeaderSize, 0⟩] else []
  | _ => []

/-- The positions that the listener still goes to. -/
def World.ahead (w : World) : List BinLogSequence :=
  w.pending.flatMap (opTargets w.shared.stBinLogInfoFirst.szBinLogName) ++
    targets w.shared.stBinLogInfoFirst.szBinLogName (nameOf w.taken)
      (w.pipe.map PrintedLine.action)

/-- Where the listener stands when it has handled everything. -/
def World.goal (w : World) : BinLogSequence :=
  w.ahead.getLast?.getD w.shared.stBinLogSeqInProgess

/-- The access does not publish the position, nor does one that follows from it. -/
def ThreadOp.Silent : ThreadOp → Prop
  | .op (.publishIfLast _) | .copySeq | .writeSeq _ | .signal => False
  | _ => True

def World.AtStop (w : World) : Prop := w.pipe = [] ∧ w.pending = []

/-- The end of the pass is not printed. -/
def World.InPass (w : World) : Prop :=
  (∀ op ∈ w.pending, op.Silent) ∧ ∀ x ∈ w.pipe, x.action ≠ .lastBinlog

/-- The end of the pass is the last line that is printed. -/
def World.LastPrinted (w : World) : Prop :=
  (w.pipe = [] ∨ ∀ op ∈ w.pending, op.Silent) ∧ ∀ x ∈ w.pipe.dropLast, x.action ≠ .lastBinlog

/-- What is printed and captured where `ReadJournal` stands. -/
def World.Phase (w : World) : Prop :=
  let first := w.shared.stBinLogInfoFirst.szBinLogName
  let bound := CheckpointsBefore w.names (w.taken ++ w.pipe)
  match w.pc with
  | .top | .loaded _ =>
    w.AtStop ∧ (w.taken = [] ∨ w.shared.stBinLogSeq = w.shared.stBinLogSeqInProgess)
  | .status _ | .saving => w.AtStop ∧ w.taken = []
  | .found seq _ | .cleared seq _ =>
    w.AtStop ∧ (w.taken = [] ∨ seq = w.shared.stBinLogSeqInProgess)
  | .named seq _ =>
    w.AtStop ∧ (w.taken = [] ∨ seq = w.shared.stBinLogSeqInProgess) ∧ first = seq.szBinLogName
  | .begun seq _ => w.InPass ∧ w.ahead = [] ∧ first = seq.szBinLogName ∧ bound seq.place
  | .opening name pos _ => w.InPass ∧ (name = first ∨ pos = binLogHeaderSize) ∧ bound ⟨name, pos⟩
  | .reading _ name offset _ => w.InPass ∧ bound ⟨name, offset⟩
  | .ended _ | .closing _ => w.InPass
  | .waiting => w.LastPrinted
  | .gaveUp | .copying _ => False
  | .stopped => w.AtStop

/-- What every step keeps as long as no wait is given up. -/
structure World.InStep (w : World) : Prop where
  order : Extends (BehindCheckpoints w.names) [] (w.taken ++ w.pipe)
  goal : CheckpointsBefore w.names (w.taken ++ w.pipe) w.goal.place
  phase : w.Phase

section Facts
variable {names names' : List Text} {lines lines' : List PrintedLine} {p p' : BinLogInfo}

theorem CheckpointsBefore.grow (h : CheckpointsBefore names lines p) (hnames : names <+: names') :
    CheckpointsBefore names' lines p := fun z hz pos ev hs c hc =>
  (atOrBefore_grow hnames (h z hz pos ev hs c hc).1).mpr (h z hz pos ev hs c hc)

theorem CheckpointsBefore.trans (h : CheckpointsBefore names lines p)
    (hle : AtOrBefore names p p') : CheckpointsBefore names lines p' :=
  fun z hz pos ev hs c hc => (h z hz pos ev hs c hc).trans hle

theorem checkpointsBefore_append : CheckpointsBefore names (lines ++ lines') p ↔
    CheckpointsBefore names lines p ∧ CheckpointsBefore names lines' p := List.forall_mem_append

/-- The lines begin no event and carry no marker of one. -/
def Neutral (lines : List PrintedLine) : Prop :=
  ∀ x ∈ lines, ∀ pos ev, x.source ≠ .event pos ev ∧ x.source ≠ .marker pos ev

theorem Quiet.neutral (h : Quiet lines) : Neutral lines := fun x hx pos ev => by
  rw [(h x hx).1]
  exact ⟨Source.noConfusion, Source.noConfusion⟩

theorem neutral_singleton {x : PrintedLine}
    (h : ∀ pos ev, x.source ≠ .event pos ev ∧ x.source ≠ .marker pos ev) : Neutral [x] :=
  List.forall_mem_singleton.mpr h

theorem Neutral.append (h : Neutral lines) (h' : Neutral lines') : Neutral (lines ++ lines') :=
  List.forall_mem_append.mpr ⟨h, h'⟩

theorem Neutral.checkpoints (h : Neutral lines) : CheckpointsBefore names lines p :=
  fun z hz pos ev hs => absurd hs (h z hz pos ev).2

/-- Neutral lines leave the place where it is. -/
theorem Neutral.behind {taken pipe : List PrintedLine} (h : Neutral lines)
    (hbefore : CheckpointsBefore names (taken ++ pipe) p) :
    CheckpointsBefore names (taken ++ (pipe ++ lines)) p := by
  rw [← List.append_assoc]
  exact checkpointsBefore_append.mpr ⟨hbefore, h.checkpoints⟩

theorem Neutral.order (h : Neutral lines) {before : List PrintedLine} :
    Extends (BehindCheckpoints names) before lines :=
  extends_of_forall fun _ x hx _ pos ev hs => absurd hs (h x hx pos ev).1

end Facts

section EventLines
variable {names : List Text} {before : List PrintedLine} {ulIndex : ℕ} {name : Text}
  {info : PrintInfo} {pos : ℕ} {ev : LogEvent} {p : BinLogInfo}

/-- The only checkpoint of the lines of an event is its own. -/
theorem checkpoints_eventLines (h : ∀ c ∈ ev.checkpoint pos, AtOrBefore names ⟨name, c⟩ p) :
    CheckpointsBefore names (eventLines ulIndex name info pos ev) p := by
  intro z hz pos' ev' hs c hc
  obtain ⟨-, hname, hsource⟩ := mem_eventLines z hz
  rw [hs] at hsource
  rcases hsource with heq | heq | heq
  · cases heq
  · cases heq
    rw [hname]
    exact h c hc
  · cases heq

/-- An event that is printed behind the checkpoints leaves those behind it. -/
theorem behind_eventLines (hlt : pos < ev.logPos) (hmem : name ∈ names)
    (hbefore : CheckpointsBefore names before ⟨name, pos⟩) :
    Extends (BehindCheckpoints names) before (eventLines ulIndex name info pos ev) ∧
      CheckpointsBefore names (before ++ eventLines ulIndex name info pos ev)
        ⟨name, ev.logPos⟩ := by
  obtain ⟨first, rest, hlines, hsource, hrest⟩ := eventLines_cons ulIndex name info pos ev
  have hcheck : CheckpointsBefore names (eventLines ulIndex name info pos ev)
      ⟨name, ev.logPos⟩ := by
    refine checkpoints_eventLines fun c hc => ⟨hmem, .inr ⟨rfl, ?_⟩⟩
    have hcases := checkpoint_cases hc
    dsimp only
    omega
  constructor
  · obtain ⟨-, hname, -⟩ := mem_eventLines first (by rw [hlines]; exact List.mem_cons_self)
    rw [hlines]
    refine ⟨fun pos' ev' hs => ?_, extends_of_forall fun _ x hx _ pos ev hs =>
      absurd hs (hrest x hx pos ev)⟩
    rw [hsource] at hs
    cases hs
    rw [hname]
    exact hbefore
  · exact checkpointsBefore_append.mpr
      ⟨hbefore.trans ⟨hmem, .inr ⟨rfl, hlt.le⟩⟩, hcheck⟩

theorem action_eventLines : ∀ x ∈ eventLines ulIndex name info pos ev, x.action ≠ .lastBinlog := by
  intro x hx
  obtain ⟨-, -, hsource⟩ := mem_eventLines x hx
  unfold PrintedLine.action
  rcases hsource with heq | heq | heq
  · rw [heq]
    exact Action.noConfusion
  · rw [heq]
    dsimp only
    unfold LogEvent.actions
    cases ev.data <;> exact Action.noConfusion
  · rw [heq]
    exact Action.noConfusion

/-- The lines of an event move the listener to its checkpoint. -/
theorem targets_eventLines (hinfo : InfoPlain info) (hev : ev.TextPlain ulIndex)
    (hlt : pos < ev.logPos) (hshort : ev.logPos < 2 ^ 31) (first : Text) :
    targets first name ((eventLines ulIndex name info pos ev).map PrintedLine.action) =
      (ev.checkpoint pos).toList.map fun c => ⟨name, c, 0⟩ := by
  obtain ⟨head, front, marker, back, hlines, ⟨-, -, hsource, -⟩, hfront, hback, hmarker⟩ :=
    eventLines_shape name hinfo hev pos
  have hhead : head.action = .skip := by rw [PrintedLine.action, hsource]
  have hmid : targets first name (marker.map PrintedLine.action) =
      (ev.checkpoint pos).toList.map fun c => ⟨name, c, 0⟩ := by
    rcases hmarker with ⟨hnone, rfl⟩ | ⟨x, rfl, -, hx, -⟩
    · unfold LogEvent.marker at hnone
      unfold LogEvent.checkpoint
      cases hd : ev.data <;> rw [hd] at hnone <;> first | rfl | cases hnone
    · rw [List.map_singleton, action_of_marker hx, LogEvent.actions, LogEvent.checkpoint,
        clip_of_lt hshort, clip_of_lt (hlt.trans hshort)]
      cases ev.data <;> rfl
  rw [hlines, List.map_append, List.map_append, targets_append, targets_append, hback.targets,
    List.append_nil, List.map_cons, targets, hhead, hfront.targets]
  have hname : nameAfter name (.skip :: front.map PrintedLine.action) = name :=
    hfront.nameAfter name
  rw [hname, hmid]
  rfl

end EventLines

section Listener
variable {w : World}

/-- An access that is no move leaves the listener what it had to move to; the others are moves. -/
theorem exec_targets (g : Shared) (op : ThreadOp) (first : Text)
    (hfirst : first = g.stBinLogInfoFirst.szBinLogName) :
    (op.exec g).1.stBinLogInfoFirst = g.stBinLogInfoFirst ∧
      ((op.exec g).1.stBinLogSeqInProgess = g.stBinLogSeqInProgess ∧
          (op.exec g).2.flatMap (opTargets first) = opTargets first op ∨
        opTargets first op = [(op.exec g).1.stBinLogSeqInProgess] ∧ (op.exec g).2 = []) := by
  subst hfirst
  cases op with
  | op op =>
    cases op with
    | setInProgess seq => exact ⟨rfl, .inr ⟨rfl, rfl⟩⟩
    | resetUnlessFirst name =>
      refine ⟨rfl, .inl ⟨rfl, ?_⟩⟩
      simp only [ThreadOp.exec, opTargets]
      split <;> rfl
    | publishIfLast name =>
      refine ⟨rfl, .inl ⟨rfl, ?_⟩⟩
      simp only [ThreadOp.exec]
      split <;> rfl
    | _ => exact ⟨rfl, .inl ⟨rfl, rfl⟩⟩
  | _ => exact ⟨rfl, .inl ⟨rfl, rfl⟩⟩

theorem silent_exec {g : Shared} {op : ThreadOp} (h : op.Silent) :
    ∀ op' ∈ (op.exec g).2, op'.Silent := by
  cases op with
  | op op =>
    cases op with
    | resetUnlessFirst name =>
      simp only [ThreadOp.exec]
      split <;> simp [ThreadOp.Silent]
    | publishIfLast name => exact h.elim
    | _ => simp [ThreadOp.exec, ThreadOp.Silent]
  | writeXai seq => exact List.forall_mem_nil _
  | _ => exact h.elim

theorem opTargets_action (a : Action) (name first : Text) :
    ((a.ops name).map ThreadOp.op).flatMap (opTargets first) = a.targets first name := by
  cases a with
  | startBinlog name' => simp [Action.ops, Action.targets, opTargets]
  | _ => rfl

theorem silent_action {a : Action} (h : a ≠ .lastBinlog) (name : Text) :
    ∀ op ∈ (a.ops name).map ThreadOp.op, op.Silent := by
  cases a with
  | lastBinlog => exact absurd rfl h
  | _ => simp [Action.ops, ThreadOp.Silent]

theorem closesRow_targets {closes : List SharedOp} (h : ClosesRow closes) (first : Text) :
    (closes.map ThreadOp.op).flatMap (opTargets first) = [] ∧
      ∀ op ∈ closes.map ThreadOp.op, op.Silent := by
  rcases h with rfl | rfl
  · exact ⟨rfl, List.forall_mem_nil _⟩
  · exact ⟨rfl, List.forall_mem_singleton.mpr trivial⟩

/-- An access changes nothing about where the listener will stand. -/
theorem goal_access {op : ThreadOp} {ops : List ThreadOp} (hpending : w.pending = op :: ops)
    {w' : World} (hw : w' = { w with
      shared := (op.exec w.shared).1, pending := (op.exec w.shared).2 ++ ops }) :
    w'.goal = w.goal ∧ (w.ahead = [] → w'.ahead = []) := by
  subst hw
  obtain ⟨hfirst, hcases⟩ := exec_targets w.shared op _ rfl
  unfold World.goal World.ahead
  dsimp only
  rw [hfirst, hpending, List.flatMap_append, List.flatMap_cons]
  rcases hcases with ⟨hin, hsame⟩ | ⟨hmove, hnil⟩
  · rw [hin, hsame]
    exact ⟨rfl, id⟩
  · rw [hmove, hnil]
    refine ⟨?_, fun h => by cases h⟩
    rw [List.flatMap_nil, List.nil_append, List.append_assoc, List.singleton_append,
      List.getLast?_cons]
    rfl

/-- The listener takes a line, and has to do what it says. -/
theorem goal_take {x : PrintedLine} {pipe : List PrintedLine} (hpending : w.pending = [])
    (hpipe : w.pipe = x :: pipe) {hh : Handled} {closes : List SharedOp}
    (hcloses : ClosesRow closes) (hops : hh.ops = closes ++ x.action.ops (nameOf w.taken))
    {w' : World} (hw : w' = { w with
      pipe := pipe, loc := hh.loc, pending := hh.ops.map .op, taken := w.taken ++ [x] }) :
    w'.ahead = w.ahead := by
  subst hw
  unfold World.ahead
  dsimp only
  rw [hpending, hpipe, hops, List.map_append, List.flatMap_append, (closesRow_targets hcloses _).1,
    opTargets_action, nameOf_append, List.flatMap_nil, List.map_cons]
  rfl

end Listener

section Steps
variable {w w' : World}

theorem World.InStep.grow (h : w.InStep) {files' : List BinlogFile}
    (hnames : w.names <+: files'.map BinlogFile.name) :
    World.InStep { w with files := files' } := by
  constructor
  · exact h.order.mono fun _ _ _ _ hx pos ev hs => (hx pos ev hs).grow hnames
  · exact h.goal.grow hnames
  · have hphase := h.phase
    unfold World.Phase at hphase ⊢
    dsimp only at hphase ⊢
    cases hpc : w.pc with
    | begun seq more =>
      rw [hpc] at hphase
      obtain ⟨hpass, hahead, hfirst, hbefore⟩ := hphase
      exact ⟨hpass, hahead, hfirst, hbefore.grow hnames⟩
    | opening name pos more =>
      rw [hpc] at hphase
      obtain ⟨hpass, hfirst, hbefore⟩ := hphase
      exact ⟨hpass, hfirst, hbefore.grow hnames⟩
    | reading info name offset more =>
      rw [hpc] at hphase
      obtain ⟨hpass, hbefore⟩ := hphase
      exact ⟨hpass, hbefore.grow hnames⟩
    | _ =>
      rw [hpc] at hphase
      exact hphase

/-- A step of the listener: `ReadJournal` does not stand between two passes, and it stays where it
is. -/
theorem World.InStep.listen (h : w.InStep) (hbusy : ¬w.AtStop) (hpc : w'.pc = w.pc)
    (hnames : w'.names = w.names) (hlines : w'.taken ++ w'.pipe = w.taken ++ w.pipe)
    (hfirst : w'.shared.stBinLogInfoFirst = w.shared.stBinLogInfoFirst)
    (hgoal : w'.goal = w.goal) (hahead : w.ahead = [] → w'.ahead = [])
    (hpass : w.InPass → w'.InPass) (hlast : w.LastPrinted → w'.LastPrinted) : w'.InStep := by
  constructor
  · rw [hnames, hlines]
    exact h.order
  · rw [hnames, hlines, hgoal]
    exact h.goal
  · have hphase := h.phase
    unfold World.Phase at hphase ⊢
    dsimp only at hphase ⊢
    rw [hpc, hfirst, hnames, hlines]
    cases hpc : w.pc with
    | begun seq more =>
      rw [hpc] at hphase
      exact ⟨hpass hphase.1, hahead hphase.2.1, hphase.2.2⟩
    | opening name pos more =>
      rw [hpc] at hphase
      exact ⟨hpass hphase.1, hphase.2⟩
    | reading info name offset more =>
      rw [hpc] at hphase
      exact ⟨hpass hphase.1, hphase.2⟩
    | ended name =>
      rw [hpc] at hphase
      exact hpass hphase
    | closing name =>
      rw [hpc] at hphase
      exact hpass hphase
    | waiting =>
      rw [hpc] at hphase
      exact hlast hphase
    | stopped =>
      rw [hpc] at hphase
      exact absurd hphase hbusy
    | gaveUp =>
      rw [hpc] at hphase
      exact hphase.elim
    | copying seq =>
      rw [hpc] at hphase
      exact hphase.elim
    | _ =>
      rw [hpc] at hphase
      exact absurd hphase.1 hbusy

theorem World.InStep.access (h : w.InStep) {op : ThreadOp} {ops : List ThreadOp}
    (hpending : w.pending = op :: ops) :
    World.InStep { w with
      shared := (op.exec w.shared).1, pending := (op.exec w.shared).2 ++ ops } := by
  have hbusy : ¬w.AtStop := fun hstop => by
    have hnil := hstop.2
    rw [hpending] at hnil
    cases hnil
  obtain ⟨hgoal, hahead⟩ := goal_access hpending rfl
  have hsilent : (∀ op ∈ w.pending, op.Silent) →
      ∀ op' ∈ (op.exec w.shared).2 ++ ops, op'.Silent := by
    intro hall
    rw [hpending, List.forall_mem_cons] at hall
    exact List.forall_mem_append.mpr ⟨silent_exec hall.1, hall.2⟩
  apply h.listen hbusy
  · rfl
  · rfl
  · rfl
  · exact (exec_targets w.shared op _ rfl).1
  · exact hgoal
  · exact hahead
  · exact fun hpass => ⟨hsilent hpass.1, hpass.2⟩
  · exact fun hlast => ⟨hlast.1.imp_right hsilent, hlast.2⟩

theorem World.InStep.take (h : w.InStep) (hpending : w.pending = []) {x : PrintedLine}
    {pipe : List PrintedLine} (hpipe : w.pipe = x :: pipe) {hh : Handled}
    {closes : List SharedOp} (hcloses : ClosesRow closes)
    (hops : hh.ops = closes ++ x.action.ops (nameOf w.taken)) :
    World.InStep { w with
      pipe := pipe, loc := hh.loc, pending := hh.ops.map .op, taken := w.taken ++ [x] } := by
  have hbusy : ¬w.AtStop := fun hstop => by
    have hnil := hstop.1
    rw [hpipe] at hnil
    cases hnil
  have hahead := goal_take hpending hpipe hcloses hops rfl
  have hsilent : x.action ≠ .lastBinlog → ∀ op ∈ hh.ops.map ThreadOp.op, op.Silent := by
    intro hx
    rw [hops, List.map_append]
    exact List.forall_mem_append.mpr ⟨(closesRow_targets hcloses []).2, silent_action hx _⟩
  apply h.listen hbusy
  · rfl
  · rfl
  · dsimp only
    rw [hpipe, List.append_assoc, List.singleton_append]
  · rfl
  · unfold World.goal
    rw [hahead]
  · exact fun hnil => hahead.trans hnil
  · rintro ⟨-, hnot⟩
    rw [hpipe, List.forall_mem_cons] at hnot
    exact ⟨hsilent hnot.1, hnot.2⟩
  · rintro ⟨-, hnot⟩
    rw [hpipe] at hnot
    cases pipe with
    | nil => exact ⟨.inl rfl, List.forall_mem_nil _⟩
    | cons y pipe =>
      rw [List.dropLast_cons_cons, List.forall_mem_cons] at hnot
      exact ⟨.inr (hsilent hnot.1), hnot.2⟩

theorem ahead_of_atStop (h : w.AtStop) : w.ahead = [] := by
  unfold World.ahead
  rw [h.1, h.2]
  rfl

theorem goal_of_atStop (h : w.AtStop) : w.goal = w.shared.stBinLogSeqInProgess := by
  rw [World.goal, ahead_of_atStop h]
  rfl

/-- `ReadJournal` prints nothing and does not move the listener. -/
theorem World.InStep.goOn (h : w.InStep) {g : Shared} {pc : JournalPc}
    {origin : BinLogSequence} {signalled : Bool}
    (hgoal : World.goal { w with
      shared := g, pc := pc, origin := origin, signalled := signalled } = w.goal)
    (hphase : World.Phase { w with
      shared := g, pc := pc, origin := origin, signalled := signalled }) :
    World.InStep { w with shared := g, pc := pc, origin := origin, signalled := signalled } := by
  constructor
  · exact h.order
  · rw [hgoal]
    exact h.goal
  · exact hphase

/-- Between two passes. -/
theorem World.InStep.between (h : w.InStep) (hstop : w.AtStop) {g : Shared} {pc : JournalPc}
    {origin : BinLogSequence} {signalled : Bool}
    (hin : g.stBinLogSeqInProgess = w.shared.stBinLogSeqInProgess)
    (hphase : World.Phase { w with
      shared := g, pc := pc, origin := origin, signalled := signalled }) :
    World.InStep { w with shared := g, pc := pc, origin := origin, signalled := signalled } := by
  apply h.goOn _ hphase
  have hstop' : World.AtStop { w with
      shared := g, pc := pc, origin := origin, signalled := signalled } := hstop
  rw [goal_of_atStop hstop', goal_of_atStop hstop]
  exact hin

section Print
variable {lines : List PrintedLine}

/-- `ReadJournal` prints. -/
theorem World.InStep.print (h : w.InStep)
    (horder : Extends (BehindCheckpoints w.names) (w.taken ++ w.pipe) lines)
    (hgoal : CheckpointsBefore w.names (w.taken ++ w.pipe ++ lines) ((w.ahead ++
      targets w.shared.stBinLogInfoFirst.szBinLogName (nameOf (w.taken ++ w.pipe))
        (lines.map PrintedLine.action)).getLast?.getD w.shared.stBinLogSeqInProgess).place)
    (pc : JournalPc) (ulIndex : ℕ) (annotateEvent : Option (Header × Text))
    (hphase : World.Phase { w with
      pipe := w.pipe ++ lines, pc := pc, ulIndex := ulIndex, annotateEvent := annotateEvent }) :
    World.InStep { w with
      pipe := w.pipe ++ lines, pc := pc, ulIndex := ulIndex, annotateEvent := annotateEvent } := by
  constructor
  · dsimp only
    rw [← List.append_assoc, extends_append, List.nil_append]
    exact ⟨h.order, horder⟩
  · unfold World.goal World.ahead
    dsimp only
    rw [← List.append_assoc, List.map_append, targets_append, ← List.append_assoc, ← nameOf_append]
    exact hgoal
  · exact hphase

/-- Neutral lines that move the listener nowhere. -/
theorem World.InStep.printNeutral (h : w.InStep) (hneutral : Neutral lines)
    (htargets : ∀ first name, targets first name (lines.map PrintedLine.action) = [])
    (pc : JournalPc) (ulIndex : ℕ) (annotateEvent : Option (Header × Text))
    (hphase : World.Phase { w with
      pipe := w.pipe ++ lines, pc := pc, ulIndex := ulIndex, annotateEvent := annotateEvent }) :
    World.InStep { w with
      pipe := w.pipe ++ lines, pc := pc, ulIndex := ulIndex, annotateEvent := annotateEvent } := by
  apply h.print hneutral.order _ pc ulIndex annotateEvent hphase
  rw [htargets, List.append_nil]
  exact checkpointsBefore_append.mpr ⟨h.goal, hneutral.checkpoints⟩

theorem World.InPass.print (h : w.InPass) (hlines : ∀ x ∈ lines, x.action ≠ .lastBinlog)
    (hpending : w'.pending = w.pending) (hpipe : w'.pipe = w.pipe ++ lines) : w'.InPass := by
  unfold World.InPass
  rw [hpending, hpipe]
  exact ⟨h.1, List.forall_mem_append.mpr ⟨h.2, hlines⟩⟩

end Print

/-- The lines of the start of a file. -/
theorem World.InStep.openFile (h : w.InStep) (hplain : w.Plain) {f : BinlogFile}
    (hf : f ∈ w.files) {pos : ℕ} {more : List Text} (hpc : w.pc = .opening f.name pos more) :
    (w.openFile f pos more).InStep := by
  have hphase := h.phase
  unfold World.Phase at hphase
  dsimp only at hphase
  rw [hpc] at hphase
  obtain ⟨hpass, hfirst, hbefore⟩ := hphase
  obtain ⟨hnl, -, htexts⟩ := hplain f hf
  obtain ⟨-, hquiet⟩ := quiet_openFile w.ulIndex f.name w.annotateEvent htexts pos
  unfold World.openFile
  dsimp only
  rw [headLines_fileLine (by decide) hnl,
    List.append_assoc _ _ (plainLines _ _ (printEvents _ _ _).2),
    List.append_assoc]
  generalize plainLines w.ulIndex f.name (unlines '\n' startLines) ++ plainLines w.ulIndex f.name
    (printEvents w.ulIndex { annotateEvent := w.annotateEvent } (f.resent pos)).2 = quiet
    at hquiet ⊢
  generalize hx : (PrintedLine.mk w.ulIndex f.name .start _) = x
  have haction : x.action = .startBinlog f.name := by rw [← hx]; rfl
  have hneutral : Neutral ([x] ++ quiet) := by
    apply Neutral.append _ hquiet.neutral
    rw [← hx]
    exact neutral_singleton fun _ _ => ⟨Source.noConfusion, Source.noConfusion⟩
  have htargets : ∀ first name, targets first name (([x] ++ quiet).map PrintedLine.action) =
      if f.name ≠ first then [⟨f.name, binLogHeaderSize, 0⟩] else [] := by
    intro first name
    rw [List.map_append, targets_append, hquiet.targets, List.append_nil, List.map_singleton,
      haction]
    exact List.append_nil _
  have hnot : ∀ y ∈ [x] ++ quiet, y.action ≠ .lastBinlog := by
    rw [List.singleton_append, List.forall_mem_cons, haction]
    refine ⟨Action.noConfusion, fun y hy => ?_⟩
    rw [hquiet.action hy]
    exact Action.noConfusion
  have hmoved : CheckpointsBefore w.names (w.taken ++ w.pipe ++ ([x] ++ quiet)) ((w.ahead ++
      targets w.shared.stBinLogInfoFirst.szBinLogName (nameOf (w.taken ++ w.pipe))
        (([x] ++ quiet).map PrintedLine.action)).getLast?.getD
          w.shared.stBinLogSeqInProgess).place := by
    refine checkpointsBefore_append.mpr ⟨?_, hneutral.checkpoints⟩
    rw [htargets]
    split
    case isFalse =>
      rw [List.append_nil]
      exact h.goal
    case isTrue hne =>
      rw [List.getLast?_concat, Option.getD_some]
      rw [hfirst.resolve_left hne] at hbefore
      exact hbefore
  exact h.print hneutral.order hmoved _ _ _ ⟨hpass.print hnot rfl rfl, hneutral.behind hbefore⟩

/-- Behind an event the place is its end. -/
theorem World.InStep.readEvent (h : w.InStep) (hsound : w.Sound) (hplain : w.Plain)
    (hshort : w.Short) {f : BinlogFile} (hf : f ∈ w.files) {info : PrintInfo} {offset : ℕ}
    {more : List Text} (hpc : w.pc = .reading info f.name offset more)
    (hw : w.readEvent f info offset more = some w') : w'.InStep := by
  have hphase := h.phase
  unfold World.Phase at hphase
  dsimp only at hphase
  rw [hpc] at hphase
  obtain ⟨hpass, hbefore⟩ := hphase
  have hpcs := hsound.pc
  rw [hpc] at hpcs
  obtain ⟨-, hbehind, hname, hinfo⟩ := hpcs
  obtain ⟨hnl, -, htexts⟩ := hplain f hf
  have hmem : f.name ∈ w.names := List.mem_map_of_mem hf
  cases World.readOn hw with
  | @event ev he =>
    obtain ⟨-, hlt, hsize⟩ := f.event_bounds he
    dsimp only at hlt hsize
    have hev := htexts _ he w.ulIndex
    obtain ⟨horder, hend⟩ := behind_eventLines hlt hmem hbefore
    apply h.print horder
    · rw [hname, targets_eventLines hinfo hev hlt (hsize.trans_lt (hshort f hf)),
        checkpointsBefore_append]
      cases hcheck : ev.checkpoint offset with
      | none =>
        rw [Option.toList_none, List.map_nil, List.append_nil]
        refine ⟨h.goal, checkpoints_eventLines fun c hc => ?_⟩
        rw [hcheck] at hc
        cases hc
      | some c =>
        rw [Option.toList_some, List.map_singleton, List.getLast?_concat, Option.getD_some]
        have hle : offset ≤ c := by
          have hcases := checkpoint_cases hcheck
          omega
        refine ⟨hbefore.trans ⟨hmem, .inr ⟨rfl, hle⟩⟩, checkpoints_eventLines fun d hd => ?_⟩
        rw [hcheck] at hd
        cases hd
        exact ⟨hmem, .inr ⟨rfl, le_rfl⟩⟩
    · refine ⟨hpass.print action_eventLines rfl rfl, ?_⟩
      rw [← List.append_assoc]
      exact hend
  | fileEnd hsize =>
    rw [headLines_fileLine (by decide) hnl]
    have hquiet : Quiet (plainLines w.ulIndex f.name (unlines '\n' endLines)) :=
      quiet_plain plain_endLines
    generalize plainLines w.ulIndex f.name (unlines '\n' endLines) = quiet at hquiet ⊢
    generalize hx : (PrintedLine.mk w.ulIndex f.name .end_ _) = x
    have haction : x.action = .endBinlog := by rw [← hx]; rfl
    have hneutral : Neutral (quiet ++ [x]) := by
      apply hquiet.neutral.append
      rw [← hx]
      exact neutral_singleton fun _ _ => ⟨Source.noConfusion, Source.noConfusion⟩
    have hnot : ∀ y ∈ quiet ++ [x], y.action ≠ .lastBinlog := by
      rw [List.forall_mem_append, List.forall_mem_singleton, haction]
      refine ⟨fun y hy => ?_, Action.noConfusion⟩
      rw [hquiet.action hy]
      exact Action.noConfusion
    rw [List.append_assoc]
    apply h.printNeutral hneutral
    · intro first name
      rw [List.map_append, targets_append, hquiet.targets, List.map_singleton, haction]
      rfl
    · cases more with
      | nil => exact hpass.print hnot rfl rfl
      | cons next more =>
        have hle := (hbehind.next hsound.nodup).2 offset binLogHeaderSize
        exact ⟨hpass.print hnot rfl rfl, .inr rfl, hneutral.behind (hbefore.trans hle)⟩

/-- As long as no wait is given up, the listener signals only while `ReadJournal` waits. -/
theorem World.InStep.signalsInTime (h : w.InStep) (turn : Turn) : w.SignalsInTime turn := by
  cases turn with
  | listener =>
    intro hsignal
    have hmem : ThreadOp.signal ∈ w.pending := List.mem_of_mem_head? hsignal
    have hbusy : ¬w.AtStop := fun hstop => by
      rw [hstop.2] at hmem
      cases hmem
    have hout : ¬w.InPass := fun hpass => hpass.1 _ hmem
    have hphase := h.phase
    unfold World.Phase at hphase
    dsimp only at hphase
    cases hpc : w.pc with
    | waiting =>
      rw [hpc] at hphase
      exact ⟨rfl, hphase.1.resolve_right fun hsilent => hsilent _ hmem⟩
    | ended name =>
      rw [hpc] at hphase
      exact absurd hphase hout
    | closing name =>
      rw [hpc] at hphase
      exact absurd hphase hout
    | begun seq more =>
      rw [hpc] at hphase
      exact absurd hphase.1 hout
    | opening name pos more =>
      rw [hpc] at hphase
      exact absurd hphase.1 hout
    | reading info name offset more =>
      rw [hpc] at hphase
      exact absurd hphase.1 hout
    | stopped =>
      rw [hpc] at hphase
      exact absurd hphase hbusy
    | gaveUp =>
      rw [hpc] at hphase
      exact hphase.elim
    | copying seq =>
      rw [hpc] at hphase
      exact hphase.elim
    | _ =>
      rw [hpc] at hphase
      exact absurd hphase.1 hbusy
  | _ => trivial

theorem World.InStep.select (h : w.InStep) (hsound : w.Sound) {names : List Text}
    (hpc : w.pc = .loaded names) : (w.select names).InStep := by
  have hphase := h.phase
  unfold World.Phase at hphase
  dsimp only at hphase
  rw [hpc] at hphase
  obtain ⟨hstop, hseq⟩ := hphase
  unfold World.select
  dsimp only
  split
  case isTrue hname =>
    have hlines := (hsound.fresh hname).lines
    have htaken : w.taken = [] := (List.append_eq_nil_iff.mp hlines).1
    split
    · exact h.between hstop rfl ⟨hstop, hseq⟩
    · exact h.between hstop rfl ⟨hstop, htaken⟩
  case isFalse =>
    split
    · exact h.between hstop rfl hstop
    · exact h.between hstop rfl ⟨hstop, hseq⟩

/-- The pass begins: its place is where the listener stands. -/
theorem World.InStep.printFirst (h : w.InStep) (hplain : w.Plain) {dates : ℕ → DateText}
    {seq : BinLogSequence} {more : List Text} (hpc : w.pc = .named seq more)
    (hmem : seq.szBinLogName ∈ w.names) : (w.printFirst dates seq more).InStep := by
  have hphase := h.phase
  unfold World.Phase at hphase
  dsimp only at hphase
  rw [hpc] at hphase
  obtain ⟨hstop, hseq, hfirst⟩ := hphase
  obtain ⟨f, hf, hname⟩ := List.mem_map.mp hmem
  have hnl := (hplain f hf).1
  rw [hname] at hnl
  have hbound : CheckpointsBefore w.names (w.taken ++ w.pipe) seq.place := by
    rcases hseq with htaken | hseq
    · rw [htaken, hstop.1]
      exact List.forall_mem_nil _
    · have hgoal := h.goal
      rw [goal_of_atStop hstop, ← hseq] at hgoal
      exact hgoal
  rw [World.printFirst, headLines_passLine (by decide) hnl]
  generalize hx : (PrintedLine.mk (w.ulIndex + 1) seq.szBinLogName _ _) = x
  have haction : x.action = .firstBinlog seq.szBinLogName := by rw [← hx]; rfl
  have hneutral : Neutral [x] := by
    rw [← hx]
    exact neutral_singleton fun _ _ => ⟨Source.noConfusion, Source.noConfusion⟩
  have htargets : ∀ first name, targets first name ([x].map PrintedLine.action) = [] := by
    intro first name
    rw [List.map_singleton, haction]
    rfl
  apply h.printNeutral hneutral htargets
  refine ⟨⟨?_, ?_⟩, ?_, hfirst, hneutral.behind hbound⟩
  · dsimp only
    rw [hstop.2]
    exact List.forall_mem_nil _
  · dsimp only
    rw [hstop.1, List.nil_append, List.forall_mem_singleton, haction]
    exact Action.noConfusion
  · unfold World.ahead
    dsimp only
    rw [hstop.1, hstop.2, List.nil_append, htargets]
    rfl

theorem World.InStep.journalStep (h : w.InStep) (hsound : w.Sound) (hhandshake : w.Handshake)
    (hplain : w.Plain) (hshort : w.Short) {dates : ℕ → DateText}
    (hw : w.journalStep dates = some w') : w'.InStep := by
  have hphase := h.phase
  have hpcs := hsound.pc
  unfold World.Phase at hphase
  dsimp only at hphase
  unfold World.journalStep at hw
  cases hpc : w.pc with
  | top =>
    rw [hpc] at hw hphase
    obtain rfl := Option.some.inj hw
    exact h.between hphase.1 rfl hphase
  | loaded names =>
    rw [hpc] at hw
    obtain rfl := Option.some.inj hw
    exact h.select hsound hpc
  | status seq =>
    rw [hpc] at hw hphase
    obtain rfl := Option.some.inj hw
    exact h.between hphase.1 rfl hphase
  | saving =>
    rw [hpc] at hw hphase
    obtain rfl := Option.some.inj hw
    exact h.between hphase.1 rfl ⟨hphase.1, .inl hphase.2⟩
  | found seq more =>
    rw [hpc] at hw hphase
    obtain rfl := Option.some.inj hw
    exact h.between hphase.1 rfl hphase
  | cleared seq more =>
    rw [hpc] at hw hphase
    obtain rfl := Option.some.inj hw
    exact h.between hphase.1 rfl ⟨hphase.1, hphase.2, rfl⟩
  | named seq more =>
    rw [hpc] at hw hpcs
    obtain rfl := Option.some.inj hw
    exact h.printFirst hplain hpc hpcs.2.mem
  | begun seq more =>
    rw [hpc] at hw hphase
    obtain rfl := Option.some.inj hw
    obtain ⟨hpass, hahead, hfirst, hbound⟩ := hphase
    constructor
    · exact h.order
    · unfold World.ahead at hahead
      unfold World.goal World.ahead
      dsimp only
      rw [hahead]
      exact hbound
    · exact ⟨hpass, .inl hfirst.symm, hbound⟩
  | opening name pos more =>
    rw [hpc] at hw
    obtain ⟨f, hf, rfl⟩ := Option.map_eq_some_iff.mp hw
    obtain ⟨hmem, rfl⟩ := mem_of_file hf
    exact h.openFile hplain hmem hpc
  | reading info name offset more =>
    rw [hpc] at hw
    dsimp only at hw
    obtain ⟨f, hf, hread⟩ := Option.bind_eq_some_iff.mp hw
    obtain ⟨hmem, rfl⟩ := mem_of_file hf
    exact h.readEvent hsound hplain hshort hmem hpc hread
  | ended name =>
    rw [hpc] at hw hphase
    obtain rfl := Option.some.inj hw
    exact h.goOn rfl hphase
  | closing name =>
    rw [hpc] at hw hphase hpcs
    obtain rfl := Option.some.inj hw
    obtain ⟨f, hf, rfl⟩ := List.mem_map.mp hpcs
    rw [headLines_passLine (by decide) (hplain f hf).1]
    apply h.printNeutral
    · exact neutral_singleton fun _ _ => ⟨Source.noConfusion, Source.noConfusion⟩
    · exact fun _ _ => rfl
    · refine ⟨.inr hphase.1, ?_⟩
      dsimp only
      rw [List.dropLast_concat]
      exact hphase.2
  | waiting =>
    rw [hpc] at hw
    dsimp only at hw
    split at hw
    case isFalse => cases hw
    case isTrue hevent =>
      obtain rfl := Option.some.inj hw
      obtain ⟨-, hrest⟩ := hhandshake.event hevent
      have hstop : w.AtStop := ⟨hrest.pipe, hrest.pending⟩
      exact h.between hstop rfl ⟨hstop, .inr hrest.seq⟩
  | gaveUp =>
    rw [hpc] at hphase
    exact hphase.elim
  | copying seq =>
    rw [hpc] at hphase
    exact hphase.elim
  | stopped =>
    rw [hpc] at hw
    cases hw

theorem World.Begins.inStep (h : w.Begins) : w.InStep := by
  have hlines : w.taken ++ w.pipe = [] := by rw [h.taken, h.pipe]; rfl
  constructor
  · rw [hlines]
    exact extends_nil []
  · rw [hlines]
    exact List.forall_mem_nil _
  · unfold World.Phase
    rw [h.pc]
    exact ⟨⟨h.pipe, h.pending⟩, .inl h.taken⟩

/-- No wait is given up, and the binlogs are short and without a text that looks like a marker. -/
def World.InTurn (w : World) (turn : Turn) : Prop :=
  (match turn with
    | .giveUp => False
    | _ => True) ∧ w.Plain ∧ w.Short

theorem World.InStep.step (h : w.InStep) (hsound : w.Sound) (hhandshake : w.Handshake)
    {dates : ℕ → DateText} {turn : Turn} (hturn : w.InTurn turn)
    (hw : World.step dates w turn = some w') : w'.InStep := by
  obtain ⟨hwaits, hplain, hshort⟩ := hturn
  cases World.stepped hw with
  | appendEvents hlast hname hdescription hevents =>
    exact h.grow (grows_appendEvents hlast hname hdescription hevents hsound.nodup).names
  | appendFile hname hnew => exact h.grow (grows_appendFile hnew).names
  | journal hw => exact h.journalStep hsound hhandshake hplain hshort hw
  | giveUp => exact hwaits.elim
  | access hpending => exact h.access hpending
  | take hpending hpipe hline =>
    obtain ⟨-, closes, -, hcloses, hops⟩ := hsound.line hpipe hline
    exact h.take hpending hpipe hcloses hops

theorem World.InStep.atMostOnce (h : w.InStep) (hsound : w.Sound) : w.AtMostOnce := by
  constructor
  · intro seq more hpc
    have hphase := h.phase
    have hpcs := hsound.pc
    unfold World.Phase at hphase
    dsimp only at hphase
    rw [hpc] at hphase hpcs
    obtain ⟨hstop, hseq⟩ := hphase
    refine hseq.imp_right fun hseq => ⟨hstop.1, hstop.2, hseq, ?_, hpcs.1.1⟩
    have hgoal := h.goal
    rw [goal_of_atStop hstop, ← hseq, hstop.1, List.append_nil] at hgoal
    exact hgoal
  · exact fun before x y pos ev htwice => htwice.at h.order pos ev htwice.second

/-- What the steps keep together. -/
structure World.Settled (w : World) : Prop where
  sound : w.Sound
  handshake : w.Handshake
  inStep : w.InStep

theorem World.Settled.step (h : w.Settled) {dates : ℕ → DateText} {turn : Turn}
    (hturn : w.InTurn turn) (hw : World.step dates w turn = some w') : w'.Settled where
  sound := h.sound.step hturn.2.1 hw
  handshake := h.handshake.step (h.inStep.signalsInTime turn) hw
  inStep := h.inStep.step h.sound h.handshake hturn hw

/-- In every run, also when waits are given up, no pass captures an event twice. As long as no wait
is given up, over short binlogs without a text that looks like a marker, each pass begins where what
was printed before is handled to its end, and an event is captured again only behind all checkpoints
that are captured before. -/
theorem atMostOnce_of_inTurn (dates : ℕ → DateText) {w₀ : World} (h₀ : w₀.Begins) :
    (Run (World.step dates) (fun _ _ => True) w₀ w → w.OncePerPass) ∧
      (Run (World.step dates) World.InTurn w₀ w → w.AtMostOnce) := by
  constructor
  · exact oncePerPass h₀
  · intro h
    have hsettled := h.invariant World.Settled (fun _ _ _ hs hturn hst => hs.step hturn hst)
      ⟨h₀.sound, h₀.handshake, h₀.inStep⟩
    exact hsettled.inStep.atMostOnce hsettled.sound

end Steps

def trailingQuery : LogEvent :=
  ⟨1, 300, false, defaultHeader,
    .query ⟨"\tQuery".toList, newline_not_mem_querySummary⟩ none [] "drop table t".toList⟩

def trailingEvent : LogEvent := ⟨1, 331, false, defaultHeader, .other []⟩

/-- The first line of an event. -/
def atLine (ulIndex pos : ℕ) (ev : LogEvent) : PrintedLine :=
  ⟨ulIndex, firstName, .event pos ev, "# at ".toList ++ decimal pos⟩

/-- A binlog that ends with an event of no transaction. -/
def trailingFile : BinlogFile where
  name := firstName
  description := (⟨1, 256, false, defaultHeader, .formatDescription []⟩, 252)
  events := [(trailingQuery, 44), (trailingEvent, 31)]
  description_type := isFormatDescription_default
  events_type := by
    intro e he
    rcases List.mem_pair.mp he with rfl | rfl
    all_goals rfl
  events_real := by
    intro e he
    rcases List.mem_pair.mp he with rfl | rfl
    all_goals exact fun ⟨_, _, _, h⟩ => by cases h
  contiguous := by simp [Contiguous, binLogHeaderSize, trailingQuery, trailingEvent]

theorem inTurn_trailingFile {w : World} (hfiles : w.files = [trailingFile]) {turn : Turn}
    (hturn : turn = .journal ∨ turn = .listener) : w.InTurn turn := by
  refine ⟨?_, ?_, ?_⟩
  · rcases hturn with rfl | rfl <;> trivial
  · rw [World.Plain, hfiles]
    refine List.forall_mem_singleton.mpr ⟨(by decide : '\n' ∉ firstName),
      (by decide : '!' ∉ firstName), ?_⟩
    simp only [BinlogFile.eventsAt, BinlogFile.stored, trailingFile, offsets, List.forall_mem_cons]
    refine ⟨fun i => List.forall_mem_nil _, fun i => ⟨?_, statementPlain_of_line ?_ ?_ i⟩,
      fun i => List.forall_mem_nil _, List.forall_mem_nil _⟩
    · exact fun db hdb => by cases hdb
    · decide
    · decide
  · rw [World.Short, hfiles]
    exact List.forall_mem_singleton.mpr (by decide)

theorem mem_firstSteps {m n : ℕ} {turn : Turn} (h : turn ∈ firstSteps m n) :
    turn = .journal ∨ turn = .listener :=
  (List.mem_append.mp h).imp List.eq_of_mem_replicate List.eq_of_mem_replicate

/-- The first pass, to the end of the wait, and the beginning of the second. -/
theorem atMostOnce_secondPass : ∃ w : World, w.pc = .found ⟨firstName, 300, 0⟩ [] ∧
    w.taken ≠ [] ∧ w.OncePerPass ∧ w.AtMostOnce := by
  have h : (exec (World.step fun _ => someDate) (World.start trailingFile)
      (firstSteps 13 32 ++ firstSteps 3 0)).any (fun w =>
        w.pc = .found ⟨firstName, 300, 0⟩ [] ∧ w.taken ≠ []) = true := by
    decide +kernel
  obtain ⟨w, hw, hpc⟩ := (Option.any_eq_true _ _).mp h
  obtain ⟨hpc, htaken⟩ := of_decide_eq_true hpc
  have hthreads : ∀ turn ∈ firstSteps 13 32 ++ firstSteps 3 0, turn.OfThread :=
    List.forall_mem_append.mpr ⟨ofThread_firstSteps 13 32, ofThread_firstSteps 3 0⟩
  have hall := atMostOnce_of_inTurn (w := w) (fun _ => someDate)
    (begins_start trailingFile (by decide))
  refine ⟨w, hpc, htaken, hall.1 (run_threads (fun _ _ _ _ => trivial) hthreads hw),
    hall.2 (run_threads ?_ hthreads hw)⟩
  intro u hu turn hturn
  exact inTurn_trailingFile hu ((List.mem_append.mp hturn).elim mem_firstSteps mem_firstSteps)

/-- A statement is captured twice when a wait is given up; and without that, an event of no
transaction is captured again by the second pass. -/
theorem not_capturedOnce_trailingFile :
    (¬∀ (dates : ℕ → DateText) (w₀ w : World), w₀.Begins →
      Run (World.step dates) (fun _ _ => True) w₀ w → ∀ before x y pos ev,
        w.CapturedTwice before x y pos ev → ev.canEnd = false) ∧
    ¬∀ (dates : ℕ → DateText) (w₀ w : World), w₀.Begins →
      Run (World.step dates) World.InTurn w₀ w →
        (∀ f ∈ w.files, ∀ e ∈ f.eventsAt, e.2.isGtid = false) → ∀ before x y pos ev,
          ¬w.CapturedTwice before x y pos ev := by
  constructor
  · intro h
    have hexec : (exec (World.step fun _ => someDate) (World.start trailingFile)
        (firstSteps 13 0 ++ .giveUp :: firstSteps 15 43)).any (fun w =>
          w.taken.take 27 ++ [atLine 2 256 trailingQuery] <+: w.taken ∧
            atLine 1 256 trailingQuery ∈ w.taken.take 27) = true := by
      decide +kernel
    obtain ⟨w, hw, htwice⟩ := (Option.any_eq_true _ _).mp hexec
    obtain ⟨hlines, hmem⟩ := of_decide_eq_true htwice
    have hthreads : ∀ turn ∈ firstSteps 13 0 ++ .giveUp :: firstSteps 15 43, turn.OfThread :=
      List.forall_mem_append.mpr ⟨ofThread_firstSteps 13 0,
        List.forall_mem_cons.mpr ⟨trivial, ofThread_firstSteps 15 43⟩⟩
    have hend := h _ _ w (begins_start trailingFile (by decide))
      (run_threads (fun _ _ _ _ => trivial) hthreads hw) _ _ _ 256 trailingQuery
      ⟨hmem, hlines, rfl, rfl, rfl⟩
    cases hend
  · intro h
    have hexec : (exec (World.step fun _ => someDate) (World.start trailingFile)
        (firstSteps 13 32 ++ firstSteps 12 11)).any (fun w =>
          w.taken.take 27 ++ [atLine 2 300 trailingEvent] <+: w.taken ∧
            atLine 1 300 trailingEvent ∈ w.taken.take 27) = true := by
      decide +kernel
    obtain ⟨w, hw, htwice⟩ := (Option.any_eq_true _ _).mp hexec
    obtain ⟨hlines, hmem⟩ := of_decide_eq_true htwice
    have hthreads : ∀ turn ∈ firstSteps 13 32 ++ firstSteps 12 11, turn.OfThread :=
      List.forall_mem_append.mpr ⟨ofThread_firstSteps 13 32, ofThread_firstSteps 12 11⟩
    have hfiles : w.files = [trailingFile] := files_exec hthreads hw
    refine h _ _ w (begins_start trailingFile (by decide)) (run_threads ?_ hthreads hw) ?_ _ _ _ 300
      trailingEvent ⟨hmem, hlines, rfl, rfl, rfl⟩
    · intro u hu turn hturn
      exact inTurn_trailingFile hu ((List.mem_append.mp hturn).elim mem_firstSteps mem_firstSteps)
    · rw [hfiles]
      exact List.forall_mem_singleton.mpr (by decide)

end BinlogCapture
