import BinlogCapture.ThreadRuns
import BinlogCapture.PipeLines

/-! The event with which the listener tells `ReadJournal` that it has come to the end of the pass.
It carries no number of a pass and is not cleared before one, so it is the event of the pass that
waits as long as the listener signals only then. -/
namespace BinlogCapture
open CString Fallible LineFeed Runs

/-- Nothing is left to handle, and the position in progress is published. -/
structure World.AtRest (w : World) : Prop where
  pipe : w.pipe = []
  pending : w.pending = []
  seq : w.shared.stBinLogSeq = w.shared.stBinLogSeqInProgess

/-- When the wait would end with the event, the line of the end of this pass is handled; and the
next pass begins where the listener stands at the end of this one. -/
structure World.SignalFresh (w : World) : Prop where
  last : w.pc = .waiting → w.shared.hEventEndOfBinlog = true →
    (∃ x ∈ w.taken, x.source = .last ∧ x.ulIndex = w.ulIndex) ∧ w.pending = []
  next : w.signalled = true → ∀ names, w.pc = .loaded names → w.AtRest

/-- The listener signals only while `ReadJournal` waits and all it has printed is taken. -/
def World.SignalsInTime (w : World) : Turn → Prop
  | .listener => w.pending.head? = some .signal → w.pc = .waiting ∧ w.pipe = []
  | _ => True

instance (w : World) (turn : Turn) : Decidable (w.SignalsInTime turn) := by
  cases turn <;> unfold World.SignalsInTime <;> infer_instance

section Ops

/-- What a handler leaves to do: the position is published last, if at all. -/
def Handling : List ThreadOp → Prop
  | [] => True
  | .op (.publishIfLast _) :: ops => ops = []
  | .op _ :: ops => Handling ops
  | .writeXai _ :: ops => Handling ops
  | .copySeq :: _ | .writeSeq _ :: _ | .signal :: _ => False

/-- The listener handles a line, or it is publishing the position. -/
inductive Stage : List ThreadOp → Prop where
  | handling {ops : List ThreadOp} (h : Handling ops) : Stage ops
  | copying : Stage [.copySeq, .signal]
  | writing (seq : BinLogSequence) : Stage [.writeSeq seq, .signal]
  | signalling : Stage [.signal]

theorem handling_of_action (a : Action) (name : Text) : Handling ((a.ops name).map .op) := by
  cases a <;> simp [Action.ops, Handling]

/-- Whatever the line is, its handler does what one of the actions says. -/
theorem dispatch_action {seq : BinLogSequence} {loc : Locals} {line : Text} {h : Handled}
    (hd : dispatch seq loc line = .ok h) : ∃ a : Action, h.ops = a.ops loc.szBinLogName := by
  rcases ite_eq_or hd with ⟨-, hd⟩ | ⟨-, hd⟩
  · exact ⟨.skip, (rowLine_frame hd).2⟩
  rcases ite_eq_or hd with ⟨-, hd⟩ | ⟨-, hd⟩
  · obtain ⟨r, -, hr⟩ := bind_eq_ok_iff.mp hd
    exact ⟨.goTo r.1, (Except.ok.inj hr) ▸ rfl⟩
  rcases ite_eq_or hd with ⟨-, hd⟩ | ⟨-, hd⟩
  · obtain ⟨r, -, hr⟩ := bind_eq_ok_iff.mp hd
    exact ⟨.skip, (Except.ok.inj hr) ▸ rfl⟩
  rcases ite_eq_or hd with ⟨-, hd⟩ | ⟨-, hd⟩
  · obtain ⟨r, -, hr⟩ := bind_eq_ok_iff.mp hd
    obtain ⟨xid, -, hr⟩ := bind_eq_ok_iff.mp hr
    exact ⟨.save 2 r.2.1, (Except.ok.inj hr) ▸ rfl⟩
  rcases ite_eq_or hd with ⟨-, hd⟩ | ⟨-, hd⟩
  · obtain ⟨r, -, hr⟩ := bind_eq_ok_iff.mp hd
    exact ⟨.save 3 r.2.1, (Except.ok.inj hr) ▸ rfl⟩
  rcases ite_eq_or hd with ⟨-, hd⟩ | ⟨-, hd⟩
  · obtain ⟨r, -, hr⟩ := bind_eq_ok_iff.mp hd
    exact ⟨.startBinlog r.1, (Except.ok.inj hr) ▸ rfl⟩
  rcases ite_eq_or hd with ⟨-, hd⟩ | ⟨-, hd⟩
  · exact ⟨.endBinlog, (Except.ok.inj hd) ▸ rfl⟩
  rcases ite_eq_or hd with ⟨-, hd⟩ | ⟨-, hd⟩
  · obtain ⟨r, -, hr⟩ := bind_eq_ok_iff.mp hd
    exact ⟨.firstBinlog r.1, (Except.ok.inj hr) ▸ rfl⟩
  rcases ite_eq_or hd with ⟨-, hd⟩ | ⟨-, hd⟩
  · exact ⟨.lastBinlog, (Except.ok.inj hd) ▸ rfl⟩
  · exact ⟨.skip, (Except.ok.inj hd) ▸ rfl⟩

theorem handling_of_line {seq : BinLogSequence} {loc : Locals} {line : Text} {h : Handled}
    (hl : handleLine seq loc line = .ok h) : Handling (h.ops.map .op) := by
  obtain ⟨hh, hd, rfl⟩ := map_eq_ok_iff.mp hl
  obtain ⟨a, ha⟩ := dispatch_action hd
  have hact := handling_of_action a (endOfDataColumn loc line).1.szBinLogName
  dsimp only
  rw [ha, List.map_append]
  rcases (endOfDataColumn_closesRow loc line).2 with hnil | hsave
  · rw [hnil]
    exact hact
  · rw [hsave]
    exact hact

end Ops

/-- The event and the position that is published. -/
structure World.Handshake (w : World) : Prop where
  last : w.pc = .waiting → ∃ x ∈ w.taken ++ w.pipe, x.source = .last ∧ x.ulIndex = w.ulIndex
  stage : Stage w.pending
  /-- While `ReadJournal` waits, it does not write the positions. -/
  writing : w.pc = .waiting → w.pipe = [] → ∀ seq, w.pending = [.writeSeq seq, .signal] →
    seq = w.shared.stBinLogSeqInProgess
  signalling : w.pc = .waiting → w.pipe = [] → w.pending = [.signal] →
    w.shared.stBinLogSeq = w.shared.stBinLogSeqInProgess
  event : w.shared.hEventEndOfBinlog = true → w.pc = .waiting ∧ w.AtRest
  gaveUp : w.pc = .saving ∨ w.pc = .gaveUp ∨ (∃ seq, w.pc = .copying seq) → w.signalled = false
  next : w.signalled = true → w.pc = .top ∨ (∃ names, w.pc = .loaded names) → w.AtRest

/-- The places where something is known about the event. -/
def JournalPc.Watched : JournalPc → Prop
  | .top | .loaded _ | .saving | .waiting | .gaveUp | .copying _ => True
  | _ => False

section Steps
variable {w w' : World}

theorem World.Handshake.signalFresh (h : w.Handshake) : w.SignalFresh := by
  constructor
  · intro hpc hevent
    obtain ⟨-, hrest⟩ := h.event hevent
    have hlast := h.last hpc
    rw [hrest.pipe, List.append_nil] at hlast
    exact ⟨hlast, hrest.pending⟩
  · exact fun hsignalled names hpc => h.next hsignalled (.inr ⟨names, hpc⟩)

theorem World.Begins.handshake (h : w.Begins) : w.Handshake := by
  have hpc := h.pc
  have hpending := h.pending
  constructor
  · intro hwaiting
    rw [hpc] at hwaiting
    cases hwaiting
  · rw [hpending]
    exact .handling trivial
  · intro hwaiting
    rw [hpc] at hwaiting
    cases hwaiting
  · intro hwaiting
    rw [hpc] at hwaiting
    cases hwaiting
  · intro hevent
    rw [h.event] at hevent
    cases hevent
  · exact fun _ => h.signalled
  · intro hsignalled
    rw [h.signalled] at hsignalled
    cases hsignalled

/-- Outside the wait the event is not set. -/
theorem World.Handshake.no_event (h : w.Handshake) (hpc : w.pc ≠ .waiting) :
    w.shared.hEventEndOfBinlog = false := by
  rw [Bool.eq_false_iff]
  exact fun hevent => hpc (h.event hevent).1

/-- `ReadJournal` goes on to a place where it does not wait. -/
theorem World.Handshake.leave (h : w.Handshake) (hpending : w'.pending = w.pending)
    (hpc : w'.pc ≠ .waiting) (hevent : w'.shared.hEventEndOfBinlog = false)
    (hgaveUp : w'.pc = .saving ∨ w'.pc = .gaveUp ∨ (∃ seq, w'.pc = .copying seq) →
      w'.signalled = false)
    (hnext : w'.signalled = true → w'.pc = .top ∨ (∃ names, w'.pc = .loaded names) →
      w'.AtRest) : w'.Handshake := by
  constructor
  · exact fun heq => absurd heq hpc
  · rw [hpending]
    exact h.stage
  · exact fun heq => absurd heq hpc
  · exact fun heq => absurd heq hpc
  · intro hset
    rw [hevent] at hset
    cases hset
  · exact hgaveUp
  · exact hnext

/-- `ReadJournal` goes on to a place where nothing is known about the event. -/
theorem World.Handshake.goOn (h : w.Handshake) (hpc : w.pc ≠ .waiting)
    (hpending : w'.pending = w.pending)
    (hevent : w'.shared.hEventEndOfBinlog = w.shared.hEventEndOfBinlog) (hpc' : ¬w'.pc.Watched) :
    w'.Handshake := by
  have hnot : ∀ {pc}, JournalPc.Watched pc → w'.pc ≠ pc := fun hwatched heq => by
    rw [heq] at hpc'
    exact hpc' hwatched
  apply h.leave hpending (hnot trivial) (hevent.trans (h.no_event hpc))
  · rintro (heq | heq | ⟨seq, heq⟩)
    · exact absurd heq (hnot trivial)
    · exact absurd heq (hnot trivial)
    · exact absurd heq (hnot trivial)
  · rintro - (heq | ⟨names, heq⟩)
    · exact absurd heq (hnot trivial)
    · exact absurd heq (hnot trivial)

/-- An access of a handler leaves the event alone, and what is left is still that of a handler, or
the position is going to be published. -/
theorem exec_handling {g : Shared} {op : ThreadOp} {ops : List ThreadOp}
    (h : Handling (op :: ops)) : (op.exec g).1.hEventEndOfBinlog = g.hEventEndOfBinlog ∧
      (Handling ((op.exec g).2 ++ ops) ∨ (op.exec g).2 ++ ops = [.copySeq, .signal]) := by
  cases op with
  | op op =>
    cases op with
    | resetUnlessFirst name =>
      refine ⟨rfl, .inl ?_⟩
      simp only [ThreadOp.exec]
      split
      · exact h
      · exact h
    | publishIfLast name =>
      have hnil : ops = [] := h
      rw [hnil]
      refine ⟨rfl, ?_⟩
      simp only [ThreadOp.exec]
      split
      · exact .inr rfl
      · exact .inl trivial
    | _ => exact ⟨rfl, .inl h⟩
  | writeXai seq => exact ⟨rfl, .inl h⟩
  | _ => exact h.elim

theorem World.Handshake.access (h : w.Handshake) {op : ThreadOp} {ops : List ThreadOp}
    (hpending : w.pending = op :: ops)
    (htime : op = .signal → w.pc = .waiting ∧ w.pipe = []) :
    World.Handshake { w with
      shared := (op.exec w.shared).1, pending := (op.exec w.shared).2 ++ ops } := by
  have hbusy : ¬w.AtRest := fun hrest => by
    have hnil := hrest.pending
    rw [hpending] at hnil
    cases hnil
  have hquiet : w.shared.hEventEndOfBinlog = false := by
    rw [Bool.eq_false_iff]
    exact fun hevent => hbusy (h.event hevent).2
  have hnext : w.signalled = true → w.pc = .top ∨ (∃ names, w.pc = .loaded names) → False :=
    fun hsignalled hpc => hbusy (h.next hsignalled hpc)
  have hstage := h.stage
  have hwriting := h.writing
  have hsignalling := h.signalling
  rw [hpending] at hstage hwriting hsignalling
  generalize hall : op :: ops = pending at hstage
  cases hstage with
  | handling hhandling =>
    subst hall
    have hexec := exec_handling (g := w.shared) hhandling
    have hno : ∀ rest, Handling ((op.exec w.shared).2 ++ ops) ∨
        (op.exec w.shared).2 ++ ops = [.copySeq, .signal] →
        (∀ seq, (op.exec w.shared).2 ++ ops ≠ .writeSeq seq :: rest) ∧
          (op.exec w.shared).2 ++ ops ≠ .signal :: rest := by
      rintro rest (hh | hh)
      · constructor
        · intro seq heq
          rw [heq] at hh
          exact hh
        · intro heq
          rw [heq] at hh
          exact hh
      · constructor
        · intro seq heq
          rw [heq] at hh
          cases hh
        · intro heq
          rw [heq] at hh
          cases hh
    constructor
    · exact h.last
    · dsimp only
      rcases hexec.2 with hh | hh
      · exact .handling hh
      · rw [hh]
        exact .copying
    · exact fun _ _ seq heq => absurd heq ((hno _ hexec.2).1 seq)
    · exact fun _ _ heq => absurd heq (hno _ hexec.2).2
    · dsimp only
      rw [hexec.1, hquiet]
      exact fun hevent => by cases hevent
    · exact h.gaveUp
    · exact fun hsignalled hpc => (hnext hsignalled hpc).elim
  | copying =>
    cases hall
    constructor
    · exact h.last
    · exact .writing _
    · intro _ _ seq heq
      cases heq
      rfl
    · exact fun _ _ heq => by cases heq
    · exact fun hevent => by
        rw [show w.shared.hEventEndOfBinlog = true from hevent] at hquiet
        cases hquiet
    · exact h.gaveUp
    · exact fun hsignalled hpc => (hnext hsignalled hpc).elim
  | writing seq =>
    cases hall
    constructor
    · exact h.last
    · exact .signalling
    · exact fun _ _ seq heq => by cases heq
    · exact fun hpc hpipe _ => hwriting hpc hpipe seq rfl
    · exact fun hevent => by
        rw [show w.shared.hEventEndOfBinlog = true from hevent] at hquiet
        cases hquiet
    · exact h.gaveUp
    · exact fun hsignalled hpc => (hnext hsignalled hpc).elim
  | signalling =>
    cases hall
    obtain ⟨hpc, hpipe⟩ := htime rfl
    constructor
    · exact h.last
    · exact .handling trivial
    · exact fun _ _ seq heq => by cases heq
    · exact fun _ _ heq => by cases heq
    · exact fun _ => ⟨hpc, hpipe, rfl, hsignalling hpc hpipe rfl⟩
    · exact h.gaveUp
    · exact fun hsignalled hpc => (hnext hsignalled hpc).elim

theorem World.Handshake.take (h : w.Handshake) {x : PrintedLine} {pipe : List PrintedLine}
    (hpipe : w.pipe = x :: pipe) {hh : Handled}
    (hline : handleLine w.shared.stBinLogSeq w.loc x.text = .ok hh) :
    World.Handshake { w with
      pipe := pipe, loc := hh.loc, pending := hh.ops.map .op, taken := w.taken ++ [x] } := by
  have hbusy : ¬w.AtRest := fun hrest => by
    have hnil := hrest.pipe
    rw [hpipe] at hnil
    cases hnil
  have hhandling := handling_of_line hline
  constructor
  · dsimp only
    rw [List.append_assoc, List.singleton_append, ← hpipe]
    exact h.last
  · exact .handling hhandling
  · intro _ _ seq heq
    rw [show hh.ops.map ThreadOp.op = _ from heq] at hhandling
    exact hhandling.elim
  · intro _ _ heq
    rw [show hh.ops.map ThreadOp.op = _ from heq] at hhandling
    exact hhandling.elim
  · exact fun hevent => absurd (h.event hevent).2 hbusy
  · exact h.gaveUp
  · exact fun hsignalled hpc => absurd (h.next hsignalled hpc) hbusy

theorem headLines_passLine_last {ulIndex : ℕ} {name : Text} (date : DateText) :
    ∃ x ∈ headLines ulIndex name .last (passLine lastBinlogTag name ulIndex date),
      x.source = .last ∧ x.ulIndex = ulIndex := by
  have hne := lines_textLine_ne_nil
    (lastBinlogTag ++ (name ++ '!' :: (decimal ulIndex ++ '!' :: (date.text ++ "!*".toList))))
  unfold headLines passLine
  cases hlines : completeLines (textLine (lastBinlogTag ++
      (name ++ '!' :: (decimal ulIndex ++ '!' :: (date.text ++ "!*".toList))))) with
  | nil => exact absurd hlines hne
  | cons l ls => exact ⟨_, List.mem_cons_self, rfl, rfl⟩

theorem World.Handshake.select (h : w.Handshake) {names : List Text}
    (hpc : w.pc = .loaded names) : (w.select names).Handshake := by
  have hwait : w.pc ≠ .waiting := by
    rw [hpc]
    exact JournalPc.noConfusion
  unfold World.select
  dsimp only
  split
  · split
    · refine h.leave rfl JournalPc.noConfusion (h.no_event hwait) ?_ ?_
      · rintro (heq | heq | ⟨seq, heq⟩) <;> cases heq
      · intro hsignalled _
        have hrest := h.next hsignalled (.inr ⟨names, hpc⟩)
        exact ⟨hrest.pipe, hrest.pending, hrest.seq⟩
    · exact h.goOn hwait rfl rfl id
  · split
    · exact h.goOn hwait rfl rfl id
    · exact h.goOn hwait rfl rfl id

theorem World.Handshake.journalStep (h : w.Handshake) {dates : ℕ → DateText}
    (hw : w.journalStep dates = some w') : w'.Handshake := by
  have hoff := h.no_event
  unfold World.journalStep at hw
  cases hpc : w.pc with
  | top =>
    rw [hpc] at hw hoff
    obtain rfl := Option.some.inj hw
    refine h.leave rfl JournalPc.noConfusion (hoff JournalPc.noConfusion) ?_ ?_
    · rintro (heq | heq | ⟨seq, heq⟩) <;> cases heq
    · intro hsignalled _
      have hrest := h.next hsignalled (.inl hpc)
      exact ⟨hrest.pipe, hrest.pending, hrest.seq⟩
  | loaded names =>
    rw [hpc] at hw
    obtain rfl := Option.some.inj hw
    exact h.select hpc
  | status seq =>
    rw [hpc] at hw hoff
    obtain rfl := Option.some.inj hw
    refine h.leave rfl JournalPc.noConfusion (hoff JournalPc.noConfusion) ?_ ?_
    · exact fun _ => rfl
    · exact fun hsignalled => by cases hsignalled
  | saving =>
    rw [hpc] at hw hoff
    obtain rfl := Option.some.inj hw
    refine h.leave rfl JournalPc.noConfusion (hoff JournalPc.noConfusion) ?_ ?_
    · rintro (heq | heq | ⟨seq, heq⟩) <;> cases heq
    · intro hsignalled
      have hnot := h.gaveUp (.inl hpc)
      rw [show w.signalled = true from hsignalled] at hnot
      cases hnot
  | found seq more =>
    rw [hpc] at hw
    obtain rfl := Option.some.inj hw
    exact h.goOn (by rw [hpc]; exact JournalPc.noConfusion) rfl rfl id
  | cleared seq more =>
    rw [hpc] at hw
    obtain rfl := Option.some.inj hw
    exact h.goOn (by rw [hpc]; exact JournalPc.noConfusion) rfl rfl id
  | named seq more =>
    rw [hpc] at hw
    obtain rfl := Option.some.inj hw
    exact h.goOn (by rw [hpc]; exact JournalPc.noConfusion) rfl rfl id
  | begun seq more =>
    rw [hpc] at hw
    obtain rfl := Option.some.inj hw
    exact h.goOn (by rw [hpc]; exact JournalPc.noConfusion) rfl rfl id
  | opening name pos more =>
    rw [hpc] at hw
    obtain ⟨f, -, rfl⟩ := Option.map_eq_some_iff.mp hw
    exact h.goOn (by rw [hpc]; exact JournalPc.noConfusion) rfl rfl id
  | reading info name offset more =>
    rw [hpc] at hw
    dsimp only at hw
    obtain ⟨f, -, hread⟩ := Option.bind_eq_some_iff.mp hw
    cases World.readOn hread with
    | event => exact h.goOn (by rw [hpc]; exact JournalPc.noConfusion) rfl rfl id
    | fileEnd =>
      cases more with
      | nil => exact h.goOn (by rw [hpc]; exact JournalPc.noConfusion) rfl rfl id
      | cons => exact h.goOn (by rw [hpc]; exact JournalPc.noConfusion) rfl rfl id
  | ended name =>
    rw [hpc] at hw
    obtain rfl := Option.some.inj hw
    exact h.goOn (by rw [hpc]; exact JournalPc.noConfusion) rfl rfl id
  | closing name =>
    rw [hpc] at hw hoff
    obtain rfl := Option.some.inj hw
    obtain ⟨x, hx, hsource, hindex⟩ := headLines_passLine_last
      (dates (2 * w.ulIndex + 1))
    have hpipe : w.pipe ++ headLines w.ulIndex name .last
        (passLine lastBinlogTag name w.ulIndex (dates (2 * w.ulIndex + 1))) ≠ [] := by
      intro hnil
      rw [(List.append_eq_nil_iff.mp hnil).2] at hx
      cases hx
    constructor
    · exact fun _ => ⟨x, List.mem_append_right _ (List.mem_append_right _ hx), hsource, hindex⟩
    · exact h.stage
    · exact fun _ hnil => absurd hnil hpipe
    · exact fun _ hnil => absurd hnil hpipe
    · intro hevent
      rw [show w.shared.hEventEndOfBinlog = true from hevent] at hoff
      cases hoff JournalPc.noConfusion
    · rintro (heq | heq | ⟨seq, heq⟩) <;> cases heq
    · rintro - (heq | ⟨names, heq⟩) <;> cases heq
  | waiting =>
    rw [hpc] at hw
    dsimp only at hw
    split at hw
    case isFalse => cases hw
    case isTrue hevent =>
      obtain rfl := Option.some.inj hw
      obtain ⟨-, hrest⟩ := h.event hevent
      refine h.leave rfl JournalPc.noConfusion rfl ?_ ?_
      · rintro (heq | heq | ⟨seq, heq⟩) <;> cases heq
      · exact fun _ _ => ⟨hrest.pipe, hrest.pending, hrest.seq⟩
  | gaveUp =>
    rw [hpc] at hw hoff
    obtain rfl := Option.some.inj hw
    refine h.leave rfl JournalPc.noConfusion (hoff JournalPc.noConfusion) ?_ ?_
    · exact fun _ => h.gaveUp (.inr (.inl hpc))
    · rintro - (heq | ⟨names, heq⟩) <;> cases heq
  | copying seq =>
    rw [hpc] at hw hoff
    obtain rfl := Option.some.inj hw
    refine h.leave rfl JournalPc.noConfusion (hoff JournalPc.noConfusion) ?_ ?_
    · rintro (heq | heq | ⟨seq, heq⟩) <;> cases heq
    · intro hsignalled
      have hnot := h.gaveUp (.inr (.inr ⟨seq, hpc⟩))
      rw [show w.signalled = true from hsignalled] at hnot
      cases hnot
  | stopped =>
    rw [hpc] at hw
    cases hw

theorem World.Handshake.files (h : w.Handshake) (files : List BinlogFile) :
    World.Handshake { w with files := files } where
  last := h.last
  stage := h.stage
  writing := h.writing
  signalling := h.signalling
  event := fun hevent => ⟨(h.event hevent).1, (h.event hevent).2.1, (h.event hevent).2.2,
    (h.event hevent).2.3⟩
  gaveUp := h.gaveUp
  next := fun hs hpc => ⟨(h.next hs hpc).1, (h.next hs hpc).2, (h.next hs hpc).3⟩

theorem World.Handshake.giveUp (h : w.Handshake) (hevent : w.shared.hEventEndOfBinlog = false) :
    World.Handshake { w with signalled := false, pc := .gaveUp } := by
  refine h.leave rfl JournalPc.noConfusion hevent ?_ ?_
  · exact fun _ => rfl
  · exact fun hsignalled => by cases hsignalled

theorem World.Handshake.step (h : w.Handshake) {dates : ℕ → DateText} {turn : Turn}
    (htime : w.SignalsInTime turn) (hw : World.step dates w turn = some w') : w'.Handshake := by
  cases World.stepped hw with
  | appendEvents => exact h.files _
  | appendFile => exact h.files _
  | journal hw => exact h.journalStep hw
  | giveUp hpc hevent => exact h.giveUp hevent
  | access hpending =>
    apply h.access hpending
    intro hop
    apply htime
    rw [hpending, hop]
    rfl
  | take hpending hpipe hline => exact h.take hpipe hline

/-- In a run in which the listener signals in time, the event is that of the pass that waits. -/
theorem signalFresh_of_inTime (dates : ℕ → DateText) {w₀ : World} (h₀ : w₀.Begins)
    (h : Run (World.step dates) World.SignalsInTime w₀ w) : w.SignalFresh :=
  (h.invariant World.Handshake (fun _ _ _ hs htime hst => hs.step htime hst)
    h₀.handshake).signalFresh

end Steps

/-- A pass that is handled to its end before the wait ends, and the beginning of the next one. -/
theorem signalFresh_onePass : ∃ w : World, w.signalled = true ∧ w.pc = .loaded [firstName] ∧
    w.SignalFresh := by
  have h : (execIf (World.step fun _ => someDate) World.SignalsInTime
      (World.start (statementFile "drop table t".toList)) (firstSteps 13 38 ++ firstSteps 2 0)).any
        (fun w => w.signalled = true ∧ w.pc = .loaded [firstName]) = true := by
    decide +kernel
  obtain ⟨w, hw, hpc⟩ := (Option.any_eq_true _ _).mp h
  obtain ⟨hsignalled, hpc⟩ := of_decide_eq_true hpc
  exact ⟨w, hsignalled, hpc, signalFresh_of_inTime (fun _ => someDate)
    (begins_start _ (by decide)) (.execIf .start hw)⟩

/-- `ReadJournal` gives up the first pass and waits in the second one when the listener comes to the
end of the first. -/
def lateSignal : List Turn := firstSteps 13 0 ++ .giveUp :: firstSteps 15 38

/-- The event of the first pass ends the wait of the second. -/
theorem not_signalFresh_lateSignal : ¬∀ (dates : ℕ → DateText) (w₀ w : World), w₀.Begins →
    Run (World.step dates) (fun _ _ => True) w₀ w → w.SignalFresh := by
  intro h
  have hexec : (execIf (World.step fun _ => someDate) (fun _ _ => True)
      (World.start (statementFile "drop table t".toList)) lateSignal).any (fun w =>
        w.pc = .waiting ∧ w.shared.hEventEndOfBinlog = true ∧ w.ulIndex = 2 ∧
          ∀ x ∈ w.taken, x.source = .last → x.ulIndex = 1) = true := by
    decide +kernel
  obtain ⟨w, hw, hall⟩ := (Option.any_eq_true _ _).mp hexec
  obtain ⟨hpc, hevent, hindex, htaken⟩ := of_decide_eq_true hall
  have hfresh := h _ _ w (begins_start _ (by decide)) (.execIf .start hw)
  obtain ⟨x, hx, hsource, hlast⟩ := (hfresh.last hpc hevent).1
  rw [htaken x hx hsource, hindex] at hlast
  cases hlast

end BinlogCapture
