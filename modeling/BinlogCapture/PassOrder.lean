import BinlogCapture.Places
import BinlogCapture.ThreadRuns

/-! A pass prints the events in the order of the binlogs, each of them once, whatever the listener
and the server do meanwhile. -/
namespace BinlogCapture
open CString Fallible LineFeed Runs Histories

/-- The events of the pass among the lines are not behind the place. -/
def PassBefore (names : List Text) (lines : List PrintedLine) (ulIndex : ℕ) (p : BinLogInfo) :
    Prop :=
  ∀ x ∈ lines, ∀ pos ev, x.source = .event pos ev → x.ulIndex = ulIndex →
    AtOrBefore names ⟨x.szBinLogName, ev.logPos⟩ p

/-- The first line of an event is printed behind the events of its pass. -/
def BehindPass (names : List Text) (before : List PrintedLine) (y : PrintedLine) : Prop :=
  ∀ pos ev, y.source = .event pos ev → pos < ev.logPos ∧
    PassBefore names before y.ulIndex ⟨y.szBinLogName, pos⟩

/-- The lines begin no event. -/
def Eventless (lines : List PrintedLine) : Prop :=
  ∀ x ∈ lines, ∀ pos ev, x.source ≠ .event pos ev

section Lines
variable {names names' : List Text} {lines lines' : List PrintedLine} {p p' : BinLogInfo}
  {ulIndex : ℕ} {name : Text}

theorem PassBefore.grow (h : PassBefore names lines ulIndex p) (hnames : names <+: names') :
    PassBefore names' lines ulIndex p := fun x hx pos ev hs hi =>
  (atOrBefore_grow hnames (h x hx pos ev hs hi).1).mpr (h x hx pos ev hs hi)

theorem PassBefore.trans (h : PassBefore names lines ulIndex p) (hle : AtOrBefore names p p') :
    PassBefore names lines ulIndex p' := fun x hx pos ev hs hi => (h x hx pos ev hs hi).trans hle

theorem passBefore_append : PassBefore names (lines ++ lines') ulIndex p ↔
    PassBefore names lines ulIndex p ∧ PassBefore names lines' ulIndex p := List.forall_mem_append

theorem Eventless.append (h : Eventless lines) (h' : Eventless lines') :
    Eventless (lines ++ lines') := List.forall_mem_append.mpr ⟨h, h'⟩

theorem eventless_plainLines (ulIndex : ℕ) (name t : Text) :
    Eventless (plainLines ulIndex name t) := by
  intro x hx pos ev
  obtain ⟨l, -, rfl⟩ := List.mem_map.mp hx
  exact Source.noConfusion

theorem eventless_headLines (ulIndex : ℕ) (name : Text) {source : Source}
    (h : ∀ pos ev, source ≠ .event pos ev) (t : Text) :
    Eventless (headLines ulIndex name source t) := by
  intro x hx pos ev
  rcases (mem_headLines x hx).2.2 with heq | heq
  · rw [heq]
    exact h pos ev
  · rw [heq]
    exact Source.noConfusion

theorem Eventless.order (h : Eventless lines) {before : List PrintedLine} :
    Extends (BehindPass names) before lines :=
  extends_of_forall fun _ x hx _ pos ev hs => absurd hs (h x hx pos ev)

theorem Eventless.pass (h : Eventless lines) : PassBefore names lines ulIndex p :=
  fun x hx pos ev hs => absurd hs (h x hx pos ev)

/-- Lines without an event leave the place where it is. -/
theorem Eventless.behind {taken pipe : List PrintedLine} (h : Eventless lines)
    (hbefore : PassBefore names (taken ++ pipe) ulIndex p) :
    PassBefore names (taken ++ (pipe ++ lines)) ulIndex p := by
  rw [← List.append_assoc]
  exact passBefore_append.mpr ⟨hbefore, h.pass⟩

/-- An event is printed behind those of its pass, and the place behind it is its end. -/
theorem behindPass_eventLines {before : List PrintedLine} (info : PrintInfo) {pos : ℕ}
    {ev : LogEvent} (hlt : pos < ev.logPos) (hmem : name ∈ names)
    (hbefore : PassBefore names before ulIndex ⟨name, pos⟩) :
    Extends (BehindPass names) before (eventLines ulIndex name info pos ev) ∧
      PassBefore names (before ++ eventLines ulIndex name info pos ev) ulIndex
        ⟨name, ev.logPos⟩ := by
  obtain ⟨first, rest, hlines, hsource, hrest⟩ := eventLines_cons ulIndex name info pos ev
  obtain ⟨hindex, hname, -⟩ : first.ulIndex = ulIndex ∧ first.szBinLogName = name ∧ _ :=
    mem_eventLines first (by rw [hlines]; exact List.mem_cons_self)
  have hend : PassBefore names [first] ulIndex ⟨name, ev.logPos⟩ := by
    refine List.forall_mem_singleton.mpr fun pos' ev' hs _ => ?_
    rw [hsource] at hs
    cases hs
    rw [hname]
    exact ⟨hmem, .inr ⟨rfl, le_rfl⟩⟩
  rw [hlines]
  constructor
  · refine ⟨fun pos' ev' hs => ?_, Eventless.order hrest⟩
    rw [hsource] at hs
    cases hs
    rw [hindex, hname]
    exact ⟨hlt, hbefore⟩
  · rw [← List.singleton_append, passBefore_append, passBefore_append]
    exact ⟨hbefore.trans ⟨hmem, .inr ⟨rfl, hlt.le⟩⟩, hend, Eventless.pass hrest⟩

end Lines

/-- The events that the pass has printed are in front of the place where `ReadJournal` stands. -/
def World.PassPlace (w : World) : Prop :=
  let bound := PassBefore w.names (w.taken ++ w.pipe) w.ulIndex
  match w.pc with
  | .loaded names => names <+: w.names
  | .found seq more | .cleared seq more | .named seq more =>
    ListedBehind w.files seq.szBinLogName more
  | .begun seq more => ListedBehind w.files seq.szBinLogName more ∧ bound seq.place
  | .opening name pos more | .reading _ name pos more =>
    ListedBehind w.files name more ∧ bound ⟨name, pos⟩
  | _ => True

/-- What every step keeps. -/
structure World.Ascends (w : World) : Prop where
  nodup : w.names.Nodup
  order : Extends (BehindPass w.names) [] (w.taken ++ w.pipe)
  index : ∀ x ∈ w.taken ++ w.pipe, x.ulIndex ≤ w.ulIndex
  place : w.PassPlace

/-- An event is captured at `x`, and again at `y`, behind the lines `before`. -/
structure World.CapturedTwice (w : World) (before : List PrintedLine) (x y : PrintedLine) (pos : ℕ)
    (ev : LogEvent) : Prop where
  mem : x ∈ before
  lines : before ++ [y] <+: w.taken
  name : x.szBinLogName = y.szBinLogName
  first : x.source = .event pos ev
  second : y.source = .event pos ev

/-- No pass captures an event twice. -/
def World.OncePerPass (w : World) : Prop :=
  ∀ before x y pos ev, w.CapturedTwice before x y pos ev → x.ulIndex ≠ y.ulIndex

section Steps
variable {w w' : World}

/-- What is known of a line behind the lines that are captured before it. -/
theorem World.CapturedTwice.at {I : List PrintedLine → PrintedLine → Prop}
    {before : List PrintedLine} {x y : PrintedLine} {pos : ℕ} {ev : LogEvent}
    (h : w.CapturedTwice before x y pos ev) (horder : Extends I [] (w.taken ++ w.pipe)) :
    I before y := by
  obtain ⟨after, hafter⟩ := h.lines
  rw [← hafter, List.append_assoc, List.append_assoc] at horder
  exact horder.at

theorem World.Ascends.oncePerPass (h : w.Ascends) : w.OncePerPass := by
  intro before x y pos ev htwice hindex
  obtain ⟨hlt, hpass⟩ := htwice.at h.order pos ev htwice.second
  have hle := (hpass x htwice.mem pos ev htwice.first hindex).le htwice.name
  dsimp only at hle
  omega

theorem World.Begins.ascends (h : w.Begins) : w.Ascends := by
  have hlines : w.taken ++ w.pipe = [] := by rw [h.taken, h.pipe]; rfl
  constructor
  · exact h.nodup
  · rw [hlines]
    exact extends_nil []
  · rw [hlines]
    exact List.forall_mem_nil _
  · rw [World.PassPlace, h.pc]
    trivial

theorem World.Ascends.grow (h : w.Ascends) {files' : List BinlogFile}
    (hnames : w.names <+: files'.map BinlogFile.name)
    (hnodup : (files'.map BinlogFile.name).Nodup) : World.Ascends { w with files := files' } := by
  constructor
  · exact hnodup
  · exact h.order.mono fun _ _ _ _ hx pos ev hs => ⟨(hx pos ev hs).1, (hx pos ev hs).2.grow hnames⟩
  · exact h.index
  · have hplace := h.place
    unfold World.PassPlace at hplace ⊢
    dsimp only at hplace ⊢
    cases hpc : w.pc with
    | loaded names =>
      rw [hpc] at hplace
      exact List.IsPrefix.trans hplace hnames
    | found seq more =>
      rw [hpc] at hplace
      exact ListedBehind.grow hplace hnames
    | cleared seq more =>
      rw [hpc] at hplace
      exact ListedBehind.grow hplace hnames
    | named seq more =>
      rw [hpc] at hplace
      exact ListedBehind.grow hplace hnames
    | begun seq more =>
      rw [hpc] at hplace
      exact ⟨hplace.1.grow hnames, hplace.2.grow hnames⟩
    | opening name pos more =>
      rw [hpc] at hplace
      exact ⟨hplace.1.grow hnames, hplace.2.grow hnames⟩
    | reading info name offset more =>
      rw [hpc] at hplace
      exact ⟨hplace.1.grow hnames, hplace.2.grow hnames⟩
    | _ => trivial

/-- Nothing is printed. -/
theorem World.Ascends.goOn (h : w.Ascends) (hnames : w'.names = w.names)
    (hlines : w'.taken ++ w'.pipe = w.taken ++ w.pipe) (hindex : w'.ulIndex = w.ulIndex)
    (hplace : w'.PassPlace) : w'.Ascends := by
  constructor
  · rw [hnames]
    exact h.nodup
  · rw [hnames, hlines]
    exact h.order
  · rw [hlines, hindex]
    exact h.index
  · exact hplace

/-- `ReadJournal` prints. -/
theorem World.Ascends.print (h : w.Ascends) {lines : List PrintedLine}
    (horder : Extends (BehindPass w.names) (w.taken ++ w.pipe) lines) (pc : JournalPc)
    (ulIndex : ℕ) (annotateEvent : Option (Header × Text))
    (hlines : ∀ x ∈ lines, x.ulIndex = ulIndex) (hindex : w.ulIndex ≤ ulIndex)
    (hplace : World.PassPlace { w with
      pipe := w.pipe ++ lines, pc := pc, ulIndex := ulIndex, annotateEvent := annotateEvent }) :
    World.Ascends { w with
      pipe := w.pipe ++ lines, pc := pc, ulIndex := ulIndex, annotateEvent := annotateEvent } := by
  constructor
  · exact h.nodup
  · dsimp only
    rw [← List.append_assoc, extends_append, List.nil_append]
    exact ⟨h.order, horder⟩
  · dsimp only
    rw [← List.append_assoc, List.forall_mem_append]
    exact ⟨fun x hx => (h.index x hx).trans hindex, fun x hx => (hlines x hx).le⟩
  · exact hplace

theorem World.Ascends.select (h : w.Ascends) {names : List Text} (hpc : w.pc = .loaded names) :
    (w.select names).Ascends := by
  have hplace := h.place
  rw [World.PassPlace, hpc] at hplace
  unfold World.select
  dsimp only
  split
  · split
    · exact h.goOn rfl rfl rfl trivial
    · exact h.goOn rfl rfl rfl trivial
  · split
    case h_1 => exact h.goOn rfl rfl rfl trivial
    case h_2 name more hdrop =>
      exact h.goOn rfl rfl rfl (listedBehind_of_dropWhile hplace hdrop).2

/-- The first line of a new pass is in front of all its events. -/
theorem World.Ascends.printFirst (h : w.Ascends) {dates : ℕ → DateText} {seq : BinLogSequence}
    {more : List Text} (hpc : w.pc = .named seq more) : (w.printFirst dates seq more).Ascends := by
  have hplace := h.place
  rw [World.PassPlace, hpc] at hplace
  unfold World.printFirst
  have hless : Eventless (headLines (w.ulIndex + 1) seq.szBinLogName (.first seq.ulPosition)
      (passLine firstBinlogTag seq.szBinLogName (w.ulIndex + 1) (dates (2 * (w.ulIndex + 1))))) :=
    eventless_headLines _ _ (fun _ _ => Source.noConfusion) _
  apply h.print hless.order _ _ _ (fun x hx => (mem_headLines x hx).1) (Nat.le_succ _)
  refine ⟨hplace, hless.behind fun x hx _ _ _ hindex => ?_⟩
  have hle := h.index x hx
  dsimp only at hindex
  omega

/-- The lines of the start of a file. -/
theorem World.Ascends.openFile (h : w.Ascends) {f : BinlogFile} {pos : ℕ} {more : List Text}
    (hpc : w.pc = .opening f.name pos more) : (w.openFile f pos more).Ascends := by
  have hplace := h.place
  rw [World.PassPlace, hpc] at hplace
  unfold World.openFile
  dsimp only
  rw [List.append_assoc _ _ (plainLines _ _ (printEvents _ _ _).2), List.append_assoc]
  have hstart : Eventless (headLines w.ulIndex f.name .start
      (fileLine startBinlogTag f.name w.ulIndex)) :=
    eventless_headLines _ _ (fun _ _ => Source.noConfusion) _
  have hless := hstart.append ((eventless_plainLines w.ulIndex f.name
    (unlines '\n' startLines)).append (eventless_plainLines w.ulIndex f.name
      (printEvents w.ulIndex { annotateEvent := w.annotateEvent } (f.resent pos)).2))
  apply h.print hless.order _ _ _ _ le_rfl
  · exact ⟨hplace.1, hless.behind hplace.2⟩
  · rw [List.forall_mem_append, List.forall_mem_append]
    exact ⟨fun x hx => (mem_headLines x hx).1, ulIndex_of_mem_plainLines, ulIndex_of_mem_plainLines⟩

/-- The next event is printed, or the lines of the end of the file. -/
theorem World.Ascends.readEvent (h : w.Ascends) {f : BinlogFile} (hf : f ∈ w.files)
    {info : PrintInfo} {offset : ℕ} {more : List Text}
    (hpc : w.pc = .reading info f.name offset more)
    (hw : w.readEvent f info offset more = some w') :
    w'.Ascends := by
  have hplace := h.place
  rw [World.PassPlace, hpc] at hplace
  obtain ⟨hbehind, hbefore⟩ := hplace
  have hmem : f.name ∈ w.names := List.mem_map_of_mem hf
  cases World.readOn hw with
  | event he =>
    obtain ⟨horder, hend⟩ := behindPass_eventLines info (f.event_bounds he).2.1 hmem hbefore
    apply h.print horder _ _ _ (fun x hx => (mem_eventLines x hx).1) le_rfl
    refine ⟨hbehind, ?_⟩
    dsimp only
    rw [← List.append_assoc]
    exact hend
  | fileEnd hsize =>
    have hend : Eventless (headLines w.ulIndex f.name .end_
        (fileLine endBinlogTag f.name w.ulIndex)) :=
      eventless_headLines _ _ (fun _ _ => Source.noConfusion) _
    have hless := (eventless_plainLines w.ulIndex f.name (unlines '\n' endLines)).append hend
    rw [List.append_assoc]
    apply h.print hless.order _ _ _ _ le_rfl
    · cases more with
      | nil => trivial
      | cons next more =>
        obtain ⟨hnext, hle⟩ := hbehind.next h.nodup
        exact ⟨hnext, hless.behind (hbefore.trans (hle _ _))⟩
    · rw [List.forall_mem_append]
      exact ⟨ulIndex_of_mem_plainLines, fun x hx => (mem_headLines x hx).1⟩

theorem World.Ascends.journalStep (h : w.Ascends) {dates : ℕ → DateText}
    (hw : w.journalStep dates = some w') : w'.Ascends := by
  have hplace := h.place
  unfold World.PassPlace at hplace
  unfold World.journalStep at hw
  cases hpc : w.pc with
  | top =>
    rw [hpc] at hw
    obtain rfl := Option.some.inj hw
    exact h.goOn rfl rfl rfl List.prefix_rfl
  | loaded names =>
    rw [hpc] at hw
    obtain rfl := Option.some.inj hw
    exact h.select hpc
  | found seq more =>
    rw [hpc] at hw hplace
    obtain rfl := Option.some.inj hw
    exact h.goOn rfl rfl rfl hplace
  | cleared seq more =>
    rw [hpc] at hw hplace
    obtain rfl := Option.some.inj hw
    exact h.goOn rfl rfl rfl hplace
  | named seq more =>
    rw [hpc] at hw
    obtain rfl := Option.some.inj hw
    exact h.printFirst hpc
  | begun seq more =>
    rw [hpc] at hw hplace
    obtain rfl := Option.some.inj hw
    exact h.goOn rfl rfl rfl hplace
  | opening name pos more =>
    rw [hpc] at hw
    obtain ⟨f, hf, rfl⟩ := Option.map_eq_some_iff.mp hw
    obtain ⟨-, rfl⟩ := mem_of_file hf
    exact h.openFile hpc
  | reading info name offset more =>
    rw [hpc] at hw
    dsimp only at hw
    obtain ⟨f, hf, hread⟩ := Option.bind_eq_some_iff.mp hw
    obtain ⟨hmem, rfl⟩ := mem_of_file hf
    exact h.readEvent hmem hpc hread
  | closing name =>
    rw [hpc] at hw
    obtain rfl := Option.some.inj hw
    have hless : Eventless (headLines w.ulIndex name .last
        (passLine lastBinlogTag name w.ulIndex (dates (2 * w.ulIndex + 1)))) :=
      eventless_headLines _ _ (fun _ _ => Source.noConfusion) _
    exact h.print hless.order _ _ _ (fun x hx => (mem_headLines x hx).1) le_rfl trivial
  | waiting =>
    rw [hpc] at hw
    dsimp only at hw
    split at hw
    · obtain rfl := Option.some.inj hw
      exact h.goOn rfl rfl rfl trivial
    · cases hw
  | stopped =>
    rw [hpc] at hw
    cases hw
  | _ =>
    rw [hpc] at hw
    obtain rfl := Option.some.inj hw
    exact h.goOn rfl rfl rfl trivial

/-- The listener takes what is printed, and `ReadJournal` stays where it is. -/
theorem World.Ascends.listen (h : w.Ascends) (hfiles : w'.files = w.files) (hpc : w'.pc = w.pc)
    (hindex : w'.ulIndex = w.ulIndex) (hlines : w'.taken ++ w'.pipe = w.taken ++ w.pipe) :
    w'.Ascends := by
  have hnames : w'.names = w.names := by rw [World.names, hfiles, World.names]
  apply h.goOn hnames hlines hindex
  have hplace := h.place
  unfold World.PassPlace at hplace ⊢
  rw [hnames, hlines, hindex, hpc, hfiles]
  exact hplace

theorem World.Ascends.step (h : w.Ascends) {dates : ℕ → DateText} {turn : Turn}
    (hw : World.step dates w turn = some w') : w'.Ascends := by
  cases World.stepped hw with
  | appendEvents hlast hname hdescription hevents =>
    have hnames := names_appendEvents hlast hname
    apply h.grow
    · rw [hnames]
      exact List.prefix_rfl
    · rw [hnames]
      exact h.nodup
  | appendFile hname hnew =>
    exact h.grow (grows_appendFile hnew).names (nodup_appendFile h.nodup hnew)
  | journal hw => exact h.journalStep hw
  | giveUp => exact h.goOn rfl rfl rfl trivial
  | access => exact h.listen rfl rfl rfl rfl
  | @take x pipe _ hpending hpipe hline =>
    have hlines : w.taken ++ [x] ++ pipe = w.taken ++ w.pipe := by
      rw [hpipe, List.append_assoc, List.singleton_append]
    exact h.listen rfl rfl rfl hlines

/-- In every run each pass captures an event at most once. -/
theorem oncePerPass {dates : ℕ → DateText} {cond : World → Turn → Prop} {w₀ : World}
    (h₀ : w₀.Begins) (h : Run (World.step dates) cond w₀ w) : w.OncePerPass :=
  (h.invariant World.Ascends (fun _ _ _ hs _ hst => hs.step hst) h₀.ascends).oncePerPass

end Steps

end BinlogCapture
