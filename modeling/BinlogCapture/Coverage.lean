import BinlogCapture.Reached
import BinlogCapture.StatementText

/-! What the listener has captured when the positions say so: in every run over binlogs whose texts
do not look like markers, no position is in front of an event that has not been captured. -/
namespace BinlogCapture
open CString Fallible LineFeed Runs Histories

section Lines
variable {files : List BinlogFile} {origin : BinLogInfo} {before lines : List PrintedLine}
  {x : PrintedLine}

theorem lineSound_of_no_target (hx : Acts x.text x.action)
    (hno : ∀ first name, x.action.targets first name = []) : LineSound files origin before x := by
  refine ⟨hx, fun first q hq => ?_⟩
  rw [hno] at hq
  cases hq

theorem Quiet.extends (h : Quiet lines) : Extends (LineSound files origin) before lines :=
  extends_of_forall fun _ x hx _ => lineSound_of_no_target (h x hx).2 fun _ _ => by
    rw [h.action hx]
    rfl

/-- The marker of an event at the place where the reading stands. -/
theorem lineSound_marker {f : BinlogFile} (hf : f ∈ files) {e : ℕ × LogEvent}
    (he : e ∈ f.eventsAt) (hmarker : x.IsMarker f.name e) (hx : Acts x.text x.action)
    (hname : nameOf before = f.name) (hbefore : Covers files origin before ⟨f.name, e.1⟩)
    (hbehind : Covers files origin (before ++ [x]) ⟨f.name, e.2.logPos⟩) :
    LineSound files origin before x := by
  obtain ⟨-, hlt, hsize⟩ := f.event_bounds he
  have hstands : ∀ {c p}, c ≤ p → p ≤ f.size →
      Covers files origin (before ++ [x]) ⟨f.name, p⟩ →
      Stands files origin (before ++ [x]) ⟨f.name, c, 0⟩ := by
    intro c p hc hp hcovers
    have hmem := List.mem_map_of_mem (f := BinlogFile.name) hf
    exact ⟨hcovers.of_before ⟨hmem, .inr ⟨rfl, hc⟩⟩, f, hf, rfl, hc.trans hp⟩
  have hstart : Covers files origin (before ++ [x]) ⟨f.name, e.1⟩ :=
    hbefore.mono (List.subset_append_left _ _)
  refine ⟨hx, fun first q hq => ?_⟩
  rw [hname, action_of_marker hmarker, LogEvent.actions] at hq
  cases hd : e.2.data with
  | gtid seqNo summary settings standalone =>
    rw [hd] at hq
    rw [List.mem_singleton.mp hq]
    exact hstands (min_le_left _ _) (by omega) hstart
  | query summary useDb settings query =>
    rw [hd] at hq
    rw [List.mem_singleton.mp hq]
    exact hstands (min_le_left _ _) hsize hbehind
  | xid xid =>
    rw [hd] at hq
    rw [List.mem_singleton.mp hq]
    exact hstands (min_le_left _ _) hsize hbehind
  | _ =>
    rw [hd] at hq
    cases hq

/-- The lines of an event at the place where the reading stands. -/
theorem eventLines_sound (hnodup : (files.map BinlogFile.name).Nodup) {f : BinlogFile}
    (hf : f ∈ files) {pos : ℕ} {ev : LogEvent} (he : (pos, ev) ∈ f.eventsAt) {info : PrintInfo}
    (hinfo : InfoPlain info) {ulIndex : ℕ} (hev : ev.TextPlain ulIndex)
    (hname : nameOf before = f.name) (hbefore : Covers files origin before ⟨f.name, pos⟩) :
    Extends (LineSound files origin) before (eventLines ulIndex f.name info pos ev) ∧
      nameOf (before ++ eventLines ulIndex f.name info pos ev) = f.name ∧
      Covers files origin (before ++ eventLines ulIndex f.name info pos ev)
        ⟨f.name, ev.logPos⟩ := by
  obtain ⟨first, front, marker, back, hlines, hfirst, hfront, hback, hmarker⟩ :=
    eventLines_shape f.name hinfo hev pos
  have hskip : first.action = .skip := by rw [PrintedLine.action, hfirst.2.2.1]
  have hfirstSound : Extends (LineSound files origin) before (first :: front) := by
    refine ⟨lineSound_of_no_target hfirst.2.2.2 fun _ _ => ?_, hfront.extends⟩
    rw [hskip]
    rfl
  have hfirstName : nameOf (before ++ first :: front) = f.name := by
    rw [nameOf_append, List.map_cons, hskip, hname]
    exact hfront.nameAfter f.name
  rw [hlines]
  rcases hmarker with ⟨hnone, rfl⟩ | ⟨x, rfl, -, hx, hacts⟩
  · rw [List.append_nil]
    refine ⟨extends_append.mpr ⟨hfirstSound, hback.extends⟩, ?_, ?_⟩
    · rw [← List.append_assoc, nameOf_append, hfirstName]
      exact hback.nameAfter f.name
    · apply Covers.event (p := ⟨f.name, pos⟩) hbefore hnodup hf he rfl (List.subset_append_left _ _)
      intro hsome
      rw [isSome_marker ev pos pos 0 ulIndex, hnone] at hsome
      cases hsome
  · have hbehind : ∀ rest, Covers files origin (before ++ first :: front ++ x :: rest)
        ⟨f.name, ev.logPos⟩ := by
      intro rest
      apply Covers.event (p := ⟨f.name, pos⟩) hbefore hnodup hf he rfl
      · rw [List.append_assoc]
        exact List.subset_append_left _ _
      · intro _
        exact ⟨x, List.mem_append_right _ List.mem_cons_self, hx⟩
    have hsound : LineSound files origin (before ++ first :: front) x :=
      lineSound_marker hf he hx hacts hfirstName (hbefore.mono (List.subset_append_left _ _))
        (hbehind [])
    refine ⟨?_, ?_, ?_⟩
    · rw [List.append_assoc, extends_append]
      exact ⟨hfirstSound, hsound, hback.extends⟩
    · rw [List.append_assoc, ← List.append_assoc before, nameOf_append, hfirstName]
      rw [List.singleton_append, List.map_cons]
      show nameAfter (x.action.szBinLogName f.name) _ = _
      rw [action_keeps_name hx]
      exact hback.nameAfter f.name
    · have hall := hbehind back
      rwa [List.append_assoc] at hall ⊢

end Lines

section Steps
variable {w w' : World}

/-- `ReadJournal` goes on without a word about the positions. -/
theorem World.Sound.goOn (h : w.Sound) {g : Shared} {pc : JournalPc} {signalled : Bool}
    (hseq : g.stBinLogSeq = w.shared.stBinLogSeq)
    (hin : g.stBinLogSeqInProgess = w.shared.stBinLogSeqInProgess) (hxai : g.xai = w.shared.xai)
    (hpc : PcSound w.files w.origin.place w.taken w.pipe g pc)
    (hfresh : w.shared.stBinLogSeq.szBinLogName = [] → w.pc.Outside → pc.Outside)
    (hearly : w.pc.Early → pc.Early) :
    World.Sound { w with shared := g, pc := pc, signalled := signalled } := by
  constructor
  · exact h.nodup
  · exact h.named
  · exact h.lines
  · exact h.loc
  · exact h.pending
  · dsimp only
    rw [hseq]
    exact h.seq
  · dsimp only
    rw [hin]
    exact h.inProgess
  · dsimp only
    rw [hxai]
    exact h.xai
  · exact hpc
  · dsimp only
    rw [hseq]
    intro hname
    have hf := h.fresh hname
    exact ⟨hfresh hname hf.pc, hf.lines, hf.pending, by rw [hin]; exact hf.inProgess,
      by rw [hxai]; exact hf.xai⟩
  · dsimp only
    rw [hin]
    intro hname
    have hu := h.unpublished hname
    exact ⟨hearly hu.pc, hu.lines, hu.pending⟩

/-- `ReadJournal` prints. -/
theorem World.Sound.print (h : w.Sound) {lines : List PrintedLine}
    (hlines : Extends (LineSound w.files w.origin.place) (w.taken ++ w.pipe) lines)
    (hpc : ¬w.pc.Outside) (pc : JournalPc)
    (hpc' : PcSound w.files w.origin.place w.taken (w.pipe ++ lines) w.shared pc)
    (hearly : w.pc.Early → pc.Early ∧ ∀ x ∈ lines, x.action ≠ .lastBinlog) (ulIndex : ℕ)
    (annotateEvent : Option (Header × Text)) :
    World.Sound { w with
      pipe := w.pipe ++ lines, pc := pc, ulIndex := ulIndex, annotateEvent := annotateEvent } := by
  constructor
  · exact h.nodup
  · exact h.named
  · dsimp only
    rw [← List.append_assoc, extends_append, List.nil_append]
    exact ⟨h.lines, hlines⟩
  · exact h.loc
  · exact h.pending
  · exact h.seq
  · exact h.inProgess
  · exact h.xai
  · exact hpc'
  · exact fun hname => absurd (h.fresh hname).pc hpc
  · intro hname
    have hu := h.unpublished hname
    obtain ⟨hpc', hlines'⟩ := hearly hu.pc
    refine ⟨hpc', ?_, hu.pending⟩
    dsimp only
    rw [← List.append_assoc, List.forall_mem_append]
    exact ⟨hu.lines, hlines'⟩

/-- The next pass is found in the list of binlogs. -/
theorem World.Sound.select (h : w.Sound) {names : List Text} (hpc : w.pc = .loaded names) :
    (w.select names).Sound := by
  have hprefix : names <+: w.names := by
    have hsound := h.pc
    rw [hpc] at hsound
    exact hsound
  unfold World.select
  dsimp only
  by_cases hname : w.shared.stBinLogSeq.szBinLogName = []
  · rw [if_pos hname]
    cases hlast : w.files.getLast? with
    | none =>
      exact h.goOn rfl rfl rfl trivial (fun _ _ => trivial) fun _ => trivial
    | some f =>
      have hf : f.name ∈ w.names := List.mem_map_of_mem (List.mem_of_getLast? hlast)
      refine h.goOn rfl rfl rfl ⟨fun hnil => h.named ?_, hname⟩ (fun _ _ => trivial)
        fun _ => trivial
      rw [← show f.name = [] from hnil]
      exact hf
  · rw [if_neg hname]
    cases hdrop : names.dropWhile (· ≠ w.shared.stBinLogSeq.szBinLogName) with
    | nil => exact h.goOn rfl rfl rfl trivial (fun _ _ => trivial) fun _ => trivial
    | cons name more =>
      obtain ⟨-, hbehind⟩ := listedBehind_of_dropWhile hprefix hdrop
      exact h.goOn rfl rfl rfl ⟨h.seq, hbehind⟩ (fun hnil => absurd hnil hname) fun _ => trivial

/-- The lines of the start of a file. -/
theorem World.Sound.openFile (h : w.Sound) (hplain : w.Plain) {f : BinlogFile} (hf : f ∈ w.files)
    {pos : ℕ} {more : List Text} (hpc : w.pc = .opening f.name pos more) :
    (w.openFile f pos more).Sound := by
  have hsound := h.pc
  rw [hpc] at hsound
  obtain ⟨hreached, hbehind⟩ := hsound
  obtain ⟨hnl, hsep, htexts⟩ := hplain f hf
  obtain ⟨hinfo, hquiet⟩ := quiet_openFile w.ulIndex f.name w.annotateEvent htexts pos
  unfold World.openFile
  dsimp only
  rw [headLines_fileLine (by decide) hnl,
    List.append_assoc _ _ (plainLines _ _ (printEvents _ _ _).2),
    List.append_assoc]
  generalize hx : (PrintedLine.mk w.ulIndex f.name .start _) = x
  have hacts : Acts x.text x.action := by
    rw [← hx]
    exact acts_startBinlog hsep _
  have hmem : f.name ∈ w.files.map BinlogFile.name := List.mem_map_of_mem hf
  have hx' : LineSound w.files w.origin.place (w.taken ++ w.pipe) x := by
    refine ⟨hacts, fun first q hq => ?_⟩
    rw [← hx] at hq
    dsimp only [PrintedLine.action, Action.targets] at hq
    split at hq
    · rw [List.mem_singleton.mp hq]
      exact ⟨(hreached.1.header hmem).mono (List.subset_append_left _ _), f, hf, rfl,
        f.header_le_size⟩
    · cases hq
  generalize plainLines w.ulIndex f.name (unlines '\n' startLines) ++ plainLines w.ulIndex f.name
      (printEvents w.ulIndex { annotateEvent := w.annotateEvent } (f.resent pos)).2 =
    quiet at hquiet ⊢
  have hlines : Extends (LineSound w.files w.origin.place) (w.taken ++ w.pipe) ([x] ++ quiet) :=
    ⟨hx', hquiet.extends⟩
  refine h.print hlines (by rw [hpc]; exact id) (.reading _ f.name pos more)
    ⟨?_, hbehind, ?_, hinfo⟩ (by rw [hpc]; exact False.elim) _ _
  · apply hreached.mono
    rw [← List.append_assoc]
    exact List.subset_append_left _ _
  · rw [← List.append_assoc, nameOf_append, List.map_append, nameAfter_append, hquiet.nameAfter,
      ← hx]
    rfl

/-- The next event is printed, or the lines of the end of the file. -/
theorem World.Sound.readEvent (h : w.Sound) (hplain : w.Plain) {f : BinlogFile} (hf : f ∈ w.files)
    {info : PrintInfo} {offset : ℕ} {more : List Text}
    (hpc : w.pc = .reading info f.name offset more)
    (hw : w.readEvent f info offset more = some w') :
    w'.Sound := by
  have hsound := h.pc
  rw [hpc] at hsound
  obtain ⟨hreached, hbehind, hname, hinfo⟩ := hsound
  obtain ⟨hnl, -, htexts⟩ := hplain f hf
  have hmem : f.name ∈ w.files.map BinlogFile.name := List.mem_map_of_mem hf
  cases World.readOn hw with
  | @event ev he =>
    have hev := htexts _ he w.ulIndex
    have hnodup : (w.files.map BinlogFile.name).Nodup := h.nodup
    obtain ⟨hlines, hname', hcovers⟩ := eventLines_sound hnodup hf he hinfo hev hname hreached.1
    have hinfo' : InfoPlain (printEvent w.ulIndex info offset ev).1 :=
      (printEvent_tells hinfo hev offset).1
    refine h.print hlines (by rw [hpc]; exact id) (.reading _ f.name ev.logPos more)
      ⟨⟨?_, .inr (.inr ⟨f, hf, rfl, ?_⟩)⟩, hbehind, ?_, hinfo'⟩ (by rw [hpc]; exact False.elim) _ _
    · rwa [List.append_assoc] at hcovers
    · exact (f.event_bounds he).2.2
    · rwa [List.append_assoc] at hname'
  | fileEnd hsize =>
    rw [headLines_fileLine (by decide) hnl]
    have hquiet : Quiet (plainLines w.ulIndex f.name (unlines '\n' endLines)) :=
      quiet_plain plain_endLines
    generalize hx : (PrintedLine.mk w.ulIndex f.name .end_ _) = x
    have hx' : LineSound w.files w.origin.place (w.taken ++ w.pipe ++
        plainLines w.ulIndex f.name (unlines '\n' endLines)) x := by
      rw [← hx]
      exact lineSound_of_no_target (acts_endBinlog _) fun _ _ => rfl
    generalize plainLines w.ulIndex f.name (unlines '\n' endLines) = quiet at hquiet hx' ⊢
    have hlines : Extends (LineSound w.files w.origin.place) (w.taken ++ w.pipe)
        (quiet ++ [x]) := extends_append.mpr ⟨hquiet.extends, extends_singleton.mpr hx'⟩
    rw [List.append_assoc]
    refine h.print hlines (by rw [hpc]; exact id) _ ?_ (by rw [hpc]; exact False.elim) _ _
    cases more with
    | nil => exact hmem
    | cons next more =>
      have hbehind' := (hbehind.next h.nodup).1
      obtain ⟨before, after, hnames⟩ := hbehind
      have hnext : Covers w.files w.origin.place (w.taken ++ w.pipe) ⟨next, binLogHeaderSize⟩ :=
        Covers.next (hsize ▸ hreached.1) h.nodup hf hnames
      refine ⟨⟨?_, .inr (.inr ?_)⟩, hbehind'⟩
      · apply hnext.mono
        rw [← List.append_assoc]
        exact List.subset_append_left _ _
      · obtain ⟨g, hg, rfl⟩ := List.mem_map.mp hbehind'.mem
        exact ⟨g, hg, rfl, g.header_le_size⟩

/-- A step of `ReadJournal`. -/
theorem World.Sound.journalStep (h : w.Sound) (hplain : w.Plain) {dates : ℕ → DateText}
    (hw : w.journalStep dates = some w') : w'.Sound := by
  have hsound := h.pc
  have hoff : ¬w.pc.Outside → w.shared.stBinLogSeq.szBinLogName ≠ [] := fun hpc hname =>
    hpc (h.fresh hname).pc
  have hset : ¬w.pc.Early → w.shared.stBinLogSeqInProgess.szBinLogName ≠ [] := fun hpc hname =>
    hpc (h.unpublished hname).pc
  unfold World.journalStep at hw
  cases hpc : w.pc with
  | top =>
    rw [hpc] at hw
    obtain rfl := Option.some.inj hw
    exact h.goOn rfl rfl rfl List.prefix_rfl (fun _ _ => trivial) fun _ => trivial
  | loaded names =>
    rw [hpc] at hw
    obtain rfl := Option.some.inj hw
    exact h.select hpc
  | status seq =>
    rw [hpc] at hw hsound
    obtain rfl := Option.some.inj hw
    have hf := h.fresh hsound.2
    obtain ⟨htaken, hpipe⟩ := List.append_eq_nil_iff.mp hf.lines
    constructor
    · exact h.nodup
    · exact h.named
    · dsimp only
      rw [hf.lines]
      exact extends_nil []
    · exact h.loc
    · dsimp only
      rw [hf.pending]
      exact List.forall_mem_nil _
    · exact reached_origin rfl
    · exact reached_unnamed h.named hf.inProgess
    · exact fun q hq => reached_unnamed h.named (hf.xai q hq)
    · trivial
    · exact fun hname => absurd hname hsound.1
    · intro hname
      have hu := h.unpublished hname
      exact ⟨trivial, hu.lines, hu.pending⟩
  | saving =>
    rw [hpc] at hw
    obtain rfl := Option.some.inj hw
    have hname := hoff (by rw [hpc]; exact id)
    constructor
    · exact h.nodup
    · exact h.named
    · exact h.lines
    · exact h.loc
    · exact h.pending
    · exact h.seq
    · exact h.inProgess
    · intro q hq
      rcases List.mem_append.mp hq with hq | hq
      · exact h.xai q hq
      · exact List.mem_singleton.mp hq ▸ h.seq
    · trivial
    · exact fun hnil => absurd hnil hname
    · exact fun hnil => ⟨trivial, (h.unpublished hnil).lines, (h.unpublished hnil).pending⟩
  | found seq more =>
    rw [hpc] at hw hsound
    obtain rfl := Option.some.inj hw
    exact h.goOn rfl rfl rfl hsound (by rw [hpc]; exact fun _ => id) fun _ => trivial
  | cleared seq more =>
    rw [hpc] at hw hsound
    obtain rfl := Option.some.inj hw
    exact h.goOn rfl rfl rfl hsound (by rw [hpc]; exact fun _ => id) fun _ => trivial
  | named seq more =>
    rw [hpc] at hw hsound
    obtain rfl := Option.some.inj hw
    obtain ⟨f, hf, hname⟩ := List.mem_map.mp hsound.2.mem
    obtain ⟨hnl, hsep, -⟩ := hplain f hf
    rw [hname] at hnl hsep
    rw [World.printFirst, headLines_passLine (by decide) hnl]
    refine h.print (extends_singleton.mpr (lineSound_of_no_target ?_ fun _ _ => rfl))
      (by rw [hpc]; exact id) (.begun seq more) hsound (fun _ => ⟨trivial, ?_⟩) _ _
    · exact acts_firstBinlog hsep _
    · exact List.forall_mem_singleton.mpr Action.noConfusion
  | begun seq more =>
    rw [hpc] at hw hsound
    obtain rfl := Option.some.inj hw
    have hname := hoff (by rw [hpc]; exact id)
    have hset : seq.szBinLogName ≠ [] := fun hnil => h.named (hnil ▸ hsound.2.mem)
    constructor
    · exact h.nodup
    · exact h.named
    · exact h.lines
    · exact h.loc
    · exact h.pending
    · exact h.seq
    · exact hsound.1
    · exact h.xai
    · exact ⟨hsound.1.mono (List.subset_append_left _ _), hsound.2⟩
    · exact fun hnil => absurd hnil hname
    · exact fun hnil => absurd hnil hset
  | opening name pos more =>
    rw [hpc] at hw
    obtain ⟨f, hf, rfl⟩ := Option.map_eq_some_iff.mp hw
    obtain ⟨hmem, rfl⟩ := mem_of_file hf
    exact h.openFile hplain hmem hpc
  | reading info name offset more =>
    rw [hpc] at hw
    dsimp only at hw
    obtain ⟨f, hf, hread⟩ := Option.bind_eq_some_iff.mp hw
    obtain ⟨hmem, rfl⟩ := mem_of_file hf
    exact h.readEvent hplain hmem hpc hread
  | ended name =>
    rw [hpc] at hw hsound
    obtain rfl := Option.some.inj hw
    exact h.goOn rfl rfl rfl hsound (by rw [hpc]; exact fun _ => id) (by rw [hpc]; exact id)
  | closing name =>
    rw [hpc] at hw hsound
    obtain rfl := Option.some.inj hw
    obtain ⟨f, hf, rfl⟩ := List.mem_map.mp hsound
    rw [headLines_passLine (by decide) (hplain f hf).1]
    exact h.print
      (extends_singleton.mpr (lineSound_of_no_target (acts_lastBinlog _) fun _ _ => rfl))
      (by rw [hpc]; exact id) .waiting trivial (by rw [hpc]; exact False.elim) _ _
  | waiting =>
    rw [hpc] at hw
    dsimp only at hw
    split at hw
    · obtain rfl := Option.some.inj hw
      exact h.goOn rfl rfl rfl trivial (fun _ _ => trivial) fun _ => trivial
    · cases hw
  | gaveUp =>
    rw [hpc] at hw
    obtain rfl := Option.some.inj hw
    exact h.goOn rfl rfl rfl ⟨h.inProgess, hset (by rw [hpc]; exact id)⟩
      (by rw [hpc]; exact fun _ => id) (by rw [hpc]; exact id)
  | copying seq =>
    rw [hpc] at hw hsound
    obtain rfl := Option.some.inj hw
    have hname := hset (by rw [hpc]; exact id)
    constructor
    · exact h.nodup
    · exact h.named
    · exact h.lines
    · exact h.loc
    · exact h.pending
    · exact hsound.1
    · exact h.inProgess
    · exact h.xai
    · trivial
    · exact fun hnil => absurd hnil hsound.2
    · exact fun hnil => absurd hnil hname
  | stopped =>
    rw [hpc] at hw
    cases hw

theorem World.Sound.step (h : w.Sound) (hplain : w.Plain) {dates : ℕ → DateText} {turn : Turn}
    (hw : World.step dates w turn = some w') : w'.Sound := by
  cases World.stepped hw with
  | appendEvents hlast hname hdescription hevents =>
    have hnames := names_appendEvents hlast hname
    refine h.grow (grows_appendEvents hlast hname hdescription hevents h.nodup) ?_ ?_
    · rw [hnames]
      exact h.nodup
    · rw [hnames]
      exact h.named
  | appendFile hname hnew =>
    apply h.grow (grows_appendFile hnew) (nodup_appendFile h.nodup hnew)
    rw [List.map_append, List.mem_append, not_or]
    exact ⟨h.named, fun hmem => hname (List.mem_singleton.mp hmem).symm⟩
  | journal hw => exact h.journalStep hplain hw
  | giveUp hpc =>
    exact h.goOn rfl rfl rfl trivial (by rw [hpc]; exact fun _ => id) (by rw [hpc]; exact id)
  | access hpending => exact h.access hpending
  | take hpending hpipe hline => exact h.take hpipe hline

/-- Over binlogs without a text that looks like a marker, whatever the two threads do and whenever
`ReadJournal` gives up its wait, every event that a position has passed is captured. -/
theorem atLeastOnce_of_plain (dates : ℕ → DateText) {w₀ : World} (h₀ : w₀.Begins)
    (h : Run (World.step dates) (fun w _ => w.Plain) w₀ w) : w.AtLeastOnce :=
  (h.invariant World.Sound (fun _ _ _ hs hplain hst => hs.step hplain hst) h₀.sound).atLeastOnce

end Steps

/-- The run in which the listener has handled the statement. -/
theorem exec_statement : ∃ w, exec (World.step fun _ => someDate)
    (World.start (statementFile "drop table t".toList)) (firstSteps 9 16) = some w ∧
      w.shared.persisted = some ⟨firstName, 300, 0⟩ := by
  have h : ((exec (World.step fun _ => someDate)
      (World.start (statementFile "drop table t".toList)) (firstSteps 9 16)).map
        fun w => w.shared.persisted) = some (some ⟨firstName, 300, 0⟩) := by
    decide +kernel
  exact Option.map_eq_some_iff.mp h

theorem plain_statementFile {query : Text} (hline : '\n' ∉ query) (h : Unmarked query) :
    ∀ f ∈ [statementFile query],
      '\n' ∉ f.name ∧ '!' ∉ f.name ∧ ∀ e ∈ f.eventsAt, ∀ i, e.2.TextPlain i := by
  refine List.forall_mem_singleton.mpr ⟨(by decide : '\n' ∉ firstName),
    (by decide : '!' ∉ firstName), ?_⟩
  simp only [BinlogFile.eventsAt, BinlogFile.stored, statementFile, offsets, List.forall_mem_cons]
  refine ⟨fun i => List.forall_mem_nil _, fun i => ⟨?_, statementPlain_of_line hline h i⟩,
    fun i => trivial, List.forall_mem_nil _⟩
  exact fun db hdb => by cases hdb

/-- The statement is captured when its end is saved. -/
theorem atLeastOnce_statement : ∃ w : World, w.shared.persisted = some ⟨firstName, 300, 0⟩ ∧
    w.AtLeastOnce := by
  obtain ⟨w, hw, hsaved⟩ := exec_statement
  have hbegins : (World.start (statementFile "drop table t".toList)).Begins :=
    begins_start _ (by decide)
  refine ⟨w, hsaved, atLeastOnce_of_plain (fun _ => someDate) hbegins (run_threads ?_ ?_ hw)⟩
  · intro u hu _ _
    rw [World.Plain, hu]
    exact plain_statementFile (by decide) (by decide)
  · exact ofThread_firstSteps 9 16

/-- Behind the second line of the statement the end of the transaction is not yet printed. -/
theorem exec_forgedStatement : ∃ w, exec (World.step fun _ => someDate)
    (World.start (statementFile forgingText)) (firstSteps 9 19) = some w ∧
      w.shared.persisted = some ⟨firstName, 99999, 0⟩ ∧ w.origin = ⟨firstName, 4, 0⟩ ∧
      ∀ x ∈ w.taken, x.source ≠ .marker 300 ⟨1, 331, false, defaultHeader, .xid 7⟩ := by
  have h : (exec (World.step fun _ => someDate)
      (World.start (statementFile forgingText)) (firstSteps 9 19)).any (fun w =>
        w.shared.persisted = some ⟨firstName, 99999, 0⟩ ∧ w.origin = ⟨firstName, 4, 0⟩ ∧
          ∀ x ∈ w.taken, x.source ≠ .marker 300 ⟨1, 331, false, defaultHeader, .xid 7⟩) = true := by
    decide +kernel
  obtain ⟨w, hw, hall⟩ := (Option.any_eq_true _ _).mp h
  exact ⟨w, hw, of_decide_eq_true hall⟩

/-- A statement with the marker of a `COMMIT` on its second line: the position that is saved is
behind an event that is not captured. -/
theorem not_atLeastOnce_forgingText : ¬∀ (dates : ℕ → DateText) (w₀ w : World), w₀.Begins →
    Run (World.step dates) (fun _ _ => True) w₀ w → w.AtLeastOnce := by
  intro h
  obtain ⟨w, hw, hsaved, horigin, hnone⟩ := exec_forgedStatement
  have hfiles : w.files = [statementFile forgingText] :=
    files_exec (ofThread_firstSteps 9 19) hw
  have hall := h _ _ w (begins_start _ (by decide))
    (run_threads (fun _ _ _ _ => trivial) (ofThread_firstSteps 9 19) hw)
  have hcovers := hall _ (.inr (.inr hsaved))
  rw [hfiles, horigin] at hcovers
  obtain ⟨x, hx, hmarker⟩ := hcovers _ (List.mem_singleton_self _)
    (300, ⟨1, 331, false, defaultHeader, .xid 7⟩)
    (List.mem_cons_of_mem _ (List.mem_cons_of_mem _ List.mem_cons_self)) rfl (by decide) (by decide)
  exact hnone x hx hmarker.2.1

end BinlogCapture
