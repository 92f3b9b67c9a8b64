import BinlogCapture.Pass

/-! The positions that the listener takes from the text of a pass, in the order of the binlog. -/
namespace BinlogCapture
open CString Fallible LineFeed Trail

/-- The positions that the markers of the events move the listener to. -/
def checkpoints (es : List (ℕ × LogEvent)) : List ℕ := es.filterMap fun e => e.2.checkpoint e.1

/-- Where the listener stands behind the events when it stood at `start` before them. -/
def checkpointAfter (start : ℕ) (es : List (ℕ × LogEvent)) : ℕ :=
  (checkpoints es).getLast?.getD start

/-- Each event begins at or behind the end of the one before it and ends at its `log_pos`. A
`Format_description`, which is sent again for a later offset, moves nothing. -/
def InOrder : ℕ → List (ℕ × LogEvent) → Prop
  | _, [] => True
  | start, (pos, ev) :: es => start ≤ pos ∧
      if ev.isFormatDescription then InOrder pos es else pos < ev.logPos ∧ InOrder ev.logPos es

section InOrder

theorem InOrder.mono {es : List (ℕ × LogEvent)} {start start' : ℕ} (h : InOrder start es)
    (hle : start' ≤ start) : InOrder start' es := by
  cases es with
  | nil => exact trivial
  | cons e es => exact ⟨hle.trans h.1, h.2⟩

theorem InOrder.of_isPrefix {es fs : List (ℕ × LogEvent)} {start : ℕ} (h : InOrder start fs)
    (hpre : es <+: fs) : InOrder start es := by
  induction es generalizing start fs with
  | nil => exact trivial
  | cons e es ih =>
    obtain ⟨rest, rfl⟩ := hpre
    obtain ⟨hpos, h⟩ := h
    refine ⟨hpos, ?_⟩
    split_ifs at h ⊢
    · exact ih h (List.prefix_append _ _)
    · exact ⟨h.1, ih h.2 (List.prefix_append _ _)⟩

/-- The events of a file that is read from one of its event boundaries are in order. -/
theorem inOrder_printedEvents {pos : ℕ} {es : Stored} (h : Contiguous pos es) :
    InOrder pos (printedEvents pos es) := by
  induction es generalizing pos with
  | nil => exact trivial
  | cons e es ih =>
    obtain ⟨ev, size⟩ := e
    obtain ⟨hsize, hend, -, h⟩ := h
    have hrest := ih h
    rw [printedEvents]
    split_ifs
    · exact trivial
    · refine ⟨le_rfl, ?_⟩
      split_ifs
      · exact hrest.mono (Nat.le_add_right _ _)
      · rw [hend]
        exact ⟨Nat.lt_add_of_pos_right hsize, hrest⟩
    · exact hrest.mono (Nat.le_add_right _ _)

theorem reply_inOrder {f : BinlogFile} {p ulIndex : ℕ} {ps : List Packet} (h : Reply f p ps)
    (info : PrintInfo) : InOrder p (dumpRemoteLogEntries ulIndex f.name ps info p).events := by
  have hcont := f.contiguous
  rcases h with ⟨hp, hrotate, hlast, hps⟩ | ⟨rfl, hsplit, hrotate, htype, hwhen, hlast, rfl⟩
  · rw [events_of_start (.start hp hrotate hlast hps) hp, hp]
    exact inOrder_printedEvents hcont
  · rw [events_of_resume hsplit hrotate htype hwhen hlast]
    split
    · exact trivial
    · rw [hsplit, ← List.cons_append] at hcont
      refine ⟨le_rfl, ?_⟩
      rw [if_pos htype]
      exact inOrder_printedEvents hcont.append.2

theorem checkpoint_formatDescription {ev : LogEvent} (h : ev.isFormatDescription = true)
    (pos : ℕ) : ev.checkpoint pos = none := by
  unfold LogEvent.isFormatDescription at h
  unfold LogEvent.checkpoint
  cases hd : ev.data with
  | formatDescription lines => rfl
  | _ => simp [hd] at h

/-- The checkpoint of an event is its start or its end. -/
theorem checkpoint_cases {ev : LogEvent} {pos c : ℕ} (h : ev.checkpoint pos = some c) :
    c = pos ∨ c = ev.logPos := by
  unfold LogEvent.checkpoint at h
  cases hd : ev.data with
  | gtid => exact .inl (by simpa [hd] using h.symm)
  | query => exact .inr (by simpa [hd] using h.symm)
  | xid => exact .inr (by simpa [hd] using h.symm)
  | _ => simp [hd] at h

theorem mem_checkpoints {es : List (ℕ × LogEvent)} {c : ℕ} :
    c ∈ checkpoints es ↔ ∃ e ∈ es, e.2.checkpoint e.1 = some c := by
  simp [checkpoints]

theorem checkpoints_append (es fs : List (ℕ × LogEvent)) :
    checkpoints (es ++ fs) = checkpoints es ++ checkpoints fs := List.filterMap_append

theorem checkpoints_cons (e : ℕ × LogEvent) (es : List (ℕ × LogEvent)) :
    checkpoints (e :: es) = (e.2.checkpoint e.1).toList ++ checkpoints es := by
  cases h : e.2.checkpoint e.1 with
  | none => exact List.filterMap_cons_none (f := fun e : ℕ × LogEvent => e.2.checkpoint e.1) h
  | some c => exact List.filterMap_cons_some (f := fun e : ℕ × LogEvent => e.2.checkpoint e.1) h

/-- The checkpoints of events in order ascend. -/
theorem InOrder.checkpoints_sorted {es : List (ℕ × LogEvent)} : ∀ {start : ℕ}, InOrder start es →
    (start :: checkpoints es).Pairwise (· ≤ ·) := by
  induction es with
  | nil => exact fun _ => List.pairwise_singleton _ _
  | cons e es ih =>
    obtain ⟨pos, ev⟩ := e
    rintro start ⟨hpos, h⟩
    rw [checkpoints_cons]
    by_cases hfd : ev.isFormatDescription = true
    · rw [if_pos hfd] at h
      rw [checkpoint_formatDescription hfd]
      exact ih (h.mono hpos)
    · rw [if_neg hfd] at h
      obtain ⟨hlt, h⟩ := h
      obtain ⟨hall, hsorted⟩ := List.pairwise_cons.mp (ih h)
      have hweak : ∀ a ≤ ev.logPos, (a :: checkpoints es).Pairwise (· ≤ ·) := fun a ha =>
        List.pairwise_cons.mpr ⟨fun b hb => ha.trans (hall b hb), hsorted⟩
      cases hc : ev.checkpoint pos with
      | none => exact hweak start (by omega)
      | some c =>
        have hcase := checkpoint_cases hc
        refine List.pairwise_cons.mpr ⟨?_, hweak c (by omega)⟩
        rw [Option.toList_some, List.singleton_append, List.forall_mem_cons]
        exact ⟨by omega, fun b hb => by have := hall b hb; omega⟩

theorem InOrder.le_of_mem {es : List (ℕ × LogEvent)} {e : ℕ × LogEvent} (he : e ∈ es) :
    ∀ {start : ℕ}, InOrder start es → start ≤ e.1 := by
  induction es with
  | nil => cases he
  | cons d es ih =>
    rintro start ⟨hd, hrest⟩
    rcases List.mem_cons.mp he with rfl | he
    · exact hd
    · split_ifs at hrest
      · exact hd.trans (ih he hrest)
      · have := ih he hrest.2
        omega

/-- The events up to a point do not reach behind it, and the others begin behind it. -/
theorem InOrder.append {es fs : List (ℕ × LogEvent)} : ∀ {start : ℕ}, InOrder start (es ++ fs) →
    ∃ mid, InOrder mid fs ∧ start ≤ mid ∧ ∀ c ∈ checkpoints es, c ≤ mid := by
  induction es with
  | nil => exact fun {start} h => ⟨start, h, le_rfl, by simp [checkpoints]⟩
  | cons e es ih =>
    obtain ⟨pos, ev⟩ := e
    rintro start ⟨hpos, h⟩
    rw [checkpoints_cons]
    by_cases hfd : ev.isFormatDescription = true
    · rw [if_pos hfd] at h
      obtain ⟨mid, hmid, hle, hall⟩ := ih h
      rw [checkpoint_formatDescription hfd]
      exact ⟨mid, hmid, hpos.trans hle, hall⟩
    · rw [if_neg hfd] at h
      obtain ⟨mid, hmid, hle, hall⟩ := ih h.2
      have hlt := h.1
      refine ⟨mid, hmid, by omega, fun c hc => ?_⟩
      rcases List.mem_append.mp hc with hc | hc
      · have hcase : c = pos ∨ c = ev.logPos := checkpoint_cases (Option.mem_toList.mp hc)
        omega
      · exact hall c hc

/-- An event in front of a checkpoint is one of the events up to it. -/
theorem InOrder.mem_of_le {es fs : List (ℕ × LogEvent)} {start c : ℕ}
    (h : InOrder start (es ++ fs)) (hc : c ∈ start :: checkpoints es) {e : ℕ × LogEvent}
    (he : e ∈ es ++ fs) (hreal : e.1 < e.2.logPos) (hle : e.2.logPos ≤ c) : e ∈ es := by
  obtain ⟨mid, hmid, hstart, hall⟩ := h.append
  rcases List.mem_append.mp he with he | he
  · exact he
  · have hbehind := hmid.le_of_mem he
    have hcm : c ≤ mid := by
      rcases List.mem_cons.mp hc with rfl | hc
      · exact hstart
      · exact hall c hc
    omega

end InOrder

/-- The positions of a file, where the first file of a pass is not restarted at its header. -/
def FileRead.positions (first : Text) (f : FileRead) (es : List (ℕ × LogEvent)) :
    List BinLogSequence :=
  (if f.szBinLogName ≠ first then [⟨f.szBinLogName, binLogHeaderSize, 0⟩] else []) ++
    (checkpoints es).map fun pos => ⟨f.szBinLogName, clip pos, 0⟩

section Positions
variable (first : Text)

theorem targets_eventActions (name : Text) (es : List (ℕ × LogEvent)) :
    targets first name (eventActions es) = (checkpoints es).map (fun pos => ⟨name, clip pos, 0⟩) ∧
      nameAfter name (eventActions es) = name := by
  induction es with
  | nil => exact ⟨rfl, rfl⟩
  | cons e es ih =>
    have hev : targets first name (e.2.actions e.1) =
        (e.2.checkpoint e.1).toList.map (fun pos => ⟨name, clip pos, 0⟩) ∧
          nameAfter name (e.2.actions e.1) = name := by
      unfold LogEvent.actions LogEvent.checkpoint
      cases e.2.data <;> exact ⟨rfl, rfl⟩
    rw [eventActions, List.flatMap_cons, targets_append, nameAfter_append, hev.1, hev.2,
      checkpoints_cons, List.map_append]
    exact ⟨congrArg _ ih.1, ih.2⟩

theorem targets_upTo (f : FileRead) (name : Text) (es : List (ℕ × LogEvent)) :
    targets first name (.startBinlog f.szBinLogName :: eventActions es) = f.positions first es ∧
      nameAfter name (.startBinlog f.szBinLogName :: eventActions es) = f.szBinLogName := by
  obtain ⟨ht, hn⟩ := targets_eventActions first f.szBinLogName es
  exact ⟨by rw [targets, Action.szBinLogName, ht]; rfl, hn⟩

theorem targets_file (f : FileRead) (name : Text) :
    targets first name f.actions = f.positions first f.events ∧
      nameAfter name f.actions = f.szBinLogName := by
  obtain ⟨ht, hn⟩ := targets_upTo first f name f.events
  rw [FileRead.actions, ← List.cons_append, targets_append, nameAfter_append, ht, hn]
  exact ⟨List.append_nil _, rfl⟩

theorem targets_files (files : List FileRead) (name : Text) :
    targets first name (files.flatMap FileRead.actions) =
      files.flatMap fun f => f.positions first f.events := by
  induction files generalizing name with
  | nil => rfl
  | cons f files ih =>
    rw [List.flatMap_cons, List.flatMap_cons, targets_append, ih, (targets_file first f name).1]

end Positions

/-- Where the reading of a file of the pass begins. -/
def Pass.start (p : Pass) (f : FileRead) : ℕ :=
  if f.szBinLogName = p.first.szBinLogName then p.ulPosition else binLogHeaderSize

/-- The files are different and shorter than 2^31 bytes, and their events are in order, as they are
in what the server sends (`reply_inOrder`). -/
structure Pass.Ordered (p : Pass) : Prop where
  names : (p.files.map FileRead.szBinLogName).Nodup
  events : ∀ f ∈ p.files, InOrder (p.start f) f.events
  short : ∀ f ∈ p.files, ∀ e ∈ f.events, e.1 < 2 ^ 31 ∧ e.2.logPos < 2 ^ 31

/-- Where the listener stands in a file, one after the other. -/
def Pass.stops (p : Pass) (f : FileRead) (es : List (ℕ × LogEvent)) : List BinLogSequence :=
  (p.start f :: checkpoints es).map fun pos => ⟨f.szBinLogName, pos, 0⟩

/-- What `ReadJournal` has stored when the text of the pass is read. -/
structure Pass.Begins (p : Pass) (g : Shared) : Prop where
  first : g.stBinLogInfoFirst.szBinLogName = p.first.szBinLogName
  inProgess : g.stBinLogSeqInProgess = ⟨p.first.szBinLogName, p.ulPosition, 0⟩

/-- A place in the file where its reading or an event begins, or an event ends. -/
def Pass.Boundary (p : Pass) (q : BinLogSequence) : Prop :=
  ∃ f ∈ p.files, q.szBinLogName = f.szBinLogName ∧
    (q.ulPosition = p.start f ∨ ∃ e ∈ f.events, q.ulPosition = e.1 ∨ q.ulPosition = e.2.logPos)

/-- `q'` does not stand in front of `q` in the binlog. -/
def Pass.Ascends (p : Pass) (q q' : BinLogSequence) : Prop :=
  let names := p.files.map FileRead.szBinLogName
  names.idxOf q.szBinLogName < names.idxOf q'.szBinLogName ∨
    q.szBinLogName = q'.szBinLogName ∧ q.ulPosition ≤ q'.ulPosition

section Stops
variable {p : Pass} {f : FileRead}

theorem map_clip {es : List (ℕ × LogEvent)}
    (h : ∀ e ∈ es, e.1 < 2 ^ 31 ∧ e.2.logPos < 2 ^ 31) (name : Text) :
    ((checkpoints es).map fun pos => (⟨name, clip pos, 0⟩ : BinLogSequence)) =
      (checkpoints es).map fun pos => ⟨name, pos, 0⟩ := by
  apply List.map_congr_left
  intro c hc
  obtain ⟨e, he, hce⟩ := mem_checkpoints.mp hc
  obtain ⟨hpos, hlog⟩ := h e he
  have hlt : c < 2 ^ 31 := by
    rcases checkpoint_cases hce with rfl | rfl
    · exact hpos
    · exact hlog
  rw [clip_of_lt hlt]

theorem stops_first {es : List (ℕ × LogEvent)}
    (h : ∀ e ∈ es, e.1 < 2 ^ 31 ∧ e.2.logPos < 2 ^ 31)
    (hname : f.szBinLogName = p.first.szBinLogName) :
    p.stops f es = ⟨p.first.szBinLogName, p.ulPosition, 0⟩ ::
      f.positions p.first.szBinLogName es := by
  rw [Pass.stops, Pass.start, if_pos hname, FileRead.positions, if_neg (not_not_intro hname),
    map_clip h, List.map_cons, hname]
  rfl

theorem stops_later {es : List (ℕ × LogEvent)}
    (h : ∀ e ∈ es, e.1 < 2 ^ 31 ∧ e.2.logPos < 2 ^ 31)
    (hname : f.szBinLogName ≠ p.first.szBinLogName) :
    p.stops f es = f.positions p.first.szBinLogName es := by
  rw [Pass.stops, Pass.start, if_neg hname, FileRead.positions, if_pos hname, map_clip h]
  rfl

/-- Where the listener stands up to some events of a file, one after the other. -/
def Pass.stopsUpTo (p : Pass) (before : List FileRead) (f : FileRead)
    (es : List (ℕ × LogEvent)) : List BinLogSequence :=
  before.flatMap (fun f => p.stops f f.events) ++ p.stops f es

theorem targets_stopsUpTo (h : p.Ordered) {before after : List FileRead}
    (hfiles : p.files = before ++ f :: after) {es : List (ℕ × LogEvent)} (hes : es <+: f.events)
    (name : Text) :
    p.stopsUpTo before f es = ⟨p.first.szBinLogName, p.ulPosition, 0⟩ ::
      targets p.first.szBinLogName name (.firstBinlog p.first.szBinLogName ::
        (before.flatMap FileRead.actions ++ (.startBinlog f.szBinLogName :: eventActions es))) := by
  have hshort : ∀ e ∈ es, e.1 < 2 ^ 31 ∧ e.2.logPos < 2 ^ 31 := fun e he =>
    h.short f (hfiles ▸ List.mem_append_right _ List.mem_cons_self) e (hes.subset he)
  have hlater : ∀ g ∈ p.more, g.szBinLogName ≠ p.first.szBinLogName := by
    intro g hg heq
    have hn := h.names
    rw [Pass.files, List.map_cons, List.nodup_cons] at hn
    exact hn.1 (heq ▸ List.mem_map_of_mem hg)
  rw [targets, targets_append, targets_files, (targets_upTo _ _ _ _).1, Pass.stopsUpTo]
  cases before with
  | nil =>
    have hf : f = p.first := (List.cons.inj hfiles).1.symm
    rw [stops_first hshort (congrArg _ hf)]
    rfl
  | cons g before =>
    obtain ⟨rfl, hmore⟩ : p.first = g ∧ p.more = before ++ f :: after := List.cons.inj hfiles
    have hrest : before.flatMap (fun f => p.stops f f.events) =
        before.flatMap fun f => f.positions p.first.szBinLogName f.events := by
      rw [List.flatMap_def, List.flatMap_def]
      congr 1
      apply List.map_congr_left
      intro g hg
      have hgm : g ∈ p.more := hmore ▸ List.mem_append_left _ hg
      exact stops_later (h.short g (List.mem_cons_of_mem _ hgm)) (hlater g hgm)
    have hfm : f ∈ p.more := hmore ▸ List.mem_append_right _ List.mem_cons_self
    rw [List.flatMap_cons, List.flatMap_cons, hrest, stops_later hshort (hlater f hfm),
      stops_first (h.short p.first List.mem_cons_self) rfl]
    rfl

theorem mem_stops {es : List (ℕ × LogEvent)} (hes : es <+: f.events) {q : BinLogSequence}
    (hq : q ∈ p.stops f es) : q.szBinLogName = f.szBinLogName ∧
      (q.ulPosition = p.start f ∨
        ∃ e ∈ f.events, q.ulPosition = e.1 ∨ q.ulPosition = e.2.logPos) := by
  obtain ⟨c, hc, rfl⟩ := List.mem_map.mp hq
  rcases List.mem_cons.mp hc with rfl | hc
  · exact ⟨rfl, .inl rfl⟩
  · obtain ⟨e, he, hce⟩ := mem_checkpoints.mp hc
    exact ⟨rfl, .inr ⟨e, hes.subset he, checkpoint_cases hce⟩⟩

theorem boundary_of_mem {before after : List FileRead} (hfiles : p.files = before ++ f :: after)
    {es : List (ℕ × LogEvent)} (hes : es <+: f.events) {q : BinLogSequence}
    (hq : q ∈ p.stopsUpTo before f es) : p.Boundary q := by
  rcases List.mem_append.mp hq with hq | hq
  · obtain ⟨g, hg, hq⟩ := List.mem_flatMap.mp hq
    exact ⟨g, hfiles ▸ List.mem_append_left _ hg, mem_stops List.prefix_rfl hq⟩
  · exact ⟨f, hfiles ▸ List.mem_append_right _ List.mem_cons_self, mem_stops hes hq⟩

theorem nodup_pairwise_idxOf {names : List Text} (h : names.Nodup) :
    names.Pairwise fun a b => names.idxOf a < names.idxOf b := by
  rw [List.pairwise_iff_getElem]
  intro i j hi hj hij
  rwa [h.idxOf_getElem i hi, h.idxOf_getElem j hj]

theorem stops_ascend (h : p.Ordered) (hf : f ∈ p.files) {es : List (ℕ × LogEvent)}
    (hes : es <+: f.events) : (p.stops f es).Pairwise p.Ascends := by
  rw [Pass.stops, List.pairwise_map]
  exact ((h.events f hf).of_isPrefix hes).checkpoints_sorted.imp fun hle => .inr ⟨rfl, hle⟩

/-- The positions ascend through the files. -/
theorem stopsUpTo_ascend (h : p.Ordered) {before after : List FileRead}
    (hfiles : p.files = before ++ f :: after) {es : List (ℕ × LogEvent)} (hes : es <+: f.events) :
    (p.stopsUpTo before f es).Pairwise p.Ascends := by
  have horder := nodup_pairwise_idxOf h.names
  rw [List.pairwise_map] at horder
  have hsub : List.Sublist (before ++ [f]) p.files := by
    rw [hfiles]
    exact (List.singleton_sublist.mpr List.mem_cons_self).append_left before
  have hcross := horder.sublist hsub
  rw [List.pairwise_append] at hcross
  obtain ⟨hbefore, -, hlast⟩ := hcross
  have hmem : ∀ g ∈ before, g ∈ p.files := fun g hg => hfiles ▸ List.mem_append_left _ hg
  rw [Pass.stopsUpTo, List.pairwise_append, List.pairwise_flatMap]
  refine ⟨⟨fun g hg => stops_ascend h (hmem g hg) List.prefix_rfl, ?_⟩,
    stops_ascend h (hfiles ▸ List.mem_append_right _ List.mem_cons_self) hes, ?_⟩
  · refine hbefore.imp fun hlt q hq q' hq' => .inl ?_
    rwa [(mem_stops List.prefix_rfl hq).1, (mem_stops List.prefix_rfl hq').1]
  · intro q hq q' hq'
    obtain ⟨g, hg, hq⟩ := List.mem_flatMap.mp hq
    refine .inl ?_
    rw [(mem_stops List.prefix_rfl hq).1, (mem_stops hes hq').1]
    exact hlast g hg f List.mem_cons_self

/-- A run over a beginning of the pass: the position moves through the stops of the files, and
only stops are saved or published. -/
theorem listen_upTo {env : Env} (henv : 2 * iLenBufferOut ≤ env.iMaxBufferLine) {fuel : ℕ}
    (hfuel : iLenBufferOut < fuel) (h : p.Ordered) (hplain : p.Plain) {core : Listener}
    (hbegins : p.Begins core.shared) {before after : List FileRead}
    (hfiles : p.files = before ++ f :: after) {es : List (ℕ × LogEvent)} (hes : es <+: f.events)
    {chunks : List Text} (hcut : Cutting (p.upTo before f es) chunks)
    (hshort : ShortLines env (p.upTo before f es)) (mem : Text) :
    ∃ s qs, listen env fuel (.start core mem) chunks = .ok s ∧
      p.stopsUpTo before f es = core.shared.stBinLogSeqInProgess :: qs ∧
      Drives core.shared qs s.core.shared := by
  have hrun := listen_decode henv hfuel core mem hshort hcut
  obtain ⟨out, hout, -, hdrives⟩ :=
    decode_linesTell (upTo_tells hplain hfiles hes).lines (core.loc, core.shared)
  rw [decode, hout] at hrun
  obtain ⟨s, hs, hsame⟩ := map_eq_ok_iff.mp hrun
  have hout : s.core.shared = out.2 := congrArg Prod.snd hsame
  dsimp only at hdrives
  rw [← hout, hbegins.first] at hdrives
  refine ⟨s, _, hs, ?_, hdrives⟩
  rw [hbegins.inProgess]
  exact targets_stopsUpTo h hfiles hes core.loc.szBinLogName

end Stops

/-- On what the pipe delivers of the text of the pass up to any of its events, in any reads, the
listener stands at the checkpoint of the events, and it has saved boundaries in the order of the
binlog. -/
def Pass.Agrees (env : Env) (p : Pass) : Prop :=
  ∀ (before after : List FileRead) (f : FileRead) (es : List (ℕ × LogEvent)),
    p.files = before ++ f :: after → es <+: f.events →
    ∀ (core : Listener) (mem : Text) (fuel : ℕ) (chunks : List Text), p.Begins core.shared →
      iLenBufferOut < fuel → Cutting (piped (p.upTo before f es)) chunks →
      ShortLines env (p.upTo before f es) →
      ∃ s, listen env fuel (.start core mem) chunks = .ok s ∧
        s.core.shared.stBinLogSeqInProgess =
          ⟨f.szBinLogName, checkpointAfter (p.start f) es, 0⟩ ∧
        ∃ saved, s.core.shared.xai = core.shared.xai ++ saved ∧
          (∀ q ∈ saved, p.Boundary q) ∧ saved.Pairwise p.Ascends

theorem getLast?_stops {p : Pass} {f : FileRead} (es : List (ℕ × LogEvent)) :
    (p.stops f es).getLast? = some ⟨f.szBinLogName, checkpointAfter (p.start f) es, 0⟩ := by
  rw [Pass.stops, List.getLast?_map, List.getLast?_cons]
  rfl

/-- The text of a `QUERY` event. -/
def LogEvent.statement (ev : LogEvent) : Option Text :=
  match ev.data with
  | .query _ _ _ query => some query
  | _ => none

def Pass.SingleLine (p : Pass) : Prop :=
  ∀ f ∈ p.files, ∀ e ∈ f.events, ∀ query ∈ e.2.statement, '\n' ∉ query

def firstName : Text := "bin.000001".toList

/-- A pass over one file from its header on. -/
def onePass (events : List (ℕ × LogEvent)) : Pass where
  ulIndex := 1
  date := someDate
  date' := someDate
  ulPosition := binLogHeaderSize
  first := ⟨firstName, none, events, false⟩
  more := []

/-- The listener at the beginning of such a pass. -/
def passListener : Listener :=
  { Listener.initial .default with
    shared := { Shared.initial with
      stBinLogSeq := ⟨firstName, binLogHeaderSize, 0⟩
      stBinLogSeqInProgess := ⟨firstName, binLogHeaderSize, 0⟩
      stBinLogInfoFirst := ⟨firstName, binLogHeaderSize⟩ } }

theorem begins_onePass (events : List (ℕ × LogEvent)) :
    (onePass events).Begins passListener.shared := ⟨rfl, rfl⟩

theorem ordered_onePass {events : List (ℕ × LogEvent)} (h : InOrder binLogHeaderSize events)
    (hshort : ∀ e ∈ events, e.1 < 2 ^ 31 ∧ e.2.logPos < 2 ^ 31) : (onePass events).Ordered := by
  constructor
  · exact List.pairwise_singleton _ _
  · exact List.forall_mem_singleton.mpr h
  · exact List.forall_mem_singleton.mpr hshort

theorem plain_onePass {events : List (ℕ × LogEvent)} (h : ∀ e ∈ events, e.2.TextPlain 1) :
    (onePass events).Plain := by
  constructor
  · intro f hf
    rw [List.mem_singleton.mp hf]
    exact (by decide : NamePrints firstName)
  · intro f hf
    rw [List.mem_singleton.mp hf]
    exact h

/-- A `GTID` event, a statement and the end of the transaction. -/
def transaction : List (ℕ × LogEvent) :=
  [(4, ⟨0, 46, false, defaultHeader,
      .gtid 1 ⟨"0-1-1".toList, newline_not_mem_gtidSummary⟩ [] false⟩),
    (46, ⟨0, 120, false, defaultHeader,
      .query ⟨"\tQuery".toList, newline_not_mem_querySummary⟩ none []
      "insert into t values (1)".toList⟩),
    (120, ⟨0, 151, false, defaultHeader, .xid 7⟩)]

theorem one_lt_length_transaction : 1 < transaction.length := by decide

theorem textPlain_transaction : ∀ e ∈ transaction, e.2.TextPlain 1 := by
  simp only [transaction, List.forall_mem_cons]
  exact ⟨trivial, ⟨by simp, by decide, by decide⟩, trivial, by simp⟩

theorem inOrder_transaction : InOrder binLogHeaderSize transaction :=
  ⟨by decide, by decide, by decide, by decide, by decide, by decide, trivial⟩

theorem ordered_transaction : (onePass transaction).Ordered :=
  ordered_onePass inOrder_transaction (by decide)

theorem shortLines_of_length {env : Env} {t : Text}
    (h : t.length + 2 * iLenBufferOut ≤ env.iMaxBufferLine) : ShortLines env t := by
  intro u hu
  have hrest := congrArg List.length (unlines_split '\n' [] u)
  have hle := hu.length_le
  rw [List.length_append, List.nil_append] at hrest
  omega

/-- An insert into the table `x`, with a line break and the marker of a `COMMIT` behind its `x`. -/
def forgingTable : LogEvent where
  when := 0
  logPos := 60
  skipReplication := false
  header := defaultHeader
  data := .tableMap 1 "d".toList "x\n*!COMMIT!4!9999!1!1!*".toList false

/-- The text of the pass up to the event. -/
def forgedText : Text :=
  (onePass [(4, forgingTable)]).upTo [] (onePass [(4, forgingTable)]).first [(4, forgingTable)]

theorem decode_forgedText : (decode (passListener.loc, passListener.shared) forgedText).map
    (fun s => s.2.stBinLogSeqInProgess) = .ok ⟨firstName, 9999, 0⟩ := by
  decide +kernel

end BinlogCapture
