import BinlogCapture.PipeLines
import Mathlib.Data.List.Nodup

/-! Places in the binlogs of the server, their order, and which events between two places have had
their marker printed; the server only appends, and that changes none of this. -/
namespace BinlogCapture
open CString Fallible LineFeed Runs Histories

def BinLogSequence.place (q : BinLogSequence) : BinLogInfo := ⟨q.szBinLogName, q.ulPosition⟩

/-- `p` is not behind `p'`, which is a place in one of the binlogs. -/
def AtOrBefore (names : List Text) (p p' : BinLogInfo) : Prop :=
  p'.szBinLogName ∈ names ∧
    (names.idxOf p.szBinLogName < names.idxOf p'.szBinLogName ∨
      p.szBinLogName = p'.szBinLogName ∧ p.ulPosition ≤ p'.ulPosition)

instance (names : List Text) (p p' : BinLogInfo) : Decidable (AtOrBefore names p p') :=
  inferInstanceAs (Decidable (_ ∧ _))

section Order
variable {names : List Text} {p p' p'' : BinLogInfo}

theorem AtOrBefore.trans (h : AtOrBefore names p p') (h' : AtOrBefore names p' p'') :
    AtOrBefore names p p'' := by
  obtain ⟨-, h⟩ := h
  obtain ⟨hmem, h'⟩ := h'
  refine ⟨hmem, ?_⟩
  rcases h with h | ⟨hn, h⟩
  · rcases h' with h' | ⟨hn', -⟩
    · exact .inl (h.trans h')
    · exact .inl (hn' ▸ h)
  · rcases h' with h' | ⟨hn', h'⟩
    · exact .inl (hn ▸ h')
    · exact .inr ⟨hn.trans hn', h.trans h'⟩

/-- In one file the offsets decide. -/
theorem AtOrBefore.le (h : AtOrBefore names p p') (hname : p.szBinLogName = p'.szBinLogName) :
    p.ulPosition ≤ p'.ulPosition := by
  rcases h.2 with h | ⟨-, h⟩
  · rw [hname] at h
    omega
  · exact h

theorem AtOrBefore.mem (h : AtOrBefore names p p') : p.szBinLogName ∈ names := by
  rcases h.2 with hlt | ⟨hname, -⟩
  · exact List.idxOf_lt_length_iff.mp (hlt.trans (List.idxOf_lt_length_of_mem h.1))
  · exact hname ▸ h.1

/-- Further binlogs do not change the order of places in those that are there. -/
theorem atOrBefore_grow {names' : List Text} (hnames : names <+: names')
    (hmem : p'.szBinLogName ∈ names) : AtOrBefore names' p p' ↔ AtOrBefore names p p' := by
  obtain ⟨more, rfl⟩ := hnames
  have hidx : ∀ n ∈ names, (names ++ more).idxOf n = names.idxOf n := fun n hn =>
    List.idxOf_append_of_mem hn
  have hlt := List.idxOf_lt_length_of_mem hmem
  unfold AtOrBefore
  rw [hidx _ hmem]
  constructor
  · rintro ⟨-, h⟩
    refine ⟨hmem, h.imp_left fun h => ?_⟩
    by_cases hp : p.szBinLogName ∈ names
    · rwa [hidx _ hp] at h
    · rw [List.idxOf_append_of_notMem hp] at h
      omega
  · rintro ⟨-, h⟩
    refine ⟨List.mem_append_left _ hmem, h.imp_left fun h => ?_⟩
    by_cases hp : p.szBinLogName ∈ names
    · rwa [hidx _ hp]
    · rw [List.idxOf_eq_length hp] at h
      omega

/-- Every place in a file is in front of those in the next one. -/
theorem atOrBefore_next (hnodup : names.Nodup) {before after : List Text} {name name' : Text}
    (hnames : names = before ++ name :: name' :: after) (pos pos' : ℕ) :
    AtOrBefore names ⟨name, pos⟩ ⟨name', pos'⟩ := by
  subst hnames
  have hdisjoint := List.disjoint_of_nodup_append hnodup
  have hcons := List.nodup_cons.mp (List.nodup_append.mp hnodup).2.1
  have hname : name ∉ before := fun hb => hdisjoint hb List.mem_cons_self
  have hname' : name' ∉ before := fun hb =>
    hdisjoint hb (List.mem_cons_of_mem _ List.mem_cons_self)
  have hne : name ≠ name' := fun heq => hcons.1 (heq ▸ List.mem_cons_self)
  constructor
  · exact List.mem_append_right _ (List.mem_cons_of_mem _ List.mem_cons_self)
  · dsimp only
    rw [List.idxOf_append_of_notMem hname, List.idxOf_append_of_notMem hname',
      List.idxOf_cons_self, List.idxOf_cons_ne _ hne]
    exact .inl (by omega)

end Order

section Events
variable {f : BinlogFile} {e e' : ℕ × LogEvent}

theorem start_lt_end {pos : ℕ} {es : Stored} (h : Contiguous pos es) (he : e ∈ offsets pos es) :
    pos ≤ e.1 ∧ e.1 < e.2.logPos ∧ e.2.logPos ≤ endOffset pos es := by
  induction es generalizing pos with
  | nil => cases he
  | cons d es ih =>
    obtain ⟨hsize, hend, -, h⟩ := h
    rw [endOffset_cons]
    rw [offsets, List.mem_cons] at he
    rcases he with rfl | he
    · have hle : pos + d.2 ≤ endOffset (pos + d.2) es := Nat.le_add_right _ _
      refine ⟨le_rfl, ?_, ?_⟩ <;> dsimp only <;> omega
    · obtain ⟨h₁, h₂, h₃⟩ := ih h he
      exact ⟨by omega, h₂, h₃⟩

/-- Events of a file do not overlap. -/
theorem disjoint_offsets {pos : ℕ} {es : Stored} (h : Contiguous pos es)
    (he : e ∈ offsets pos es) (he' : e' ∈ offsets pos es) :
    e = e' ∨ e.2.logPos ≤ e'.1 ∨ e'.2.logPos ≤ e.1 := by
  induction es generalizing pos with
  | nil => cases he
  | cons d es ih =>
    obtain ⟨hsize, hend, -, h⟩ := h
    rw [offsets, List.mem_cons] at he he'
    have hrest : ∀ e ∈ offsets (pos + d.2) es, d.1.logPos ≤ e.1 := fun e he => by
      have := (start_lt_end h he).1
      omega
    rcases he with rfl | he
    · rcases he' with rfl | he'
      · exact .inl rfl
      · exact .inr (.inl (hrest _ he'))
    · rcases he' with rfl | he'
      · exact .inr (.inr (hrest _ he))
      · exact ih h he he'

theorem BinlogFile.event_bounds (f : BinlogFile) (he : e ∈ f.eventsAt) :
    binLogHeaderSize ≤ e.1 ∧ e.1 < e.2.logPos ∧ e.2.logPos ≤ f.size :=
  start_lt_end f.contiguous he

theorem BinlogFile.events_disjoint (f : BinlogFile) (he : e ∈ f.eventsAt) (he' : e' ∈ f.eventsAt) :
    e = e' ∨ e.2.logPos ≤ e'.1 ∨ e'.2.logPos ≤ e.1 :=
  disjoint_offsets f.contiguous he he'

theorem BinlogFile.header_le_size (f : BinlogFile) : binLogHeaderSize ≤ f.size :=
  Nat.le_add_right _ _

end Events

/-- The place is in a binlog, up to its end. -/
def Within (files : List BinlogFile) (p : BinLogInfo) : Prop :=
  ∃ f ∈ files, f.name = p.szBinLogName ∧ p.ulPosition ≤ f.size

/-- Every event with a marker that begins at or behind `origin` and ends at or before `p` has had
its marker among the lines. -/
def Covers (files : List BinlogFile) (origin : BinLogInfo) (lines : List PrintedLine)
    (p : BinLogInfo) : Prop :=
  ∀ f ∈ files, ∀ e ∈ f.eventsAt, (e.2.marker e.1 0).isSome = true →
    AtOrBefore (files.map BinlogFile.name) origin ⟨f.name, e.1⟩ →
    AtOrBefore (files.map BinlogFile.name) ⟨f.name, e.2.logPos⟩ p →
    ∃ x ∈ lines, x.IsMarker f.name e

section Covers
variable {files : List BinlogFile} {origin p p' : BinLogInfo} {lines lines' : List PrintedLine}

theorem Covers.mono (h : Covers files origin lines p) (hsub : lines ⊆ lines') :
    Covers files origin lines' p := by
  intro f hf e he hm ho hp
  obtain ⟨x, hx, hmarker⟩ := h f hf e he hm ho hp
  exact ⟨x, hsub hx, hmarker⟩

theorem Covers.of_before (h : Covers files origin lines p')
    (hle : AtOrBefore (files.map BinlogFile.name) p p') : Covers files origin lines p :=
  fun f hf e he hm ho hp => h f hf e he hm ho (hp.trans hle)

/-- Nothing begins behind the origin and ends in front of it. -/
theorem covers_origin (files : List BinlogFile) (origin : BinLogInfo)
    (lines : List PrintedLine) : Covers files origin lines origin := by
  intro f hf e he hm ho hp
  obtain ⟨-, hlt, -⟩ := f.event_bounds he
  rcases ho.2 with hidx | ⟨hname, -⟩
  · rcases hp.2 with hidx' | ⟨hname', -⟩
    · dsimp only at hidx hidx'
      omega
    · dsimp only at hidx hname'
      rw [hname'] at hidx
      omega
  · have hstart := ho.le hname
    have hend := hp.le hname.symm
    dsimp only at hstart hend
    omega

theorem covers_of_not_mem (hp : p.szBinLogName ∉ files.map BinlogFile.name) :
    Covers files origin lines p := fun _ _ _ _ _ _ hle => absurd hle.1 hp

theorem Within.mem (h : Within files p) : p.szBinLogName ∈ files.map BinlogFile.name := by
  obtain ⟨f, hf, hname, -⟩ := h
  exact hname ▸ List.mem_map_of_mem hf

theorem eq_of_name (h : (files.map BinlogFile.name).Nodup) {f g : BinlogFile} (hf : f ∈ files)
    (hg : g ∈ files) (hname : f.name = g.name) : f = g :=
  List.inj_on_of_nodup_map h hf hg hname

/-- No event ends in front of the header of a file that does not end in the file before it. -/
theorem Covers.header (h : Covers files origin lines p)
    (hmem : p.szBinLogName ∈ files.map BinlogFile.name) :
    Covers files origin lines ⟨p.szBinLogName, binLogHeaderSize⟩ := by
  intro f hf e he hm ho hp
  obtain ⟨hstart, hlt, -⟩ := f.event_bounds he
  rcases hp.2 with hidx | ⟨hname, hle⟩
  · exact h f hf e he hm ho ⟨hmem, .inl hidx⟩
  · dsimp only at hle
    omega

/-- An event that is printed at the place where the reading stands takes it to its end. -/
theorem Covers.event (h : Covers files origin lines ⟨p.szBinLogName, p.ulPosition⟩)
    (hnodup : (files.map BinlogFile.name).Nodup) {f : BinlogFile} (hf : f ∈ files)
    {e : ℕ × LogEvent} (he : e ∈ f.eventsAt) (hp : p = ⟨f.name, e.1⟩) (hsub : lines ⊆ lines')
    (hmarker : (e.2.marker e.1 0).isSome = true → ∃ x ∈ lines', x.IsMarker f.name e) :
    Covers files origin lines' ⟨f.name, e.2.logPos⟩ := by
  subst hp
  intro g hg d hd hm ho hle
  rcases hle.2 with hidx | ⟨hname, hend⟩
  · exact (h.mono hsub) g hg d hd hm ho ⟨hle.1, .inl hidx⟩
  · obtain rfl := eq_of_name hnodup hg hf hname
    dsimp only at hend
    rcases g.events_disjoint hd he with rfl | hdis | hdis
    · exact hmarker hm
    · exact (h.mono hsub) g hg d hd hm ho ⟨hle.1, .inr ⟨rfl, hdis⟩⟩
    · have := (g.event_bounds hd).2.1
      omega

/-- Behind the last event of a file stands the header of the next. -/
theorem Covers.next {f : BinlogFile} (h : Covers files origin lines ⟨f.name, f.size⟩)
    (hnodup : (files.map BinlogFile.name).Nodup) (hf : f ∈ files) {before after : List Text}
    {name : Text} (hnames : files.map BinlogFile.name = before ++ f.name :: name :: after) :
    Covers files origin lines ⟨name, binLogHeaderSize⟩ := by
  intro g hg d hd hm ho hle
  obtain ⟨hstart, hlt, hend⟩ := g.event_bounds hd
  rcases hle.2 with hidx | ⟨hname, hle'⟩
  · apply h g hg d hd hm ho
    have hmem := List.mem_map_of_mem (f := BinlogFile.name) hf
    refine ⟨hmem, ?_⟩
    have hgmem := List.mem_map_of_mem (f := BinlogFile.name) hg
    have hn := hnodup
    rw [hnames] at hn hidx hgmem ⊢
    have hfb : f.name ∉ before := fun hb =>
      (List.disjoint_of_nodup_append hn) hb List.mem_cons_self
    have hnb : name ∉ before := fun hb =>
      (List.disjoint_of_nodup_append hn) hb (List.mem_cons_of_mem _ List.mem_cons_self)
    have hne : f.name ≠ name := fun heq => by
      have hcons := (List.nodup_append.mp hn).2.1
      rw [List.nodup_cons] at hcons
      exact hcons.1 (heq ▸ List.mem_cons_self)
    dsimp only at hidx ⊢
    rw [List.idxOf_append_of_notMem hnb, List.idxOf_cons_ne _ hne, List.idxOf_cons_self] at hidx
    rw [List.idxOf_append_of_notMem hfb, List.idxOf_cons_self]
    by_cases hgb : g.name ∈ before
    · rw [List.idxOf_append_of_mem hgb]
      exact .inl (by have := List.idxOf_lt_length_of_mem hgb; omega)
    · rw [List.idxOf_append_of_notMem hgb] at hidx
      by_cases hgf : g.name = f.name
      · obtain rfl := eq_of_name hnodup hg hf hgf
        exact .inr ⟨rfl, hend⟩
      · rw [List.idxOf_cons_ne _ (Ne.symm hgf)] at hidx
        omega
  · dsimp only at hle'
    omega

end Covers

/-- The binlogs behind the current one, in the order of the server. -/
def ListedBehind (files : List BinlogFile) (name : Text) (more : List Text) : Prop :=
  ∃ before after, files.map BinlogFile.name = before ++ name :: (more ++ after)

section Listed
variable {files files' : List BinlogFile} {name : Text} {more : List Text}

theorem ListedBehind.mem (h : ListedBehind files name more) :
    name ∈ files.map BinlogFile.name := by
  obtain ⟨before, after, hnames⟩ := h
  rw [hnames]
  exact List.mem_append_right _ List.mem_cons_self

theorem ListedBehind.grow (h : ListedBehind files name more)
    (hnames : files.map BinlogFile.name <+: files'.map BinlogFile.name) :
    ListedBehind files' name more := by
  obtain ⟨before, after, hold⟩ := h
  obtain ⟨new, hnew⟩ := hnames
  refine ⟨before, after ++ new, ?_⟩
  rw [← hnew, hold, List.append_assoc, List.cons_append, List.append_assoc]

/-- The next binlog of the list is behind the current one. -/
theorem ListedBehind.next {name' : Text} (h : ListedBehind files name (name' :: more))
    (hnodup : (files.map BinlogFile.name).Nodup) : ListedBehind files name' more ∧
      ∀ pos pos', AtOrBefore (files.map BinlogFile.name) ⟨name, pos⟩ ⟨name', pos'⟩ := by
  obtain ⟨before, after, hnames⟩ := h
  refine ⟨⟨before ++ [name], after, ?_⟩, atOrBefore_next hnodup hnames⟩
  rw [hnames, List.append_assoc]
  rfl

/-- A name that is found in a list of the first binlogs. -/
theorem listedBehind_of_dropWhile {names : List Text} {found : Text}
    (hnames : names <+: files.map BinlogFile.name)
    (hdrop : names.dropWhile (· ≠ name) = found :: more) :
    found = name ∧ ListedBehind files name more := by
  have hfound : found = name := by
    have hnot := List.head_dropWhile_not (l := names) (· ≠ name)
      (by rw [hdrop]; exact List.cons_ne_nil _ _)
    simp only [hdrop, List.head_cons] at hnot
    simpa using hnot
  obtain ⟨before, hbefore⟩ := List.dropWhile_suffix (p := fun n => decide (n ≠ name)) (l := names)
  obtain ⟨after, hafter⟩ := hnames
  refine ⟨hfound, before, after, ?_⟩
  rw [hdrop, hfound] at hbefore
  rw [← hafter, ← hbefore, List.append_assoc, List.cons_append]

end Listed

/-- The server appends to its last binlog, or begins another one. -/
structure Grows (files files' : List BinlogFile) : Prop where
  names : files.map BinlogFile.name <+: files'.map BinlogFile.name
  old : ∀ f ∈ files, ∃ f' ∈ files', f'.name = f.name ∧ f.size ≤ f'.size
  /-- An event of a binlog that was there is not new, or it is at the end of the last one. -/
  events : ∀ f' ∈ files', ∀ e ∈ f'.eventsAt, f'.name ∈ files.map BinlogFile.name →
    ∃ f ∈ files, f.name = f'.name ∧ (e ∈ f.eventsAt ∨ f.size ≤ e.1 ∧ files.getLast? = some f)

theorem names_appendEvents {files : List BinlogFile} {f g : BinlogFile}
    (hlast : files.getLast? = some g) (hname : f.name = g.name) :
    (files.dropLast ++ [f]).map BinlogFile.name = files.map BinlogFile.name := by
  obtain ⟨init, rfl⟩ : ∃ init, files = init ++ [g] :=
    ⟨files.dropLast, (List.dropLast_append_getLast? g hlast).symm⟩
  rw [List.dropLast_concat, List.map_append, List.map_append, List.map_singleton,
    List.map_singleton, hname]

theorem nodup_appendFile {files : List BinlogFile} {f : BinlogFile}
    (hnodup : (files.map BinlogFile.name).Nodup) (hfresh : f.name ∉ files.map BinlogFile.name) :
    ((files ++ [f]).map BinlogFile.name).Nodup := by
  rw [List.map_append, List.map_singleton]
  refine List.nodup_append.mpr ⟨hnodup, List.nodup_singleton _, fun n hn n' hn' heq => ?_⟩
  rw [List.mem_singleton.mp hn'] at heq
  exact hfresh (heq ▸ hn)

theorem grows_appendEvents {files : List BinlogFile} {f g : BinlogFile}
    (hlast : files.getLast? = some g) (hname : f.name = g.name)
    (hdescription : f.description = g.description) (hevents : g.events <+: f.events)
    (hnodup : (files.map BinlogFile.name).Nodup) : Grows files (files.dropLast ++ [f]) := by
  obtain ⟨init, rfl⟩ : ∃ init, files = init ++ [g] :=
    ⟨files.dropLast, (List.dropLast_append_getLast? g hlast).symm⟩
  obtain ⟨more, hmore⟩ := hevents
  have hstored : f.stored = g.stored ++ more := by
    rw [BinlogFile.stored, BinlogFile.stored, hdescription, ← hmore, List.cons_append]
  have hsize : g.size ≤ f.size := by
    rw [BinlogFile.size, BinlogFile.size, hstored, endOffset_append]
    exact Nat.le_add_right _ _
  rw [List.dropLast_concat]
  constructor
  · have hnames : (init ++ [f]).map BinlogFile.name = (init ++ [g]).map BinlogFile.name := by
      rw [List.map_append, List.map_append, List.map_singleton, List.map_singleton, hname]
    exact ⟨[], by rw [hnames, List.append_nil]⟩
  · intro d hd
    rcases List.mem_append.mp hd with hd | hd
    · exact ⟨d, List.mem_append_left _ hd, rfl, le_rfl⟩
    · rw [List.mem_singleton.mp hd]
      exact ⟨f, List.mem_append_right _ (List.mem_singleton_self f), hname, hsize⟩
  · intro f' hf' e he _
    rcases List.mem_append.mp hf' with hf' | hf'
    · exact ⟨f', List.mem_append_left _ hf', rfl, .inl he⟩
    · rw [List.mem_singleton.mp hf'] at he ⊢
      refine ⟨g, List.mem_append_right _ (List.mem_singleton_self g), hname.symm, ?_⟩
      rw [BinlogFile.eventsAt, hstored, offsets_append, List.mem_append] at he
      refine he.imp_right fun he => ⟨lt_of_mem_offsets he, ?_⟩
      rw [List.getLast?_concat]

theorem grows_appendFile {files : List BinlogFile} {f : BinlogFile}
    (hfresh : f.name ∉ files.map BinlogFile.name) : Grows files (files ++ [f]) := by
  constructor
  · rw [List.map_append]
    exact List.prefix_append _ _
  · exact fun d hd => ⟨d, List.mem_append_left _ hd, rfl, le_rfl⟩
  · intro f' hf' e he hname
    rcases List.mem_append.mp hf' with hf' | hf'
    · exact ⟨f', hf', rfl, .inl he⟩
    · rw [List.mem_singleton.mp hf'] at hname
      exact absurd hname hfresh

section Grow
variable {files files' : List BinlogFile} {origin p : BinLogInfo} {lines : List PrintedLine}

theorem Within.grow (hgrows : Grows files files') (h : Within files p) : Within files' p := by
  obtain ⟨f, hf, hname, hpos⟩ := h
  obtain ⟨f', hf', hname', hsize⟩ := hgrows.old f hf
  exact ⟨f', hf', hname'.trans hname, hpos.trans hsize⟩

theorem Covers.grow (hgrows : Grows files files') (hnodup : (files.map BinlogFile.name).Nodup)
    (hp : Within files p) (h : Covers files origin lines p) : Covers files' origin lines p := by
  intro f' hf' e he hm ho hle
  rw [atOrBefore_grow hgrows.names hp.mem] at hle
  have hmem : f'.name ∈ files.map BinlogFile.name := hle.mem
  rw [atOrBefore_grow hgrows.names hmem] at ho
  obtain ⟨f, hf, hname, hev⟩ := hgrows.events f' hf' e he hmem
  rw [← hname] at ho hle ⊢
  rcases hev with hev | ⟨hsize, hlast⟩
  · exact h f hf e hev hm ho hle
  · -- an event behind the end of the last binlog ends behind every place in the binlogs
    exfalso
    have hstart := (f'.event_bounds he).2.1
    obtain ⟨g, hg, hgname, hgpos⟩ := hp
    rcases hle.2 with hidx | ⟨hn, hend⟩
    · obtain ⟨init, rfl⟩ : ∃ init, files = init ++ [f] :=
        ⟨files.dropLast, (List.dropLast_append_getLast? f hlast).symm⟩
      have hlt := List.idxOf_lt_length_of_mem hle.1
      rw [List.map_append, List.map_singleton] at hnodup hidx hlt
      have hfi : f.name ∉ init.map BinlogFile.name := fun hi =>
        (List.disjoint_of_nodup_append hnodup) hi (List.mem_singleton_self _)
      dsimp only at hidx
      rw [List.idxOf_append_of_notMem hfi, List.idxOf_cons_self] at hidx
      rw [List.length_append, List.length_singleton] at hlt
      omega
    · obtain rfl := eq_of_name hnodup hf hg (hn.trans hgname.symm)
      dsimp only at hend
      omega

end Grow

end BinlogCapture
