import BinlogCapture.Checkpoints
import Mathlib.Data.List.Nodup

/-! The positions that are saved while the listener reads any beginning of the text of a pass: with
failed reads among its files, and inside of transactions. -/
namespace BinlogCapture
open CString Fallible LineFeed Trail

/-- Where the listener stands over the whole pass, one after the other. -/
def Pass.allStops (p : Pass) : List BinLogSequence := p.files.flatMap fun f => p.stops f f.events

/-- The listener reads a text, in some reads, and goes from one state to another. -/
def Reads (env : Env) (t : Text) (core core' : Listener) : Prop :=
  ∃ (mem : Text) (fuel : ℕ) (chunks : List Text) (s : Buffered), iLenBufferOut < fuel ∧
    Cutting t chunks ∧ ShortLines env t ∧ listen env fuel (.start core mem) chunks = .ok s ∧
    s.core = core'

section Prefix
variable {p : Pass}

theorem targets_allStops (h : p.Ordered) (name : Text) :
    p.allStops = ⟨p.first.szBinLogName, p.ulPosition, 0⟩ ::
      targets p.first.szBinLogName name
        (.firstBinlog p.first.szBinLogName ::
          (p.files.flatMap FileRead.actions ++ [.lastBinlog])) := by
  have hsplit : p.files = p.files.dropLast ++ p.last :: [] :=
    (List.dropLast_append_getLast (List.cons_ne_nil _ _)).symm
  have hstops : p.allStops = p.stopsUpTo p.files.dropLast p.last p.last.events := by
    rw [Pass.allStops, Pass.stopsUpTo]
    conv_lhs => rw [hsplit]
    rw [List.flatMap_append, List.flatMap_singleton]
  rw [hstops, targets_stopsUpTo h hsplit List.prefix_rfl name, targets, targets, targets_append,
    targets_append, targets_files, targets_files, (targets_upTo _ _ _ _).1]
  conv_rhs => rw [hsplit]
  rw [List.flatMap_append, List.flatMap_singleton]
  simp only [targets, Action.targets, List.append_nil]

/-- A run over a beginning of lines that tell `as`: the position moves through a beginning of the
positions of `as`. -/
theorem reads_tells {env : Env} (henv : 2 * iLenBufferOut ≤ env.iMaxBufferLine)
    {core core' : Listener} {t : Text} (hreads : Reads env t core core') {lines : List Text}
    {as : List Action} (htell : LinesTell lines as) (ht : completeLines t <+: lines) :
    ∃ qs, qs <+: targets core.shared.stBinLogInfoFirst.szBinLogName core.loc.szBinLogName as ∧
      Drives core.shared qs core'.shared := by
  obtain ⟨mem, fuel, chunks, s, hfuel, hcut, hshort, hs, rfl⟩ := hreads
  have hrun := listen_decode henv hfuel core mem hshort hcut
  obtain ⟨as', ⟨more, rfl⟩, htell'⟩ := htell.of_isPrefix ht
  obtain ⟨out, hout, -, hdrives⟩ := decode_linesTell htell' (core.loc, core.shared)
  rw [decode, hout, hs] at hrun
  have hshared : s.core.shared = out.2 := congrArg Prod.snd (Except.ok.inj hrun)
  rw [← hshared] at hdrives
  refine ⟨_, ?_, hdrives⟩
  rw [targets_append]
  exact List.prefix_append _ _

/-- A run over any beginning of the pass: the position moves through stops of the pass, and only
these are saved or published. -/
theorem reads_isPrefix {env : Env} (henv : 2 * iLenBufferOut ≤ env.iMaxBufferLine) (h : p.Ordered)
    (hplain : p.Plain) {core core' : Listener} (hbegins : p.Begins core.shared) {t : Text}
    (ht : t <+: p.text) (hreads : Reads env t core core') :
    ∃ qs, (core.shared.stBinLogSeqInProgess :: qs) <+: p.allStops ∧
      Drives core.shared qs core'.shared := by
  obtain ⟨qs, hpre, hdrives⟩ :=
    reads_tells henv hreads (pass_tells hplain).lines (completeLines_of_isPrefix ht)
  refine ⟨qs, ?_, hdrives⟩
  rw [hbegins.inProgess, targets_allStops h core.loc.szBinLogName, List.prefix_cons_inj]
  rwa [hbegins.first] at hpre

theorem mem_allStops {q : BinLogSequence} (hq : q ∈ p.allStops) :
    ∃ f ∈ p.files, q.szBinLogName = f.szBinLogName ∧
      q.ulPosition ∈ p.start f :: checkpoints f.events := by
  obtain ⟨f, hf, hq⟩ := List.mem_flatMap.mp hq
  obtain ⟨c, hc, rfl⟩ := List.mem_map.mp hq
  exact ⟨f, hf, rfl, hc⟩

/-- What is saved or published over a beginning of the pass is a stop. -/
theorem saved_mem_allStops {env : Env} (henv : 2 * iLenBufferOut ≤ env.iMaxBufferLine)
    (h : p.Ordered) (hplain : p.Plain) {core core' : Listener} (hbegins : p.Begins core.shared)
    {t : Text} (ht : t <+: p.text) (hreads : Reads env t core core') :
    (∀ saved, core'.shared.xai = core.shared.xai ++ saved → ∀ q ∈ saved, q ∈ p.allStops) ∧
      (core'.shared.stBinLogSeq = core.shared.stBinLogSeq ∨
        core'.shared.stBinLogSeq ∈ p.allStops) := by
  obtain ⟨qs, hpre, hdrives⟩ := reads_isPrefix henv h hplain hbegins ht hreads
  obtain ⟨log, hlog, hmem, -⟩ := hdrives.moves.log
  have hxai : core'.shared.xai = core.shared.xai ++ log := hlog
  constructor
  · intro saved hsaved q hq
    rw [hxai, List.append_cancel_left_eq] at hsaved
    exact hpre.subset (hmem q (hsaved ▸ hq))
  · exact hdrives.seq.imp_right fun hmem => hpre.subset hmem

end Prefix

section FailedReads
variable {p : Pass} {stored : Text → List (ℕ × LogEvent)}

/-- What `stored` names is what the server holds of each file from where its reading begins; the
reading prints it up to the point where it ends or fails. -/
structure Pass.ReadsOf (p : Pass) (stored : Text → List (ℕ × LogEvent)) : Prop where
  printed : ∀ f ∈ p.files, f.events <+: stored f.szBinLogName
  inOrder : ∀ f ∈ p.files, InOrder (p.start f) (stored f.szBinLogName)

/-- Every stored event in front of the position has been printed. -/
def Pass.PrintedUpTo (p : Pass) (stored : Text → List (ℕ × LogEvent)) (q : BinLogSequence) : Prop :=
  ∀ f ∈ p.files, ∀ e ∈ stored f.szBinLogName, e.1 < e.2.logPos →
    p.Ascends ⟨f.szBinLogName, e.2.logPos, 0⟩ q → e ∈ f.events

/-- Whatever beginning of the pass is read, no position is saved or published in front of which an
event has not been printed. -/
def Pass.PassesOverNothing (env : Env) (p : Pass) (stored : Text → List (ℕ × LogEvent)) : Prop :=
  ∀ (t : Text) (core core' : Listener), t <+: p.text → p.Begins core.shared →
    p.PrintedUpTo stored core.shared.stBinLogSeq → Reads env t core core' →
    (∀ saved, core'.shared.xai = core.shared.xai ++ saved →
        ∀ q ∈ saved, p.PrintedUpTo stored q) ∧
      p.PrintedUpTo stored core'.shared.stBinLogSeq

/-- Only the last file of the pass may be printed in part. -/
def Pass.FailsLast (p : Pass) (stored : Text → List (ℕ × LogEvent)) : Prop :=
  ∀ f ∈ p.files.dropLast, f.events = stored f.szBinLogName

theorem Pass.Ordered.eq_of_name (h : p.Ordered) {f g : FileRead} (hf : f ∈ p.files)
    (hg : g ∈ p.files) (hname : f.szBinLogName = g.szBinLogName) : f = g :=
  List.inj_on_of_nodup_map h.names hf hg hname

theorem mem_dropLast_of_idxOf_lt (h : p.Ordered) {f : FileRead} (hf : f ∈ p.files) {name : Text}
    (hlt : (p.files.map FileRead.szBinLogName).idxOf f.szBinLogName <
      (p.files.map FileRead.szBinLogName).idxOf name)
    (hname : name ∈ p.files.map FileRead.szBinLogName) : f ∈ p.files.dropLast := by
  have hsplit : p.files.dropLast ++ [p.last] = p.files :=
    List.dropLast_append_getLast (List.cons_ne_nil _ _)
  rw [← hsplit, List.mem_append] at hf
  apply hf.resolve_right
  intro hlast
  rw [List.mem_singleton.mp hlast] at hlt
  have hbound := List.idxOf_lt_length_of_mem hname
  have hnodup := h.names
  rw [← hsplit, List.map_append, List.map_singleton] at hlt hbound hnodup
  have hno : p.last.szBinLogName ∉ p.files.dropLast.map FileRead.szBinLogName := fun hm =>
    (List.nodup_append.mp hnodup).2.2 _ hm _ (List.mem_singleton_self _) rfl
  rw [List.idxOf_append_of_notMem hno, List.length_append, List.length_singleton] at *
  rw [List.idxOf_cons_self] at hlt
  omega

theorem printedUpTo_of_mem (h : p.Ordered) (hreads : p.ReadsOf stored) (hlast : p.FailsLast stored)
    {q : BinLogSequence} (hq : q ∈ p.allStops) : p.PrintedUpTo stored q := by
  intro f hf e he hreal hbefore
  obtain ⟨g, hg, hname, hpos⟩ := mem_allStops hq
  rcases hbefore with hlt | ⟨hsame, hle⟩
  · have hmem : q.szBinLogName ∈ p.files.map FileRead.szBinLogName :=
      hname ▸ List.mem_map_of_mem hg
    rw [hlast f (mem_dropLast_of_idxOf_lt h hf hlt hmem)]
    exact he
  · obtain rfl := h.eq_of_name hf hg (hsame.trans hname)
    obtain ⟨rest, hrest⟩ := hreads.printed f hf
    have horder := hreads.inOrder f hf
    rw [← hrest] at horder he
    exact horder.mem_of_le hpos he hreal hle

theorem printedUpTo_start (hreads : p.ReadsOf stored) (ulIndex : ℕ) :
    p.PrintedUpTo stored ⟨p.first.szBinLogName, p.ulPosition, ulIndex⟩ := by
  intro f hf e he hreal hbefore
  have hzero : (p.files.map FileRead.szBinLogName).idxOf p.first.szBinLogName = 0 :=
    List.idxOf_cons_self
  rcases hbefore with hlt | ⟨hname, hle⟩
  · rw [hzero] at hlt
    exact absurd hlt (Nat.not_lt_zero _)
  · have hstart := (hreads.inOrder f hf).le_of_mem he
    rw [Pass.start, if_pos hname] at hstart
    exact absurd (hreal.trans_le hle) (Nat.not_lt_of_le hstart)

/-- The server closes the connection at the second of two files, behind two of its events. -/
def failedLastPass : Pass :=
  { onePass transaction with
    more := [⟨"bin.000002".toList, none, transaction.take 2, true⟩] }

end FailedReads

/-- A text that decodes is read, in some reads. -/
theorem reads_of_decode {env : Env} (henv : 2 * iLenBufferOut ≤ env.iMaxBufferLine) {t : Text}
    (hnul : nul ∉ t) (hshort : ShortLines env t) {core : Listener} {out : Locals × Shared}
    (hdecode : decode (core.loc, core.shared) t = .ok out) :
    ∃ core', Reads env t core core' ∧ core'.shared = out.2 := by
  obtain ⟨chunks, hcut⟩ := exists_cutting hnul
  have hrun := listen_decode henv (Nat.lt_succ_self _) core [] hshort hcut
  rw [hdecode] at hrun
  obtain ⟨s, hs, hsame⟩ := map_eq_ok_iff.mp hrun
  exact ⟨s.core, ⟨[], _, chunks, s, Nat.lt_succ_self _, hcut, hshort, hs, rfl⟩,
    congrArg Prod.snd hsame⟩

/-- The server closes the connection at the first of two files. -/
def failedPass : Pass :=
  { onePass [] with
    first := ⟨firstName, none, [], true⟩
    more := [⟨"bin.000002".toList, none, transaction, false⟩] }

theorem decode_failedPass : (decode (passListener.loc, passListener.shared) failedPass.text).map
    (fun s => s.2.xai.getLast?) = .ok (some ⟨"bin.000002".toList, 151, 0⟩) := by
  decide +kernel

theorem ordered_failedPass : failedPass.Ordered := by
  constructor
  · decide
  · exact List.forall_mem_cons.mpr ⟨trivial, List.forall_mem_singleton.mpr inOrder_transaction⟩
  · decide

theorem plain_failedPass : failedPass.Plain := by
  constructor
  · decide
  · intro f hf
    rcases List.mem_cons.mp hf with rfl | hf
    · exact fun e he => absurd he List.not_mem_nil
    · rw [List.mem_singleton.mp hf]
      exact textPlain_transaction

/-- The event begins a transaction. -/
def LogEvent.isGtid (ev : LogEvent) : Bool :=
  match ev.data with
  | .gtid _ _ _ _ => true
  | _ => false

/-- The event can end a transaction. -/
def LogEvent.canEnd (ev : LogEvent) : Bool :=
  match ev.data with
  | .query _ _ _ _ | .xid _ => true
  | _ => false

def LogEvent.isXid (ev : LogEvent) : Bool :=
  match ev.data with
  | .xid _ => true
  | _ => false

/-- A transaction: its `GTID` event, any other events but a `GTID` or an `XID`, and its end. -/
structure Group where
  gtid : ℕ × LogEvent
  inner : List (ℕ × LogEvent)
  last : ℕ × LogEvent
  begins : gtid.2.isGtid = true
  within : ∀ e ∈ inner, e.2.isGtid = false ∧ e.2.isXid = false
  ends : last.2.canEnd = true

def Group.events (g : Group) : List (ℕ × LogEvent) := g.gtid :: (g.inner ++ [g.last])

def Group.start (g : Group) : ℕ := g.gtid.1

def Group.end_ (g : Group) : ℕ := g.last.2.logPos

/-- Transactions one after the other, with events that have no marker around them. -/
inductive Grouped : List Group → List (ℕ × LogEvent) → Prop where
  | nil : Grouped [] []
  | other {gs : List Group} {es : List (ℕ × LogEvent)} {e : ℕ × LogEvent}
      (hgtid : e.2.isGtid = false) (hend : e.2.canEnd = false) (h : Grouped gs es) :
      Grouped gs (e :: es)
  | group {gs : List Group} {es : List (ℕ × LogEvent)} (g : Group) (h : Grouped gs es) :
      Grouped (g :: gs) (g.events ++ es)

/-- No `QUERY` event comes before the last event of the transaction. -/
def Group.QueryLast (g : Group) : Prop := ∀ e ∈ g.inner, e.2.canEnd = false

section Groups
variable {p : Pass} {groups : Text → List Group}

/-- Whatever beginning of the pass is read, the saved positions are where a reading or a transaction
begins or where a transaction ends, and never inside one. -/
def Pass.SavesOutside (env : Env) (p : Pass) (groups : Text → List Group) : Prop :=
  ∀ (t : Text) (core core' : Listener), t <+: p.text → p.Begins core.shared →
    Reads env t core core' → ∀ saved, core'.shared.xai = core.shared.xai ++ saved →
      ∀ q ∈ saved, ∃ f ∈ p.files, q.szBinLogName = f.szBinLogName ∧
        (q.ulPosition = p.start f ∨
          ∃ g ∈ groups f.szBinLogName, q.ulPosition = g.start ∨ q.ulPosition = g.end_) ∧
        ∀ g ∈ groups f.szBinLogName, q.ulPosition ≤ g.start ∨ g.end_ ≤ q.ulPosition

theorem checkpoint_gtid {ev : LogEvent} (h : ev.isGtid = true) (pos : ℕ) :
    ev.checkpoint pos = some pos := by
  unfold LogEvent.isGtid at h
  unfold LogEvent.checkpoint
  cases hd : ev.data with
  | gtid => rfl
  | _ => simp [hd] at h

theorem checkpoint_end {ev : LogEvent} (h : ev.canEnd = true) (pos : ℕ) :
    ev.checkpoint pos = some ev.logPos := by
  unfold LogEvent.canEnd at h
  unfold LogEvent.checkpoint
  cases hd : ev.data with
  | query => rfl
  | xid => rfl
  | _ => simp [hd] at h

theorem checkpoint_none {ev : LogEvent} (hgtid : ev.isGtid = false) (hend : ev.canEnd = false)
    (pos : ℕ) : ev.checkpoint pos = none := by
  unfold LogEvent.isGtid at hgtid
  unfold LogEvent.canEnd at hend
  unfold LogEvent.checkpoint
  cases hd : ev.data with
  | gtid => simp [hd] at hgtid
  | query => simp [hd] at hend
  | xid => simp [hd] at hend
  | _ => rfl

theorem Group.checkpoints_events (g : Group) (h : g.QueryLast) :
    checkpoints g.events = [g.start, g.end_] := by
  have hinner : checkpoints g.inner = [] :=
    List.filterMap_eq_nil_iff.mpr fun e he => checkpoint_none (g.within e he).1 (h e he) e.1
  rw [Group.events, checkpoints_cons, checkpoints_append, hinner, checkpoints_cons,
    checkpoint_gtid g.begins, checkpoint_end g.ends]
  rfl

theorem isFormatDescription_eq_false {ev : LogEvent} (h : ev.isGtid = true ∨ ev.canEnd = true) :
    ev.isFormatDescription = false := by
  unfold LogEvent.isFormatDescription
  unfold LogEvent.isGtid LogEvent.canEnd at h
  cases hd : ev.data with
  | formatDescription => simp [hd] at h
  | _ => rfl

/-- A transaction in order ends behind its start, and the events behind it begin at its end. -/
theorem Group.inOrder (g : Group) {start : ℕ} {es : List (ℕ × LogEvent)}
    (h : InOrder start (g.events ++ es)) :
    start ≤ g.start ∧ g.start < g.end_ ∧ InOrder g.end_ es := by
  rw [Group.events, List.cons_append, List.append_assoc, List.singleton_append] at h
  have hstart : start ≤ g.gtid.1 := h.le_of_mem List.mem_cons_self
  obtain ⟨mid, hmid, -, hall⟩ := InOrder.append (show InOrder _ ((g.gtid :: g.inner) ++ _) from h)
  have hle : g.gtid.1 ≤ mid := by
    apply hall
    rw [checkpoints_cons, checkpoint_gtid g.begins]
    exact List.mem_cons_self
  obtain ⟨hlast, hend⟩ := hmid
  rw [isFormatDescription_eq_false (.inr g.ends)] at hend
  simp only [Bool.false_eq_true, if_false] at hend
  exact ⟨hstart, hle.trans_lt (hlast.trans_lt hend.1), hend.2⟩

/-- The checkpoints of transactions are their starts and ends, none of them inside of another. -/
theorem Grouped.checkpoints {gs : List Group} {es : List (ℕ × LogEvent)} (h : Grouped gs es) :
    ∀ {start : ℕ}, InOrder start es → (∀ g ∈ gs, g.QueryLast) → (∀ g ∈ gs, start ≤ g.start) ∧
      ∀ c ∈ checkpoints es, (∃ g ∈ gs, c = g.start ∨ c = g.end_) ∧
        ∀ g ∈ gs, c ≤ g.start ∨ g.end_ ≤ c := by
  induction h with
  | nil => exact fun _ _ => ⟨by simp, by simp [BinlogCapture.checkpoints]⟩
  | @other gs es e hgtid hend h ih =>
    intro start horder hlast
    obtain ⟨mid, hmid, hle, -⟩ := InOrder.append (show InOrder start ([e] ++ _) from horder)
    obtain ⟨hstart, hall⟩ := ih hmid hlast
    rw [checkpoints_cons, checkpoint_none hgtid hend]
    exact ⟨fun g hg => hle.trans (hstart g hg), hall⟩
  | @group gs es g h ih =>
    intro start horder hlast
    obtain ⟨hstart, hlt, hrest⟩ := g.inOrder horder
    rw [List.forall_mem_cons] at hlast
    obtain ⟨hbehind, hall⟩ := ih hrest hlast.2
    have hsorted := (List.pairwise_cons.mp hrest.checkpoints_sorted).1
    constructor
    · rw [List.forall_mem_cons]
      refine ⟨hstart, fun g' hg' => ?_⟩
      have := hbehind g' hg'
      omega
    · intro c hc
      rw [checkpoints_append, g.checkpoints_events hlast.1, List.mem_append] at hc
      rw [List.forall_mem_cons]
      rcases hc with hc | hc
      · have hcase : c = g.start ∨ c = g.end_ := by simpa using hc
        refine ⟨⟨g, List.mem_cons_self, hcase⟩, by omega, fun g' hg' => ?_⟩
        have := hbehind g' hg'
        omega
      · obtain ⟨⟨g', hg', hcase⟩, hout⟩ := hall c hc
        exact ⟨⟨g', List.mem_cons_of_mem _ hg', hcase⟩, .inr (hsorted c hc), hout⟩

end Groups

def rowGroup : Group where
  gtid := (4, ⟨0, 46, false, defaultHeader,
    .gtid 1 ⟨"0-1-1".toList, newline_not_mem_gtidSummary⟩ [] false⟩)
  inner := [(46, ⟨0, 90, false, defaultHeader, .tableMap 1 "d".toList "t".toList false⟩)]
  last := (90, ⟨0, 121, false, defaultHeader, .xid 7⟩)
  begins := rfl
  within := by decide
  ends := rfl

theorem ordered_rowGroup : (onePass rowGroup.events).Ordered :=
  ordered_onePass ⟨by decide, by decide, by decide, by decide, by decide, by decide, trivial⟩
    (by decide)

theorem plain_rowGroup : (onePass rowGroup.events).Plain := by
  apply plain_onePass
  have hname : NamePlain (qualified "d".toList "t".toList) := by
    unfold NamePlain
    decide
  simp only [rowGroup, Group.events, List.cons_append, List.nil_append, List.forall_mem_cons]
  exact ⟨trivial, hname, trivial, by simp⟩

/-- The transaction with a statement in it. -/
def statementGroup : Group where
  gtid := transaction[0]
  inner := [transaction[1]]
  last := transaction[2]
  begins := rfl
  within := by decide
  ends := rfl

/-- The text of the pass up to the statement. -/
def statementText : Text :=
  (onePass transaction).upTo [] (onePass transaction).first (transaction.take 2)

theorem decode_statementText : (decode (passListener.loc, passListener.shared) statementText).map
    (fun s => s.2.xai.getLast?) = .ok (some ⟨firstName, 120, 0⟩) := by
  decide +kernel

end BinlogCapture
