import BinlogCapture.Delivery
import BinlogCapture.Dump
import BinlogCapture.Lib.Trail
import Mathlib.Data.List.Forall2

/-! What lines do to the position of the listener: its own markers, and lines that carry none. -/
namespace BinlogCapture
open CString Fallible LineFeed Trail

/-- The effect of a line on the variables of the handlers and on the shared variables. -/
def decodeLine (s : Locals × Shared) (line : Text) : Except Fault (Locals × Shared) :=
  (handleLine s.2.stBinLogSeq s.1 line).map fun h => (h.loc, s.2.execAll h.ops)

/-- The lines that a text completes. -/
def completeLines (t : Text) : List Text := (split '\n' [] t).1

def decode (s : Locals × Shared) (t : Text) : Except Fault (Locals × Shared) :=
  (completeLines t).foldlM decodeLine s

/-- The text ends at the end of a line. -/
def Whole (t : Text) : Prop := (split '\n' [] t).2 = []

theorem Whole.append {t u : Text} (ht : Whole t) (hu : Whole u) : Whole (t ++ u) := by
  rw [Whole, split_append, ht]
  exact hu

theorem completeLines_append {t : Text} (ht : Whole t) (u : Text) :
    completeLines (t ++ u) = completeLines t ++ completeLines u := by
  rw [completeLines, split_append, ht]
  rfl

theorem decode_append {t : Text} (ht : Whole t) (s : Locals × Shared) (u : Text) :
    decode s (t ++ u) = decode s t >>= fun s' => decode s' u := by
  rw [decode, completeLines_append ht, List.foldlM_append]
  rfl

theorem whole_textLine (t : Text) : Whole (textLine t) := by
  rw [Whole, textLine, split_append]
  simp [split]

theorem completeLines_textLine {l : Text} (h : '\n' ∉ l) : completeLines (textLine l) = [l] := by
  rw [completeLines, textLine, split_line '\n' h]
  rfl

theorem refLine_decode (env : Env) (s : Listener) (line : Text) :
    (refLine env s line).map (fun s => (s.loc, s.shared)) = decodeLine (s.loc, s.shared) line := by
  rw [refLine, lineEnd_eq, decodeLine]
  cases handleLine s.shared.stBinLogSeq s.loc line <;> rfl

theorem listen_refLine {env : Env} (henv : 2 * iLenBufferOut ≤ env.iMaxBufferLine) {fuel : ℕ}
    (hfuel : iLenBufferOut < fuel) (core : Listener) (mem : Text) {t : Text}
    (hshort : ShortLines env t) {chunks : List Text} (hcut : Cutting t chunks) :
    (listen env fuel (.start core mem) chunks).map Buffered.core =
      (completeLines t).foldlM (refLine env) core := by
  rw [listen_split henv hfuel core mem hshort hcut, completeLines]

/-- Over any reads of a text with short lines, the listener decodes the text. -/
theorem listen_decode {env : Env} (henv : 2 * iLenBufferOut ≤ env.iMaxBufferLine) {fuel : ℕ}
    (hfuel : iLenBufferOut < fuel) (core : Listener) (mem : Text) {t : Text}
    (hshort : ShortLines env t) {chunks : List Text} (hcut : Cutting t chunks) :
    (listen env fuel (.start core mem) chunks).map (fun s => (s.core.loc, s.core.shared)) =
      decode (core.loc, core.shared) t := by
  have hproj := foldlM_project (fun s : Listener => (s.loc, s.shared)) (refLine_decode env)
    (completeLines t) core
  rw [← listen_refLine henv hfuel core mem hshort hcut] at hproj
  rw [decode, ← hproj]
  cases listen env fuel (.start core mem) chunks <;> rfl

/-- The tags of the markers. -/
def markerTags : List Text :=
  [beginTag, stmtTag, commitTag, queryTag, startBinlogTag, endBinlogTag, firstBinlogTag,
    lastBinlogTag]

/-- The line is not taken for a marker, nor for a column without a value. -/
def Unmarked (line : Text) : Prop :=
  (∀ tag ∈ markerTags, ¬tag <+: line) ∧ (columnPrefix <+: line → '=' ∈ line.drop 7)

instance (line : Text) : Decidable (Unmarked line) :=
  inferInstanceAs (Decidable (_ ∧ _))

theorem queryFound_szBinLogName (seq : BinLogSequence) (loc : Locals) :
    (queryFound seq loc).szBinLogName = loc.szBinLogName := by
  unfold queryFound
  dsimp only
  split <;> rfl

/-- A row line leaves the position alone. -/
theorem rowLine_frame {seq : BinLogSequence} {loc : Locals} {line : Text} {h : Handled}
    (hr : rowLine seq loc line = .ok h) : h.loc.szBinLogName = loc.szBinLogName ∧ h.ops = [] := by
  rcases ite_eq_or hr with ⟨-, hr⟩ | ⟨-, hr⟩
  · rw [(columnLine_cases hr).2]
    exact ⟨rfl, rfl⟩
  rcases ite_eq_or hr with ⟨-, hr⟩ | ⟨-, hr⟩
  · exact Except.ok.inj hr ▸ ⟨rfl, rfl⟩
  rcases ite_eq_or hr with ⟨-, hr⟩ | ⟨-, hr⟩
  · exact Except.ok.inj hr ▸ ⟨rfl, rfl⟩
  rcases ite_eq_or hr with ⟨-, hr⟩ | ⟨-, hr⟩
  · exact Except.ok.inj hr ▸ ⟨queryFound_szBinLogName _ _, rfl⟩
  rcases ite_eq_or hr with ⟨-, hr⟩ | ⟨-, hr⟩
  · exact Except.ok.inj hr ▸ ⟨queryFound_szBinLogName _ _, rfl⟩
  rcases ite_eq_or hr with ⟨-, hr⟩ | ⟨-, hr⟩
  · exact Except.ok.inj hr ▸ ⟨queryFound_szBinLogName _ _, rfl⟩
  · exact Except.ok.inj hr ▸ ⟨rfl, rfl⟩

/-- A line without a tag is a line of a row, or no handler takes it. -/
theorem dispatch_untagged {line : Text} (h : ∀ tag ∈ markerTags, ¬tag <+: line)
    (seq : BinLogSequence) (loc : Locals) :
    dispatch seq loc line =
      if loc.bStartOfStmt && startsWith line rowPrefix then rowLine seq loc line
      else .ok ⟨loc, [], false⟩ := by
  have hno : ∀ tag ∈ markerTags, startsWith line tag = false := fun tag htag =>
    Bool.eq_false_iff.mpr fun hs => h tag htag (startsWith_iff.mp hs)
  simp only [markerTags, List.forall_mem_cons] at hno
  obtain ⟨h₁, h₂, h₃, h₄, h₅, h₆, h₇, h₈, -⟩ := hno
  simp only [dispatch, h₁, h₂, h₃, h₄, h₅, h₆, h₇, h₈, Bool.false_eq_true, if_false]

/-- The end of a row saves the position, or nothing happens. -/
def ClosesRow (ops : List SharedOp) : Prop := ops = [] ∨ ops = [.saveInDisk 1]

theorem endOfDataColumn_closesRow (loc : Locals) (line : Text) :
    (endOfDataColumn loc line).1.szBinLogName = loc.szBinLogName ∧
      ClosesRow (endOfDataColumn loc line).2 := by
  unfold endOfDataColumn
  split
  · exact ⟨rfl, .inr rfl⟩
  · exact ⟨rfl, .inl rfl⟩

section Marker
variable (seq : BinLogSequence) (loc : Locals) (t : Text)

theorem positions_markerPositions (pos logPos : ℕ) :
    positions (markerPositions pos logPos ++ t) =
      .ok (min pos (2 ^ 31 - 1), min logPos (2 ^ 31 - 1), t) := by
  have hno : ∀ n, '!' ∉ decimal n := fun n => not_mem_decimal (by decide) n
  have hpos : field (markerPositions pos logPos ++ t) =
      .ok (decimal pos, decimal logPos ++ '!' :: t) := by
    have h := strchr_append (hno pos) (decimal logPos ++ '!' :: t)
    simp only [field, markerPositions, List.append_assoc, List.cons_append, List.nil_append, h]
  have hlog : field (decimal logPos ++ '!' :: t) = .ok (decimal logPos, t) := by
    simp only [field, strchr_append (hno logPos)]
  simp only [positions, hpos, hlog, ok_bind, ddatol, toULong_atol_decimal]
  rfl

/-- Neither text is the beginning of the other. -/
def Apart (p q : Text) : Prop := ¬p <+: q ∧ ¬q <+: p

instance (p q : Text) : Decidable (Apart p q) := inferInstanceAs (Decidable (_ ∧ _))

theorem startsWith_apart {p q : Text} (h : Apart p q) : startsWith (p ++ t) q = false := by
  rw [Bool.eq_false_iff]
  intro hs
  rcases List.prefix_or_prefix_of_prefix (startsWith_iff.mp hs) (List.prefix_append p t)
    with hq | hp
  · exact h.2 hq
  · exact h.1 hp

theorem dispatch_begin : dispatch seq loc (beginTag ++ t) = beginLine loc (beginTag ++ t) := by
  simp only [dispatch, startsWith_append, Bool.and_false, Bool.false_eq_true, if_false, if_true,
    startsWith_apart t (by decide : Apart beginTag rowPrefix)]

theorem dispatch_stmt : dispatch seq loc (stmtTag ++ t) = stmtLine loc (stmtTag ++ t) := by
  simp only [dispatch, startsWith_append, Bool.and_false, Bool.false_eq_true, if_false, if_true,
    startsWith_apart t (by decide : Apart stmtTag rowPrefix),
    startsWith_apart t (by decide : Apart stmtTag beginTag)]

theorem dispatch_commit : dispatch seq loc (commitTag ++ t) = commitLine loc (commitTag ++ t) := by
  simp only [dispatch, startsWith_append, Bool.and_false, Bool.false_eq_true, if_false, if_true,
    startsWith_apart t (by decide : Apart commitTag rowPrefix),
    startsWith_apart t (by decide : Apart commitTag beginTag),
    startsWith_apart t (by decide : Apart commitTag stmtTag)]

theorem dispatch_query : dispatch seq loc (queryTag ++ t) = queryLine loc (queryTag ++ t) := by
  simp only [dispatch, startsWith_append, Bool.and_false, Bool.false_eq_true, if_false, if_true,
    startsWith_apart t (by decide : Apart queryTag rowPrefix),
    startsWith_apart t (by decide : Apart queryTag beginTag),
    startsWith_apart t (by decide : Apart queryTag stmtTag),
    startsWith_apart t (by decide : Apart queryTag commitTag)]

theorem dispatch_startBinlog :
    dispatch seq loc (startBinlogTag ++ t) = startBinlogLine loc (startBinlogTag ++ t) := by
  simp only [dispatch, startsWith_append, Bool.and_false, Bool.false_eq_true, if_false, if_true,
    startsWith_apart t (by decide : Apart startBinlogTag rowPrefix),
    startsWith_apart t (by decide : Apart startBinlogTag beginTag),
    startsWith_apart t (by decide : Apart startBinlogTag stmtTag),
    startsWith_apart t (by decide : Apart startBinlogTag commitTag),
    startsWith_apart t (by decide : Apart startBinlogTag queryTag)]

theorem dispatch_endBinlog : dispatch seq loc (endBinlogTag ++ t) = endBinlogLine loc := by
  simp only [dispatch, startsWith_append, Bool.and_false, Bool.false_eq_true, if_false, if_true,
    startsWith_apart t (by decide : Apart endBinlogTag rowPrefix),
    startsWith_apart t (by decide : Apart endBinlogTag beginTag),
    startsWith_apart t (by decide : Apart endBinlogTag stmtTag),
    startsWith_apart t (by decide : Apart endBinlogTag commitTag),
    startsWith_apart t (by decide : Apart endBinlogTag queryTag),
    startsWith_apart t (by decide : Apart endBinlogTag startBinlogTag)]

theorem dispatch_firstBinlog :
    dispatch seq loc (firstBinlogTag ++ t) = firstBinlogLine loc (firstBinlogTag ++ t) := by
  simp only [dispatch, startsWith_append, Bool.and_false, Bool.false_eq_true, if_false, if_true,
    startsWith_apart t (by decide : Apart firstBinlogTag rowPrefix),
    startsWith_apart t (by decide : Apart firstBinlogTag beginTag),
    startsWith_apart t (by decide : Apart firstBinlogTag stmtTag),
    startsWith_apart t (by decide : Apart firstBinlogTag commitTag),
    startsWith_apart t (by decide : Apart firstBinlogTag queryTag),
    startsWith_apart t (by decide : Apart firstBinlogTag startBinlogTag),
    startsWith_apart t (by decide : Apart firstBinlogTag endBinlogTag)]

theorem dispatch_lastBinlog : dispatch seq loc (lastBinlogTag ++ t) = lastBinlogLine loc := by
  simp only [dispatch, startsWith_append, Bool.and_false, Bool.false_eq_true, if_false, if_true,
    startsWith_apart t (by decide : Apart lastBinlogTag rowPrefix),
    startsWith_apart t (by decide : Apart lastBinlogTag beginTag),
    startsWith_apart t (by decide : Apart lastBinlogTag stmtTag),
    startsWith_apart t (by decide : Apart lastBinlogTag commitTag),
    startsWith_apart t (by decide : Apart lastBinlogTag queryTag),
    startsWith_apart t (by decide : Apart lastBinlogTag startBinlogTag),
    startsWith_apart t (by decide : Apart lastBinlogTag endBinlogTag),
    startsWith_apart t (by decide : Apart lastBinlogTag firstBinlogTag)]

end Marker

/-- A position as the listener reads it back. -/
def clip (n : ℕ) : ℕ := min n (2 ^ 31 - 1)

/-- What a line makes the listener do, apart from closing a row. -/
inductive Action where
  | skip
  | goTo (pos : ℕ)
  /-- Go to the position and save it. -/
  | save (idx pos : ℕ)
  | startBinlog (szBinLogName : Text)
  | endBinlog
  | firstBinlog (szBinLogName : Text)
  | lastBinlog
  deriving DecidableEq, Repr

/-- The file the listener is in behind the action. -/
def Action.szBinLogName (name : Text) : Action → Text
  | .startBinlog name' | .firstBinlog name' => name'
  | _ => name

def Action.ops (name : Text) : Action → List SharedOp
  | .skip => []
  | .goTo pos => [.setInProgess ⟨name, pos, 0⟩]
  | .save idx pos => [.setInProgess ⟨name, pos, 0⟩, .saveInDisk idx]
  | .startBinlog name' => [.startBinlog, .resetUnlessFirst name']
  | .endBinlog => [.endBinlog]
  | .firstBinlog _ => [.firstBinlog]
  | .lastBinlog => [.lastBinlog, .publishIfLast name]

/-- In every state the line is dispatched without a fault, to this effect. -/
def Acts (line : Text) (a : Action) : Prop :=
  ∀ (seq : BinLogSequence) (loc : Locals), ∃ h, dispatch seq loc line = .ok h ∧
    h.loc.szBinLogName = a.szBinLogName loc.szBinLogName ∧ h.ops = a.ops loc.szBinLogName

theorem acts_unmarked {line : Text} (h : Unmarked line) : Acts line .skip := by
  intro seq loc
  rw [dispatch_untagged h.1]
  by_cases hrow : (loc.bStartOfStmt && startsWith line rowPrefix) = true
  · obtain ⟨hh, hr⟩ := (rowLine_ok_iff).mpr fun hc =>
      h.2 (startsWith_iff.mp (Bool.and_eq_true_iff.mp hc).2)
    obtain ⟨hname, hops⟩ := rowLine_frame hr
    rw [if_pos hrow]
    exact ⟨hh, hr, hname, hops⟩
  · rw [if_neg hrow]
    exact ⟨_, rfl, rfl, rfl⟩

theorem acts_begin (pos logPos : ℕ) (t : Text) :
    Acts (beginTag ++ (markerPositions pos logPos ++ t)) (.goTo (clip pos)) := by
  intro seq loc
  have hdrop : (beginTag ++ (markerPositions pos logPos ++ t)).drop 8 =
      markerPositions pos logPos ++ t := rfl
  rw [dispatch_begin, beginLine, hdrop, positions_markerPositions]
  exact ⟨_, rfl, rfl, rfl⟩

theorem acts_stmt (pos logPos : ℕ) (t : Text) :
    Acts (stmtTag ++ (markerPositions pos logPos ++ t)) .skip := by
  intro seq loc
  have hdrop : (stmtTag ++ (markerPositions pos logPos ++ t)).drop 7 =
      markerPositions pos logPos ++ t := rfl
  rw [dispatch_stmt, stmtLine, hdrop, positions_markerPositions]
  exact ⟨_, rfl, rfl, rfl⟩

theorem acts_commit (pos logPos xid : ℕ) (t : Text) :
    Acts (commitTag ++ (markerPositions pos logPos ++ (decimal xid ++ '!' :: t)))
      (.save 2 (clip logPos)) := by
  intro seq loc
  have hdrop : (commitTag ++ (markerPositions pos logPos ++ (decimal xid ++ '!' :: t))).drop 9 =
      markerPositions pos logPos ++ (decimal xid ++ '!' :: t) := rfl
  have hxid : field (decimal xid ++ '!' :: t) = .ok (decimal xid, t) := by
    simp only [field, strchr_append (not_mem_decimal (c := '!') (by decide) xid)]
  rw [dispatch_commit, commitLine, hdrop, positions_markerPositions, ok_bind]
  simp only [hxid, ok_bind]
  exact ⟨_, rfl, rfl, rfl⟩

theorem acts_query (pos logPos : ℕ) (t : Text) :
    Acts (queryTag ++ (markerPositions pos logPos ++ t)) (.save 3 (clip logPos)) := by
  intro seq loc
  have hdrop : (queryTag ++ (markerPositions pos logPos ++ t)).drop 8 =
      markerPositions pos logPos ++ t := rfl
  rw [dispatch_query, queryLine, hdrop, positions_markerPositions]
  exact ⟨_, rfl, rfl, rfl⟩

theorem acts_startBinlog {name : Text} (hname : '!' ∉ name) (t : Text) :
    Acts (startBinlogTag ++ (name ++ '!' :: t)) (.startBinlog name) := by
  intro seq loc
  have hdrop : (startBinlogTag ++ (name ++ '!' :: t)).drop 15 = name ++ '!' :: t := rfl
  have hfield : field (name ++ '!' :: t) = .ok (name, t) := by
    simp only [field, strchr_append hname]
  rw [dispatch_startBinlog, startBinlogLine, hdrop, hfield]
  exact ⟨_, rfl, rfl, rfl⟩

theorem acts_endBinlog (t : Text) : Acts (endBinlogTag ++ t) .endBinlog := by
  intro seq loc
  rw [dispatch_endBinlog]
  exact ⟨_, rfl, rfl, rfl⟩

theorem acts_firstBinlog {name : Text} (hname : '!' ∉ name) (t : Text) :
    Acts (firstBinlogTag ++ (name ++ '!' :: t)) (.firstBinlog name) := by
  intro seq loc
  have hdrop : (firstBinlogTag ++ (name ++ '!' :: t)).drop 15 = name ++ '!' :: t := rfl
  have hfield : field (name ++ '!' :: t) = .ok (name, t) := by
    simp only [field, strchr_append hname]
  rw [dispatch_firstBinlog, firstBinlogLine, hdrop, hfield]
  exact ⟨_, rfl, rfl, rfl⟩

theorem acts_lastBinlog (t : Text) : Acts (lastBinlogTag ++ t) .lastBinlog := by
  intro seq loc
  rw [dispatch_lastBinlog]
  exact ⟨_, rfl, rfl, rfl⟩

/-- The position in progress, and the positions saved. -/
def Shared.trail (g : Shared) : BinLogSequence × List BinLogSequence :=
  (g.stBinLogSeqInProgess, g.xai)

/-- The variables that only `ReadJournal` writes. -/
structure Kept (g g' : Shared) : Prop where
  first : g'.stBinLogInfoFirst = g.stBinLogInfoFirst
  last : g'.stBinLogInfoLast = g.stBinLogInfoLast

theorem Kept.refl (g : Shared) : Kept g g := ⟨rfl, rfl⟩

theorem Kept.trans {g g' g'' : Shared} (h : Kept g g') (h' : Kept g' g'') : Kept g g'' :=
  ⟨h'.first.trans h.first, h'.last.trans h.last⟩

/-- The positions that the action moves to when `first` is the first file of the pass. -/
def Action.targets (first name : Text) : Action → List BinLogSequence
  | .goTo pos | .save _ pos => [⟨name, pos, 0⟩]
  | .startBinlog name' => if name' ≠ first then [⟨name', binLogHeaderSize, 0⟩] else []
  | _ => []

/-- The position in progress takes the values `qs`, values of it are saved, and only such a value
is published. -/
structure Drives (g : Shared) (qs : List BinLogSequence) (g' : Shared) : Prop where
  kept : Kept g g'
  moves : Moves g.trail qs g'.trail
  seq : g'.stBinLogSeq = g.stBinLogSeq ∨ g'.stBinLogSeq ∈ g.stBinLogSeqInProgess :: qs

theorem Drives.refl (g : Shared) : Drives g [] g := ⟨.refl g, .refl _, .inl rfl⟩

theorem Drives.inProgess {g g' : Shared} {qs : List BinLogSequence} (h : Drives g qs g') :
    g'.stBinLogSeqInProgess ∈ g.stBinLogSeqInProgess :: qs := by
  have hreg : g'.stBinLogSeqInProgess = qs.getLast?.getD g.stBinLogSeqInProgess := h.moves.register
  rw [hreg]
  cases hq : qs.getLast? with
  | none => exact List.mem_cons_self
  | some q => exact List.mem_cons_of_mem _ (List.mem_of_getLast? hq)

theorem Drives.append {g g' g'' : Shared} {qs qs' : List BinLogSequence} (h : Drives g qs g')
    (h' : Drives g' qs' g'') : Drives g (qs ++ qs') g'' := by
  refine ⟨h.kept.trans h'.kept, h.moves.append h'.moves, ?_⟩
  have hsub : ∀ q ∈ g.stBinLogSeqInProgess :: qs, q ∈ g.stBinLogSeqInProgess :: (qs ++ qs') := by
    intro q hq
    rw [← List.cons_append]
    exact List.mem_append_left _ hq
  rcases h'.seq with hseq | hseq
  · rw [hseq]
    exact h.seq.imp_right (hsub _)
  · refine .inr ?_
    rcases List.mem_cons.mp hseq with heq | hmem
    · rw [heq]
      exact hsub _ h.inProgess
    · exact List.mem_cons_of_mem _ (List.mem_append_right _ hmem)

theorem ClosesRow.drives {ops : List SharedOp} (h : ClosesRow ops) (g : Shared) :
    Drives g [] (g.execAll ops) := by
  rcases h with rfl | rfl
  · exact .refl g
  · exact ⟨⟨rfl, rfl⟩, moves_log _, .inl rfl⟩

theorem Action.drives (a : Action) (name : Text) (g : Shared) :
    Drives g (a.targets g.stBinLogInfoFirst.szBinLogName name) (g.execAll (a.ops name)) := by
  cases a with
  | skip => exact .refl g
  | goTo pos => exact ⟨⟨rfl, rfl⟩, moves_to _ _, .inl rfl⟩
  | save idx pos => exact ⟨⟨rfl, rfl⟩, (moves_to _ _).append (moves_log _), .inl rfl⟩
  | startBinlog name' =>
    simp only [Action.ops, Shared.execAll_cons, Shared.execAll_nil, Shared.exec, Action.targets]
    split
    · exact ⟨⟨rfl, rfl⟩, moves_to _ _, .inl rfl⟩
    · exact ⟨⟨rfl, rfl⟩, .refl _, .inl rfl⟩
  | endBinlog => exact ⟨⟨rfl, rfl⟩, .refl _, .inl rfl⟩
  | firstBinlog name' => exact ⟨⟨rfl, rfl⟩, .refl _, .inl rfl⟩
  | lastBinlog =>
    simp only [Action.ops, Shared.execAll_cons, Shared.execAll_nil, Shared.exec, Action.targets]
    split
    · exact ⟨⟨rfl, rfl⟩, .refl _, .inr List.mem_cons_self⟩
    · exact ⟨⟨rfl, rfl⟩, .refl _, .inl rfl⟩

/-- The file the listener is in behind the actions, and the positions they move to. -/
def nameAfter (name : Text) (as : List Action) : Text :=
  as.foldl Action.szBinLogName name

def targets (first : Text) : Text → List Action → List BinLogSequence
  | _, [] => []
  | name, a :: as => a.targets first name ++ targets first (a.szBinLogName name) as

theorem nameAfter_append (name : Text) (as bs : List Action) :
    nameAfter name (as ++ bs) = nameAfter (nameAfter name as) bs := List.foldl_append

theorem targets_append (first name : Text) (as bs : List Action) :
    targets first name (as ++ bs) =
      targets first name as ++ targets first (nameAfter name as) bs := by
  induction as generalizing name with
  | nil => rfl
  | cons a as ih =>
    rw [List.cons_append, targets, targets, ih, List.append_assoc]
    rfl

/-- The lines do what the actions say. -/
abbrev LinesAct (lines : List Text) (as : List Action) : Prop := List.Forall₂ Acts lines as

/-- The line is handled without a fault: it may close a row, and then it does what the action
says. -/
theorem handleLine_acts {line : Text} {a : Action} (h : Acts line a) (seq : BinLogSequence)
    (loc : Locals) : ∃ hh closes, handleLine seq loc line = .ok hh ∧
      hh.loc.szBinLogName = a.szBinLogName loc.szBinLogName ∧ ClosesRow closes ∧
      hh.ops = closes ++ a.ops loc.szBinLogName := by
  obtain ⟨hname, hcloses⟩ := endOfDataColumn_closesRow loc line
  obtain ⟨hh, hd, hloc, hops⟩ := h seq (endOfDataColumn loc line).1
  rw [hname] at hloc hops
  refine ⟨{ hh with ops := (endOfDataColumn loc line).2 ++ hh.ops }, _, ?_, hloc, hcloses, ?_⟩
  · rw [handleLine, hd]
    rfl
  · rw [hops]

theorem decodeLine_acts {line : Text} {a : Action} (h : Acts line a) (s : Locals × Shared) :
    ∃ s', decodeLine s line = .ok s' ∧ s'.1.szBinLogName = a.szBinLogName s.1.szBinLogName ∧
      Drives s.2 (a.targets s.2.stBinLogInfoFirst.szBinLogName s.1.szBinLogName) s'.2 := by
  obtain ⟨hh, closes, hd, hloc, hcloses, hops⟩ := handleLine_acts h s.2.stBinLogSeq s.1
  refine ⟨(hh.loc, s.2.execAll hh.ops), ?_, hloc, ?_⟩
  · rw [decodeLine, hd]
    rfl
  · rw [hops, Shared.execAll_append]
    have hclose := hcloses.drives s.2
    have hact := a.drives s.1.szBinLogName (s.2.execAll closes)
    rw [hclose.kept.first] at hact
    exact hclose.append hact

/-- A run over lines whose actions are known: it has no fault, and the position in progress moves
as the actions say. -/
theorem decode_actions {lines : List Text} {as : List Action} (h : LinesAct lines as)
    (s : Locals × Shared) :
    ∃ s', lines.foldlM decodeLine s = .ok s' ∧
      s'.1.szBinLogName = nameAfter s.1.szBinLogName as ∧
      Drives s.2 (targets s.2.stBinLogInfoFirst.szBinLogName s.1.szBinLogName as) s'.2 := by
  induction h generalizing s with
  | nil => exact ⟨s, rfl, rfl, .refl s.2⟩
  | cons hline _ ih =>
    obtain ⟨s₁, hs₁, hname₁, hdrives₁⟩ := decodeLine_acts hline s
    obtain ⟨s₂, hs₂, hname₂, hdrives₂⟩ := ih s₁
    refine ⟨s₂, ?_, ?_, ?_⟩
    · rw [List.foldlM_cons, hs₁, ok_bind, hs₂]
    · rw [hname₂, hname₁]
      rfl
    · rw [hname₁, hdrives₁.kept.first] at hdrives₂
      exact hdrives₁.append hdrives₂

theorem linesAct_unmarked {lines : List Text} (h : ∀ l ∈ lines, Unmarked l) :
    LinesAct lines (List.replicate lines.length .skip) := by
  induction lines with
  | nil => exact .nil
  | cons l ls ih =>
    rw [List.forall_mem_cons] at h
    exact .cons (acts_unmarked h.1) (ih h.2)

theorem targets_skip (first name : Text) (n : ℕ) :
    targets first name (List.replicate n .skip) = [] ∧
      nameAfter name (List.replicate n .skip) = name := by
  induction n with
  | zero => exact ⟨rfl, rfl⟩
  | succ n ih =>
    rw [List.replicate_succ]
    exact ⟨by rw [targets]; exact ih.1, ih.2⟩

/-- The actions of a beginning of the lines are a beginning of the actions. -/
theorem LinesAct.of_isPrefix {lines pre : List Text} {as : List Action} (h : LinesAct lines as)
    (hpre : pre <+: lines) : ∃ bs, bs <+: as ∧ LinesAct pre bs := by
  obtain ⟨post, rfl⟩ := hpre
  have htake := List.forall₂_take pre.length h
  rw [List.take_left] at htake
  exact ⟨as.take pre.length, List.take_prefix _ _, htake⟩

end BinlogCapture
