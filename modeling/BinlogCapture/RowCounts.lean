import BinlogCapture.Decode
import Mathlib.Data.List.Count

/-! The row counters: what a row header adds to them, over any lines behind a `START_BINLOG`. -/
namespace BinlogCapture
open CString Fallible

/-- What a line is for the counters: a row header inside a statement, which is processed or passed
over, or a line that clears the contributions of the kinds of rows. -/
inductive RowEvent where
  | header (kind : RowsType) (processed : Bool)
  | clear
  deriving DecidableEq, Repr

/-- The counters: what each kind of rows contributes, the sums over the rows, and the rows. -/
@[ext] structure RowState where
  contribution : RowsType → UInt32
  count : RowsType → UInt32
  rowtable : UInt32

/-- A header sets the contribution of its kind; when it is processed, all contributions are
added. -/
def RowState.step (a : RowState) : RowEvent → RowState
  | .header kind processed =>
    let contribution := Function.update a.contribution kind 1
    if processed then
      { contribution
        count := fun k => a.count k + contribution k
        rowtable := a.rowtable + 1 }
    else { a with contribution }
  | .clear => { a with contribution := fun _ => 0 }

/-- Behind headers of the kinds `seen`, every processed header is of the only kind seen since the
contributions were cleared. -/
def Unmixed : List RowsType → List RowEvent → Prop
  | _, [] => True
  | seen, .header kind processed :: es =>
    (processed = true → ∀ k ∈ seen, k = kind) ∧ Unmixed (kind :: seen) es
  | _, .clear :: es => Unmixed [] es

instance decidableUnmixed : (seen : List RowsType) → (es : List RowEvent) →
    Decidable (Unmixed seen es)
  | _, [] => .isTrue trivial
  | seen, .header kind _ :: es =>
    have := decidableUnmixed (kind :: seen) es
    inferInstanceAs (Decidable (_ ∧ _))
  | _, .clear :: es => decidableUnmixed [] es

/-- The increments from `a` to `b` add up, and each is the number of processed headers. -/
def Adds (a b : RowState) (es : List RowEvent) : Prop :=
  b.rowtable - a.rowtable = (b.count .write - a.count .write) +
      (b.count .update - a.count .update) + (b.count .delete - a.count .delete) ∧
    ∀ k, b.count k - a.count k = UInt32.ofNat (es.count (.header k true))

/-- The contributions are those of the kinds seen. -/
def Contributes (seen : List RowsType) (a : RowState) : Prop :=
  ∀ k, a.contribution k = if k ∈ seen then 1 else 0

section Counting
variable {seen : List RowsType} {a : RowState} {kind : RowsType}

theorem Contributes.header (h : Contributes seen a) (processed : Bool) :
    Contributes (kind :: seen) (a.step (.header kind processed)) := by
  intro k
  have hupdate : (a.step (.header kind processed)).contribution k =
      Function.update a.contribution kind 1 k := by
    cases processed <;> rfl
  rw [hupdate]
  by_cases hk : k = kind
  · simp [hk]
  · rw [Function.update_of_ne hk, h k]
    simp [hk]

theorem contributes_clear (a : RowState) : Contributes [] (a.step .clear) := fun _ => rfl

theorem adds_refl (a : RowState) : Adds a a [] := by
  constructor
  · simp
  · intro k
    simp

theorem Adds.append {b c : RowState} {es fs : List RowEvent} (h : Adds a b es)
    (h' : Adds b c fs) : Adds a c (es ++ fs) := by
  obtain ⟨hsum, hcount⟩ := h
  obtain ⟨hsum', hcount'⟩ := h'
  constructor
  · grind
  · intro k
    have hk := hcount k
    have hk' := hcount' k
    rw [List.count_append, UInt32.ofNat_add, ← hk, ← hk']
    grind

theorem Adds.of_append {b c : RowState} {es fs : List RowEvent} (h : Adds a b es)
    (h' : Adds a c (es ++ fs)) : Adds b c fs := by
  obtain ⟨hsum, hcount⟩ := h
  obtain ⟨hsum', hcount'⟩ := h'
  constructor
  · grind
  · intro k
    have hk := hcount k
    have hk' := hcount' k
    rw [List.count_append, UInt32.ofNat_add] at hk'
    grind

theorem adds_clear (a : RowState) : Adds a (a.step .clear) [.clear] := by
  constructor
  · simp [RowState.step]
  · intro k
    simp [RowState.step]

theorem adds_passed (a : RowState) (kind : RowsType) :
    Adds a (a.step (.header kind false)) [.header kind false] := by
  constructor
  · simp [RowState.step]
  · intro k
    simp [RowState.step]

/-- A processed header adds one row, and it adds up exactly behind headers of its own kind. -/
theorem adds_processed_iff (h : Contributes seen a) :
    Adds a (a.step (.header kind true)) [.header kind true] ↔ ∀ k ∈ seen, k = kind := by
  have hcontr : Contributes (kind :: seen) (a.step (.header kind true)) := h.header true
  have hcount : ∀ k, (a.step (.header kind true)).count k - a.count k =
      if k ∈ kind :: seen then 1 else 0 := by
    intro k
    rw [← hcontr k]
    have hcancel : ∀ x y : UInt32, x + y - x = y := fun x y => by grind
    exact hcancel _ _
  have hrow : (a.step (.header kind true)).rowtable - a.rowtable = 1 := by
    show a.rowtable + 1 - a.rowtable = 1
    grind
  rw [Adds, hrow]
  simp only [hcount]
  constructor
  · rintro ⟨-, hk⟩ k hmem
    by_contra hne
    have := hk k
    rw [if_pos (List.mem_cons_of_mem _ hmem), List.count_singleton] at this
    simp [Ne.symm hne] at this
  · intro hseen
    have hmem : ∀ k, k ∈ kind :: seen ↔ k = kind := fun k =>
      ⟨fun hk => (List.mem_cons.mp hk).elim id (hseen k), fun hk => hk ▸ List.mem_cons_self⟩
    simp only [hmem]
    constructor
    · cases kind <;> decide
    · intro k
      by_cases hk : k = kind
      · simp [hk]
      · simp [hk, Ne.symm hk]

/-- The kinds seen behind one more event. -/
def seenAfter (seen : List RowsType) : RowEvent → List RowsType
  | .header kind _ => kind :: seen
  | .clear => []

theorem Contributes.step (h : Contributes seen a) (e : RowEvent) :
    Contributes (seenAfter seen e) (a.step e) := by
  cases e with
  | header kind processed => exact h.header processed
  | clear => exact contributes_clear a

theorem unmixed_cons_iff (h : Contributes seen a) (e : RowEvent) (es : List RowEvent) :
    Unmixed seen (e :: es) ↔ Adds a (a.step e) [e] ∧ Unmixed (seenAfter seen e) es := by
  cases e with
  | header kind processed =>
    cases processed with
    | true => rw [Unmixed, adds_processed_iff h, seenAfter, imp_iff_right rfl]
    | false => simp [Unmixed, adds_passed, seenAfter]
  | clear => simp [Unmixed, adds_clear, seenAfter]

/-- The counters add up behind every beginning of the events exactly when no kinds are mixed. -/
theorem unmixed_iff_adds (h : Contributes seen a) (es : List RowEvent) :
    Unmixed seen es ↔ ∀ pre, pre <+: es → Adds a (pre.foldl RowState.step a) pre := by
  induction es generalizing seen a with
  | nil =>
    refine ⟨fun _ pre hpre => ?_, fun _ => trivial⟩
    rw [List.prefix_nil.mp hpre]
    exact adds_refl a
  | cons e es ih =>
    rw [unmixed_cons_iff h, ih (h.step e)]
    constructor
    · rintro ⟨hhead, htail⟩ pre hpre
      rcases List.prefix_cons_iff.mp hpre with rfl | ⟨pre', rfl, hpre'⟩
      · exact adds_refl a
      · exact hhead.append (htail pre' hpre')
    · intro hall
      have hhead := hall [e] (List.prefix_append [e] es)
      refine ⟨hhead, fun pre hpre => ?_⟩
      exact hhead.of_append (hall (e :: pre) (List.prefix_cons_inj e |>.mpr hpre))

end Counting

/-- The counters of the listener. -/
def Locals.rowState (loc : Locals) : RowState where
  contribution
    | .write => loc.ulCountInsert
    | .update => loc.ulCountUpdate
    | .delete => loc.ulCountDelete
  count
    | .write => loc.rowCount.ulCountInsert
    | .update => loc.rowCount.ulCountUpdate
    | .delete => loc.rowCount.ulCountDelete
  rowtable := loc.rowCount.ulCountRowtable

def headerKind (line : Text) : Option RowsType :=
  if startsWith line insertPrefix then some .write
  else if startsWith line updatePrefix then some .update
  else if startsWith line deletePrefix then some .delete
  else none

/-- A row header is processed unless it is at or before the saved row of the saved position. -/
def processes (seq : BinLogSequence) (loc : Locals) : Bool :=
  loc.ulCountBinLog > 0 || loc.ulPosition ≠ seq.ulPosition ||
    (loc.ulIndex + 1) % 2 ^ 32 > seq.ulIndex

/-- What the line is for the counters. -/
def rowEvent (seq : BinLogSequence) (loc : Locals) (line : Text) : List RowEvent :=
  if loc.bStartOfStmt && startsWith line rowPrefix then
    (headerKind line).toList.map fun kind => .header kind (processes seq loc)
  else if startsWith line stmtTag || startsWith line startBinlogTag then [.clear]
  else []

/-- The events of a run over lines, up to a fault. -/
def rowEvents : Locals × Shared → List Text → List RowEvent
  | _, [] => []
  | s, line :: lines =>
    match decodeLine s line with
    | .error _ => []
    | .ok s' => rowEvent s.2.stBinLogSeq s.1 line ++ rowEvents s' lines

section Lines
variable {seq : BinLogSequence} {loc : Locals} {line : Text} {h : Handled}

theorem rowState_endOfDataColumn (loc : Locals) (line : Text) :
    (endOfDataColumn loc line).1.rowState = loc.rowState ∧
      ∀ seq line', rowEvent seq (endOfDataColumn loc line).1 line' = rowEvent seq loc line' := by
  unfold endOfDataColumn
  split
  · exact ⟨rfl, fun _ _ => rfl⟩
  · exact ⟨rfl, fun _ _ => rfl⟩

theorem rowState_queryFound (seq : BinLogSequence) (loc : Locals) :
    (queryFound seq loc).rowState =
      if processes seq loc then
        { loc.rowState with
          count := fun k => loc.rowState.count k + loc.rowState.contribution k
          rowtable := loc.rowState.rowtable + 1 }
      else loc.rowState := by
  unfold queryFound processes
  dsimp only
  split
  · ext k
    · cases k <;> rfl
    · cases k <;> rfl
    · rfl
  · rfl

/-- A row header, noted by the contribution of its kind. -/
theorem rowState_header {loc' : Locals} (kind : RowsType)
    (hnoted : ∀ k, loc'.rowState.contribution k =
      Function.update loc.rowState.contribution kind 1 k)
    (hcount : loc'.rowCount = loc.rowCount) (hprocesses : processes seq loc' = processes seq loc) :
    (queryFound seq loc').rowState = loc.rowState.step (.header kind (processes seq loc)) := by
  have hstate : loc'.rowState =
      { loc.rowState with contribution := Function.update loc.rowState.contribution kind 1 } := by
    ext k
    · rw [hnoted k]
    · simp only [Locals.rowState, hcount]
    · simp only [Locals.rowState, hcount]
  rw [rowState_queryFound, hstate, hprocesses]
  rfl

/-- No row header begins as a column or an image does. -/
theorem headerKind_eq_none {p : Text} (hp : p ∈ [columnPrefix, wherePrefix, setPrefix])
    (h : startsWith line p = true) : headerKind line = none := by
  obtain ⟨t, rfl⟩ := startsWith_iff.mp h
  have hapart : ∀ p ∈ [columnPrefix, wherePrefix, setPrefix],
      ∀ q ∈ [insertPrefix, updatePrefix, deletePrefix], Apart p q := by decide
  simp only [headerKind, startsWith_apart t (hapart p hp insertPrefix (by decide)),
    startsWith_apart t (hapart p hp updatePrefix (by decide)),
    startsWith_apart t (hapart p hp deletePrefix (by decide)), Bool.false_eq_true, if_false]

theorem rowState_rowLine (hr : rowLine seq loc line = .ok h) :
    h.loc.rowState = ((headerKind line).toList.map
      fun kind => RowEvent.header kind (processes seq loc)).foldl RowState.step loc.rowState := by
  rcases ite_eq_or hr with ⟨hc, hr⟩ | ⟨-, hr⟩
  · rw [headerKind_eq_none (by decide) (Bool.and_eq_true_iff.mp hc).2, (columnLine_cases hr).2]
    rfl
  rcases ite_eq_or hr with ⟨hc, hr⟩ | ⟨-, hr⟩
  · rw [headerKind_eq_none (by decide) (Bool.and_eq_true_iff.mp hc).2, ← Except.ok.inj hr]
    rfl
  rcases ite_eq_or hr with ⟨hc, hr⟩ | ⟨-, hr⟩
  · rw [headerKind_eq_none (by decide) (Bool.and_eq_true_iff.mp hc).2, ← Except.ok.inj hr]
    rfl
  unfold headerKind
  rcases ite_eq_or hr with ⟨hc, hr⟩ | ⟨hi, hr⟩
  · rw [if_pos hc, ← Except.ok.inj hr]
    exact rowState_header .write (fun k => by cases k <;> rfl) rfl rfl
  rcases ite_eq_or hr with ⟨hc, hr⟩ | ⟨hu, hr⟩
  · rw [if_neg hi, if_pos hc, ← Except.ok.inj hr]
    exact rowState_header .update (fun k => by cases k <;> rfl) rfl rfl
  rcases ite_eq_or hr with ⟨hc, hr⟩ | ⟨hd, hr⟩
  · rw [if_neg hi, if_neg hu, if_pos hc, ← Except.ok.inj hr]
    exact rowState_header .delete (fun k => by cases k <;> rfl) rfl rfl
  · rw [if_neg hi, if_neg hu, if_neg hd, ← Except.ok.inj hr]
    rfl

theorem rowState_clear {loc' : Locals} (hrc : loc'.rowState.count = loc.rowState.count)
    (hrow : loc'.rowState.rowtable = loc.rowState.rowtable)
    (hclear : loc'.rowState.contribution = fun _ => 0) :
    loc'.rowState = loc.rowState.step .clear := by
  ext k
  · rw [hclear]
    rfl
  · rw [hrc]
    rfl
  · rw [hrow]
    rfl

/-- A marker line changes the counters only when it clears the contributions. -/
theorem rowState_marker {p : Text} (h : startsWith line p = true)
    (hp : p ∈ [beginTag, commitTag, queryTag, endBinlogTag, firstBinlogTag, lastBinlogTag]) :
    (startsWith line stmtTag || startsWith line startBinlogTag) = false := by
  obtain ⟨t, rfl⟩ := startsWith_iff.mp h
  have hapart : ∀ p ∈ [beginTag, commitTag, queryTag, endBinlogTag, firstBinlogTag, lastBinlogTag],
      Apart p stmtTag ∧ Apart p startBinlogTag := by decide
  rw [startsWith_apart t (hapart p hp).1, startsWith_apart t (hapart p hp).2, Bool.or_false]

theorem rowState_dispatch (hd : dispatch seq loc line = .ok h) :
    h.loc.rowState = (rowEvent seq loc line).foldl RowState.step loc.rowState := by
  unfold rowEvent
  rcases ite_eq_or hd with ⟨hc, hd⟩ | ⟨hn, hd⟩
  · rw [if_pos hc]
    exact rowState_rowLine hd
  rw [if_neg hn]
  rcases ite_eq_or hd with ⟨hc, hd⟩ | ⟨-, hd⟩
  · obtain ⟨r, -, hr⟩ := bind_eq_ok_iff.mp hd
    rw [rowState_marker hc (by decide), ← Except.ok.inj hr]
    rfl
  rcases ite_eq_or hd with ⟨hc, hd⟩ | ⟨hstmt, hd⟩
  · obtain ⟨r, -, hr⟩ := bind_eq_ok_iff.mp hd
    rw [hc, Bool.true_or, if_pos rfl, ← Except.ok.inj hr]
    refine rowState_clear rfl rfl ?_
    ext k
    cases k <;> rfl
  rcases ite_eq_or hd with ⟨hc, hd⟩ | ⟨-, hd⟩
  · obtain ⟨r, -, hr⟩ := bind_eq_ok_iff.mp hd
    obtain ⟨x, -, hx⟩ := bind_eq_ok_iff.mp hr
    rw [rowState_marker hc (by decide), ← Except.ok.inj hx]
    rfl
  rcases ite_eq_or hd with ⟨hc, hd⟩ | ⟨-, hd⟩
  · obtain ⟨r, -, hr⟩ := bind_eq_ok_iff.mp hd
    rw [rowState_marker hc (by decide), ← Except.ok.inj hr]
    rfl
  rcases ite_eq_or hd with ⟨hc, hd⟩ | ⟨hstart, hd⟩
  · obtain ⟨r, -, hr⟩ := bind_eq_ok_iff.mp hd
    rw [hc, Bool.or_true, if_pos rfl, ← Except.ok.inj hr]
    refine rowState_clear rfl rfl ?_
    ext k
    cases k <;> rfl
  rw [Bool.eq_false_iff.mpr hstmt, Bool.eq_false_iff.mpr hstart]
  rcases ite_eq_or hd with ⟨-, hd⟩ | ⟨-, hd⟩
  · rw [← Except.ok.inj hd]
    rfl
  rcases ite_eq_or hd with ⟨-, hd⟩ | ⟨-, hd⟩
  · obtain ⟨r, -, hr⟩ := bind_eq_ok_iff.mp hd
    rw [← Except.ok.inj hr]
    rfl
  rcases ite_eq_or hd with ⟨-, hd⟩ | ⟨-, hd⟩
  · rw [← Except.ok.inj hd]
    rfl
  · rw [← Except.ok.inj hd]
    rfl

theorem rowState_decodeLine {s s' : Locals × Shared} (hs : decodeLine s line = .ok s') :
    s'.1.rowState =
      (rowEvent s.2.stBinLogSeq s.1 line).foldl RowState.step s.1.rowState := by
  obtain ⟨hh, hline, rfl⟩ := map_eq_ok_iff.mp hs
  obtain ⟨hh', hd, rfl⟩ := map_eq_ok_iff.mp hline
  obtain ⟨hstate, hevent⟩ := rowState_endOfDataColumn s.1 line
  rw [← hstate, ← hevent]
  exact rowState_dispatch hd

/-- A run over lines counts their events. -/
theorem rowState_run {s s' : Locals × Shared} {lines : List Text}
    (hs : lines.foldlM decodeLine s = .ok s') :
    s'.1.rowState = (rowEvents s lines).foldl RowState.step s.1.rowState := by
  induction lines generalizing s with
  | nil =>
    cases hs
    rfl
  | cons line lines ih =>
    rw [List.foldlM_cons] at hs
    obtain ⟨s₁, hs₁, hs⟩ := bind_eq_ok_iff.mp hs
    rw [ih hs, rowState_decodeLine hs₁, rowEvents, hs₁, List.foldl_append]

theorem rowEvent_length (seq : BinLogSequence) (loc : Locals) (line : Text) :
    rowEvent seq loc line = [] ∨ ∃ e, rowEvent seq loc line = [e] := by
  unfold rowEvent
  split
  · cases headerKind line with
    | none => exact .inl rfl
    | some kind => exact .inr ⟨_, rfl⟩
  · split
    · exact .inr ⟨_, rfl⟩
    · exact .inl rfl

/-- The beginnings of the events are the events of the beginnings that run without a fault. -/
theorem prefix_rowEvents_iff {s : Locals × Shared} {lines : List Text} {pre : List RowEvent} :
    pre <+: rowEvents s lines ↔ ∃ before s', before <+: lines ∧
      before.foldlM decodeLine s = .ok s' ∧ rowEvents s before = pre := by
  constructor
  · intro hpre
    induction lines generalizing s pre with
    | nil =>
      rw [rowEvents, List.prefix_nil] at hpre
      exact ⟨[], s, List.prefix_rfl, rfl, hpre.symm⟩
    | cons line lines ih =>
      rw [rowEvents] at hpre
      cases hs : decodeLine s line with
      | error e =>
        rw [hs] at hpre
        rw [List.prefix_nil.mp hpre]
        exact ⟨[], s, List.nil_prefix, rfl, rfl⟩
      | ok s₁ =>
        rw [hs] at hpre
        have hcons : ∀ pre', pre' <+: rowEvents s₁ lines →
            ∃ before s', before <+: line :: lines ∧ before.foldlM decodeLine s = .ok s' ∧
              rowEvents s before = rowEvent s.2.stBinLogSeq s.1 line ++ pre' := by
          intro pre' hpre'
          obtain ⟨before, s', hbefore, hs', hevents⟩ := ih hpre'
          refine ⟨line :: before, s', List.prefix_cons_inj line |>.mpr hbefore, ?_, ?_⟩
          · rw [List.foldlM_cons, hs, ok_bind, hs']
          · rw [rowEvents, hs]
            simp only [hevents]
        rcases rowEvent_length s.2.stBinLogSeq s.1 line with hnil | ⟨e, he⟩
        · rw [hnil] at hcons hpre
          exact hcons pre hpre
        · rw [he] at hcons hpre
          rcases List.prefix_cons_iff.mp hpre with rfl | ⟨pre', rfl, hpre'⟩
          · exact ⟨[], s, List.nil_prefix, rfl, rfl⟩
          · exact hcons pre' hpre'
  · rintro ⟨before, s', ⟨after, rfl⟩, hs', rfl⟩
    induction before generalizing s with
    | nil => exact List.nil_prefix
    | cons line before ih =>
      rw [List.foldlM_cons] at hs'
      obtain ⟨s₁, hs₁, hs'⟩ := bind_eq_ok_iff.mp hs'
      rw [List.cons_append, rowEvents, rowEvents, hs₁]
      exact List.prefix_append_right_inj _ |>.mpr (ih hs')

end Lines

/-- The counters of every state reached over the lines add up. -/
def CountsAddUp (s : Locals × Shared) (lines : List Text) : Prop :=
  ∀ before s', before <+: lines → before.foldlM decodeLine s = .ok s' →
    Adds s.1.rowState s'.1.rowState (rowEvents s before)

section Start
variable {s s₀ : Locals × Shared} {t : Text}

theorem contributes_start (hstart : decodeLine s₀ (startBinlogTag ++ t) = .ok s) :
    Contributes [] s.1.rowState := by
  have hevent : rowEvent s₀.2.stBinLogSeq s₀.1 (startBinlogTag ++ t) = [.clear] := by
    rw [rowEvent, startsWith_apart t (by decide : Apart startBinlogTag rowPrefix), Bool.and_false,
      if_neg Bool.false_ne_true, startsWith_append, Bool.or_true, if_pos rfl]
  rw [rowState_decodeLine hstart, hevent]
  exact contributes_clear _

theorem unmixed_of_countsAddUp (hstart : decodeLine s₀ (startBinlogTag ++ t) = .ok s)
    {lines : List Text} (h : CountsAddUp s lines) : Unmixed [] (rowEvents s lines) := by
  rw [unmixed_iff_adds (contributes_start hstart)]
  intro pre hpre
  obtain ⟨before, s', hbefore, hs', rfl⟩ := prefix_rowEvents_iff.mp hpre
  rw [← rowState_run hs']
  exact h before s' hbefore hs'

end Start

/-- Behind a `START_BINLOG` the counters add up in every state reached exactly when no processed
row header is behind one of another kind since the contributions were cleared. -/
theorem countsAddUp_iff_unmixed (s s₀ : Locals × Shared) (t : Text)
    (hstart : decodeLine s₀ (startBinlogTag ++ t) = .ok s) (lines : List Text) :
    CountsAddUp s lines ↔ Unmixed [] (rowEvents s lines) := by
  constructor
  · exact unmixed_of_countsAddUp hstart
  · intro h before s' hbefore hs'
    rw [unmixed_iff_adds (contributes_start hstart)] at h
    rw [rowState_run hs']
    exact h _ (prefix_rowEvents_iff.mpr ⟨before, s', hbefore, hs', rfl⟩)

/-- A listener that starts on a binlog. -/
def startState : Except Fault (Locals × Shared) :=
  decodeLine ({}, .initial) (startBinlogTag ++ "bin.000001!1!*".toList)

/-- A statement with two rows of one kind. -/
def twoInserts : List Text :=
  ["*!STMT!300!340!1!*".toList, "### INSERT INTO `d`.`t`".toList, "### INSERT INTO `d`.`t`".toList]

theorem countsAddUp_twoInserts : ∃ s, startState = .ok s ∧ CountsAddUp s twoInserts := by
  refine ⟨_, rfl, ?_⟩
  rw [countsAddUp_iff_unmixed _ ({}, .initial) "bin.000001!1!*".toList rfl]
  decide

/-- A statement that inserts a row and updates another. -/
def insertThenUpdate : List Text :=
  ["*!STMT!300!340!1!*".toList, "### INSERT INTO `d`.`t`".toList, "### UPDATE `d`.`t`".toList]

theorem not_countsAddUp_insertThenUpdate :
    ¬∀ (s s₀ : Locals × Shared) (t : Text), decodeLine s₀ (startBinlogTag ++ t) = .ok s →
      ∀ lines : List Text, CountsAddUp s lines := by
  intro h
  have hadd := h _ ({}, .initial) "bin.000001!1!*".toList rfl insertThenUpdate
  have hstart : decodeLine ({}, .initial) (startBinlogTag ++ "bin.000001!1!*".toList) = .ok _ := rfl
  have hmixed := unmixed_of_countsAddUp hstart hadd
  revert hmixed
  decide

end BinlogCapture
