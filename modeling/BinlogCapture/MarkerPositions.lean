import BinlogCapture.PrintedText

/-! The positions of the markers, printed with all their digits and read back through `atol`. -/
namespace BinlogCapture
open CString Fallible LineFeed

/-- The position that the marker of an event at `pos` moves the listener to: the start of a `GTID`
event, the end of a `QUERY` or `XID` event. -/
def LogEvent.checkpoint (ev : LogEvent) (pos : ℕ) : Option ℕ :=
  match ev.data with
  | .gtid _ _ _ _ => some pos
  | .query _ _ _ _ | .xid _ => some ev.logPos
  | _ => none

/-- The tags whose markers carry a start and an end position. -/
def positionTags : List Text := [beginTag, stmtTag, commitTag, queryTag]

/-- The listener reads the two positions from the line, and the position in progress that it
takes from the line is `checkpoint`. -/
def ReadsPositions (line : Text) (start end_ : ℕ) (checkpoint : Option ℕ) : Prop :=
  ∃ tag ∈ positionTags, ∃ t rest, line = tag ++ t ∧ positions t = .ok (start, end_, rest) ∧
    ∀ (seq : BinLogSequence) (loc : Locals), ∃ h, dispatch seq loc line = .ok h ∧
      h.loc.ulPosition = start ∧
      ∀ q, .setInProgess q ∈ h.ops ↔ ∃ p ∈ checkpoint, q = ⟨loc.szBinLogName, p, 0⟩

/-- Every marker that is printed for an event from `start` to `end_` is read back. -/
def PositionsSurvive (start end_ : ℕ) : Prop :=
  ∀ (ev : LogEvent) (ulIndex : ℕ) (line : Text), ev.logPos = end_ →
    line ∈ (completeLines ((ev.marker start ulIndex).getD [])).head? →
    ReadsPositions line start end_ (ev.checkpoint start)

section Tags
variable (start end_ : ℕ) (t : Text)

theorem reads_begin :
    ReadsPositions (beginTag ++ (markerPositions start end_ ++ t)) (clip start) (clip end_)
      (some (clip start)) := by
  refine ⟨beginTag, by decide, _, t, rfl, positions_markerPositions t start end_, ?_⟩
  intro seq loc
  have hdrop : (beginTag ++ (markerPositions start end_ ++ t)).drop 8 =
      markerPositions start end_ ++ t := rfl
  rw [dispatch_begin, beginLine, hdrop, positions_markerPositions]
  exact ⟨_, rfl, rfl, by simp [clip]⟩

theorem reads_stmt :
    ReadsPositions (stmtTag ++ (markerPositions start end_ ++ t)) (clip start) (clip end_)
      none := by
  refine ⟨stmtTag, by decide, _, t, rfl, positions_markerPositions t start end_, ?_⟩
  intro seq loc
  have hdrop : (stmtTag ++ (markerPositions start end_ ++ t)).drop 7 =
      markerPositions start end_ ++ t := rfl
  rw [dispatch_stmt, stmtLine, hdrop, positions_markerPositions]
  exact ⟨_, rfl, rfl, by simp⟩

theorem reads_commit (xid : ℕ) :
    ReadsPositions (commitTag ++ (markerPositions start end_ ++ (decimal xid ++ '!' :: t)))
      (clip start) (clip end_) (some (clip end_)) := by
  refine ⟨commitTag, by decide, _, _, rfl, positions_markerPositions _ start end_, ?_⟩
  intro seq loc
  have hdrop : (commitTag ++ (markerPositions start end_ ++ (decimal xid ++ '!' :: t))).drop 9 =
      markerPositions start end_ ++ (decimal xid ++ '!' :: t) := rfl
  have hxid : field (decimal xid ++ '!' :: t) = .ok (decimal xid, t) := by
    simp only [field, strchr_append (not_mem_decimal (c := '!') (by decide) xid)]
  rw [dispatch_commit, commitLine, hdrop, positions_markerPositions, ok_bind]
  simp only [hxid, ok_bind]
  exact ⟨_, rfl, rfl, by simp [clip]⟩

theorem reads_query :
    ReadsPositions (queryTag ++ (markerPositions start end_ ++ t)) (clip start) (clip end_)
      (some (clip end_)) := by
  refine ⟨queryTag, by decide, _, t, rfl, positions_markerPositions t start end_, ?_⟩
  intro seq loc
  have hdrop : (queryTag ++ (markerPositions start end_ ++ t)).drop 8 =
      markerPositions start end_ ++ t := rfl
  rw [dispatch_query, queryLine, hdrop, positions_markerPositions]
  exact ⟨_, rfl, rfl, by simp [clip]⟩

end Tags

theorem mem_marker_line {line tag t : Text} (htag : '\n' ∉ tag) (ht : '\n' ∉ t) {start end_ : ℕ}
    (h : line ∈ (completeLines (textLine (tag ++ (markerPositions start end_ ++ t)))).head?) :
    line = tag ++ (markerPositions start end_ ++ t) := by
  rw [completeLines_marker htag ht] at h
  exact (Option.mem_some.mp h).symm

/-- What is read back is the smaller of the position and the largest value of a 32-bit `long`. -/
theorem reads_marker {ev : LogEvent} {start ulIndex : ℕ} {line : Text}
    (hline : line ∈ (completeLines ((ev.marker start ulIndex).getD [])).head?) :
    ReadsPositions line (clip start) (clip ev.logPos) ((ev.checkpoint start).map clip) := by
  have hdec := newline_not_mem_decimal
  unfold LogEvent.marker at hline
  unfold LogEvent.checkpoint
  cases hd : ev.data with
  | gtid seqNo summary settings standalone =>
    rw [hd] at hline
    rw [mem_marker_line (by decide) (by simp [hdec]) hline]
    exact reads_begin start ev.logPos _
  | query summary useDb settings query =>
    rw [hd] at hline
    obtain ⟨u, hu⟩ := completeLines_queryMarker start ev.logPos
      (query ++ '!' :: decimal ulIndex ++ ['!'])
    simp only [Option.getD_some, queryMarker, hu, List.head?_cons, Option.mem_some_iff] at hline
    rw [← hline]
    exact reads_query start ev.logPos u
  | xid xid =>
    rw [hd] at hline
    rw [mem_marker_line (by decide) (by simp [hdec]) hline]
    exact reads_commit start ev.logPos _ xid
  | rows e =>
    rw [hd] at hline
    dsimp only at hline
    split at hline
    · rw [mem_marker_line (by decide) (by simp [hdec]) hline]
      exact reads_stmt start ev.logPos _
    · cases hline
  | _ =>
    rw [hd] at hline
    cases hline

/-- The marker of the end of a transaction carries both positions. -/
theorem PositionsSurvive.lt {start end_ : ℕ} (h : PositionsSurvive start end_) :
    start < 2 ^ 31 ∧ end_ < 2 ^ 31 := by
  obtain ⟨line, hl⟩ : ∃ line, line ∈ (completeLines ((LogEvent.marker
      ⟨0, end_, false, ⟨⟨['7'], by decide⟩, rfl⟩, .xid 0⟩ start 0).getD [])).head? := by
    refine ⟨commitTag ++ (markerPositions start end_ ++ "0!0!*".toList), ?_⟩
    have hlines := completeLines_marker (show '\n' ∉ commitTag by decide) (t := "0!0!*".toList)
      (by decide) start end_
    exact hlines ▸ rfl
  obtain ⟨tag, htag, t, rest, hline, hpos, -⟩ := h _ _ line rfl hl
  obtain ⟨tag', htag', t', rest', hline', hpos', -⟩ := reads_marker hl
  have hsame : tag = tag' := by
    have hapart : ∀ p ∈ positionTags, ∀ q ∈ positionTags, p = q ∨ Apart p q := by decide
    apply (hapart tag htag tag' htag').resolve_right
    intro ha
    have hs := startsWith_apart t ha
    rw [← hline, hline', startsWith_append] at hs
    exact Bool.noConfusion hs
  rw [hline, hsame, List.append_cancel_left_eq] at hline'
  rw [hline', hpos'] at hpos
  have heq := Except.ok.inj hpos
  have hstart : clip start = start := (Prod.mk.inj heq).1
  have hend : clip end_ = end_ := (Prod.mk.inj (Prod.mk.inj heq).2).1
  unfold clip at hstart hend
  omega

theorem clip_of_lt {n : ℕ} (h : n < 2 ^ 31) : clip n = n := by
  apply Nat.min_eq_left
  omega

/-- The markers bring positions through the text exactly below 2^31. -/
theorem positionsSurvive_iff (start end_ : ℕ) :
    PositionsSurvive start end_ ↔ start < 2 ^ 31 ∧ end_ < 2 ^ 31 := by
  constructor
  · exact PositionsSurvive.lt
  · rintro ⟨hstart, hend⟩ ev ulIndex line rfl hline
    have h := reads_marker hline
    have hcheck : (ev.checkpoint start).map clip = ev.checkpoint start := by
      unfold LogEvent.checkpoint
      cases ev.data with
      | gtid => exact congrArg some (clip_of_lt hstart)
      | query => exact congrArg some (clip_of_lt hend)
      | xid => exact congrArg some (clip_of_lt hend)
      | _ => rfl
    rw [clip_of_lt hstart, clip_of_lt hend, hcheck] at h
    exact h

/-- The end of an event that crosses 2 GiB is not read back. -/
theorem not_positionsSurvive_2147483648 :
    ¬∀ start end_ : ℕ, start < 2 ^ 32 → end_ < 2 ^ 32 → PositionsSurvive start end_ := by
  intro h
  have hlt := (h 2147483617 2147483648 (by decide) (by decide)).lt
  omega

end BinlogCapture
