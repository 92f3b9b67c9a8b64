import BinlogCapture.ListenerRun
import BinlogCapture.LongLine
import Mathlib.Data.List.Induction

/-! Large column values: on the lines printed for row statements the listener is the unbounded
one exactly as long as the kept part of a long line still reads as a column. -/
namespace BinlogCapture
open CString Fallible LineFeed

/-- A printed column line `###   @N=...`. -/
def ColumnText (line : Text) : Prop :=
  ∃ (n : ℕ) (v : Text), n < 2 ^ 32 ∧ line = columnPrefix ++ decimal n ++ '=' :: v

/-- The lines printed for row statements: those that outgrow the buffer are columns, each of an
open image of a row. -/
structure RowLines (env : Env) (core : Listener) (lines : List Text) : Prop where
  clean : ∀ l ∈ lines, nul ∉ l ∧ '\n' ∉ l
  separated : WellSeparated env core lines
  long : ∀ before line after s, lines = before ++ line :: after →
    before.foldlM (refLine env) core = .ok s →
    env.iMaxBufferLine < line.length + 2 * iLenBufferOut →
    ColumnText line ∧ s.loc.bDataColumnInProgress = true

/-- The capture file holds the complete lines of what was read, then possibly a part of the
unfinished one, and each line has left the flags that the unbounded listener leaves. -/
def Transparent (env : Env) (core : Listener) (fuel : ℕ) (mem : Text) (chunks : List Text) : Prop :=
  ∃ s ref rest part, listen env fuel (.start core mem) chunks = .ok s ∧
    feed '\n' (refLine env) (core, []) chunks.flatten = .ok (ref, rest) ∧ part <+: rest ∧
    s.core.capture.listened = core.capture.listened ++
      unlines '\n' (split '\n' [] chunks.flatten).1 ++ part ∧
    s.core.records.map LineRecord.flags = ref.records.map LineRecord.flags

/-- When a read ends a line of which a part is already written, the part kept in `szLine` still
begins as a column line. -/
def KeptColumns (env : Env) (core : Listener) (fuel : ℕ) (mem : Text) (chunks : List Text) : Prop :=
  ∀ before chunk after s, chunks = before ++ chunk :: after →
    listen env fuel (.start core mem) before = .ok s → s.fLob = true → '\n' ∈ chunk →
    IsColumn s.szLine

theorem isColumn_of_isPrefix {line rest : Text} (h : ColumnText line) (hrest : rest <+: line)
    (hlen : 2 * iLenBufferOut < rest.length) : IsColumn rest := by
  obtain ⟨n, v, hn, rfl⟩ := h
  have hdigits : (decimal n).length ≤ 10 :=
    (Nat.length_toDigits_le_iff (by decide) (by decide)).mpr (by omega)
  have hhead : columnPrefix ++ decimal n ++ ['='] <+: rest := by
    refine List.prefix_of_prefix_length_le ⟨v, by simp⟩ hrest ?_
    have hcol : columnPrefix.length = 7 := rfl
    simp only [List.length_append, List.length_singleton, hcol]
    unfold iLenBufferOut at hlen
    omega
  obtain ⟨u, rfl⟩ := hhead
  constructor
  · exact ⟨decimal n ++ ['='] ++ u, by simp⟩
  · have hcol : columnPrefix.length = 7 := rfl
    rw [← hcol]
    simp

section RowLines
variable {env : Env} {core : Listener} {lines : List Text}

/-- On a beginning of the stream the unbounded listener completes, and what it has pending is
short or a column of an open row. -/
theorem RowLines.feed_isPrefix (henv : 4 * iLenBufferOut ≤ env.iMaxBufferLine)
    (h : RowLines env core lines) {t : Text} (ht : t <+: unlines '\n' lines) :
    ∃ p, feed '\n' (refLine env) (core, []) t = .ok p ∧ LongIsColumn env p.1 p.2 := by
  rw [feed_eq_foldlM]
  obtain ⟨out, hout⟩ := (foldlM_refLine_ok_iff lines core).mpr h.separated
  rcases split_of_prefix_unlines '\n' (fun l hl => (h.clean l hl).2) ht with
    ⟨hlines, hnil⟩ | ⟨l, after, hlines, hp⟩
  · refine ⟨(out, []), by rw [hlines, hnil, hout]; rfl, fun hlong => ?_⟩
    rw [List.length_nil] at hlong
    omega
  · have hrun := hout
    rw [hlines, List.foldlM_append] at hrun
    obtain ⟨s, hs, -⟩ := bind_eq_ok_iff.mp hrun
    refine ⟨(s, (split '\n' [] t).2), by rw [hs]; rfl, fun hlong => ?_⟩
    have hlen := hp.length_le
    dsimp only at hlong
    obtain ⟨hcol, hdc⟩ := h.long _ l after s hlines hs (by omega)
    have hrest : 2 * iLenBufferOut < (split '\n' [] t).2.length := by omega
    exact ⟨isColumn_of_isPrefix hcol hp hrest, hdc⟩

/-- A run whose long lines keep reading as columns follows the unbounded listener. -/
theorem listen_follows (henv : 4 * iLenBufferOut ≤ env.iMaxBufferLine)
    (hn : core.loc.Nested) (hlines : RowLines env core lines) {fuel : ℕ}
    (hfuel : iLenBufferOut < fuel) (mem : Text) (chunks : List Text)
    (hreads : ∀ c ∈ chunks, IsRead c) (hpre : chunks.flatten <+: unlines '\n' lines)
    (hkept : KeptColumns env core fuel mem chunks) :
    ∃ s p, listen env fuel (.start core mem) chunks = .ok s ∧
      feed '\n' (refLine env) (core, []) chunks.flatten = .ok p ∧ Follows env s p.1 p.2 ∧
      nul ∉ p.2 := by
  induction chunks using List.reverseRecOn with
  | nil =>
    have hready := ready_start core mem (show iLenBufferOut ≤ env.iMaxBufferLine by omega)
    exact ⟨_, _, rfl, rfl, ⟨core, rfl, hn, .inl hready⟩, by simp⟩
  | append_singleton before chunk ih =>
    rw [List.flatten_append, List.flatten_singleton] at hpre ⊢
    obtain ⟨s, p, hs, hp, hfollows, hnul⟩ := ih (fun c hc => hreads c (by simp [hc]))
      ((List.prefix_append _ _).trans hpre) fun b c a t hsplit =>
        hkept b c (a ++ [chunk]) t (by simp [hsplit])
    have hread := hreads chunk (by simp)
    obtain ⟨q, hq, -⟩ := hlines.feed_isPrefix henv hpre
    have hfeed : feed '\n' (refLine env) p chunk = .ok q := by
      rw [feed_append, hp, ok_bind] at hq
      exact hq
    have hstep := read_follows henv hfollows hnul hread hfuel
      (fun q' hq' => by
        obtain ⟨r, hr, hlong⟩ := hlines.feed_isPrefix henv hpre
        rw [feed_append, hp, ok_bind] at hr
        rw [show q' = r from Except.ok.inj (hq'.symm.trans hr)]
        exact hlong)
      (hkept before chunk [] s rfl hs)
    rw [show feed '\n' (refLine env) (p.1, p.2) chunk = .ok q from hfeed] at hstep
    obtain ⟨s', hs', hfollows'⟩ := hstep.of_ok_left
    refine ⟨s', q, ?_, hq, hfollows', ?_⟩
    · rw [listen_append, hs, ok_bind, listen_singleton, hs']
    · rw [feed_rest '\n' _ (show feed '\n' _ (p.1, p.2) chunk = .ok (q.1, q.2) from hfeed)]
      intro hm
      have := mem_of_mem_split_rest '\n' hm
      simp only [List.mem_append, hnul, hread.2.2, or_self] at this

theorem forget_flags (rs : List LineRecord) :
    (rs.map LineRecord.forget).map LineRecord.flags = rs.map LineRecord.flags := by
  rw [List.map_map]
  rfl

theorem flags_of_forget_eq {s t : Listener} (h : s.forget = t.forget) :
    s.records.map LineRecord.flags = t.records.map LineRecord.flags := by
  rw [← forget_flags, (eq_of_forget_eq h).2, forget_flags]

/-- A listener that follows the unbounded one has its records, and its bytes but for a part of
the unfinished line. -/
theorem Follows.records {s : Buffered} {ref : Listener} {rest : Text}
    (h : Follows env s ref rest) :
    s.core.records.map LineRecord.flags = ref.records.map LineRecord.flags ∧
      ∃ part, part <+: rest ∧ s.core.capture.listened = ref.capture.listened ++ part := by
  obtain ⟨c, hf, -, hready | hlob⟩ := h
  · rw [hready.core_eq]
    refine ⟨flags_of_forget_eq hf, [], List.nil_prefix, ?_⟩
    rw [List.append_nil, (eq_of_forget_eq hf).1]
  · obtain ⟨frag, part, tail, hrest, hcore, -⟩ := hlob.parts
    have hflags : s.core.records.map LineRecord.flags = c.records.map LineRecord.flags := by
      rw [hcore]
      rfl
    refine ⟨hflags.trans (flags_of_forget_eq hf), frag, ⟨part, hrest.symm⟩, ?_⟩
    rw [hcore, (eq_of_forget_eq hf).1]
    exact Capture.listened_write env c.capture frag

theorem lineFeed_lob_line {s s' : Buffered} (hstart : s.startLine = 0) (hlob : s.fLob = true)
    (hline : nul ∉ s.szLine) (h : s.lineFeed env = .ok s') :
    ∃ entry column, s.core.lineEnd env entry s.szLine true = .ok (s'.core, column) := by
  have hstr : strAt (s.szLine ++ nul :: s.szBufferStdOut.drop (s.szLine.length + 1)) 0 =
      s.szLine := strAt_zero_append hline _
  unfold Buffered.lineFeed at h
  simp only [hlob, hstart, ↓reduceIte, strcpy_zero, poke_nul, hstr] at h
  obtain ⟨r, hr, h⟩ := bind_eq_ok_iff.mp h
  cases h
  exact ⟨_, r.2, hr⟩

theorem lineEnd_not_column {s s' : Listener} {entry line : Text} {column : Bool}
    (hcol : ¬IsColumn line) (h : s.lineEnd env entry line true = .ok (s', column)) :
    ∃ r, s'.records = s.records ++ [r] ∧ r.fLob = true := by
  rw [lineEnd_eq] at h
  obtain ⟨hh, hr, he⟩ := map_eq_ok_iff.mp h
  rw [← (Prod.mk.inj he).1]
  have hf : hh.column = false := by
    cases hc : hh.column with
    | false => rfl
    | true => exact absurd (isColumn_of_handleLine hr hc) hcol
  exact ⟨_, rfl, by simp [lineRecord, hf]⟩

/-- A line that ends while the kept part does not read as a column leaves a record that is still
inside a long line. -/
theorem read_lob_not_column {fuel : ℕ} {s s' : Buffered} {rest chunk : Text}
    (h : ReadyLob env s core rest) (hchunk : nul ∉ chunk) (hnl : '\n' ∈ chunk)
    (hcol : ¬IsColumn s.szLine) (hread : s.read env fuel chunk = .ok s') :
    ∃ r more, s'.core.records = s.core.records ++ r :: more ∧ r.fLob = true := by
  obtain ⟨⟨frag, part, tail, rfl, hcore, hbuf, hb⟩, hstart, hlob, -, -, -, hline⟩ := h
  obtain ⟨seg, todo, rfl, hseg⟩ : ∃ seg todo, chunk = seg ++ '\n' :: todo ∧ '\n' ∉ seg := by
    cases hc : strchr '\n' chunk with
    | none => exact absurd hnl (strchr_eq_none_iff.mp hc)
    | some r => exact ⟨r.1, r.2, strchr_eq_some hc⟩
  cases fuel with
  | zero => simp [Buffered.read, Buffered.scan, Except.map] at hread
  | succ fuel =>
    have hpoke : poke s.szBufferStdOut s.bufferStart (seg ++ '\n' :: todo ++ [nul]) =
        part ++ ((seg ++ '\n' :: todo) ++ nul ::
          tail.drop ((seg ++ '\n' :: todo).length + 1)) := by
      rw [hbuf, poke_append hb]
      simp [Nat.add_assoc]
    obtain ⟨t, ht, rfl⟩ := map_eq_ok_iff.mp hread
    have htext := strAt_append hb hchunk (tail.drop ((seg ++ '\n' :: todo).length + 1))
    rw [hpoke, scan_some (r := (seg, todo)) (terminated_of_eq rfl hb)
      (by rw [htext, strchr_append hseg])] at ht
    obtain ⟨s₁, hs₁, ht⟩ := bind_eq_ok_iff.mp ht
    have hmem : part ++ ((seg ++ '\n' :: todo) ++ nul ::
        tail.drop ((seg ++ '\n' :: todo).length + 1)) = [] ++ ((part ++ seg) ++ '\n' ::
          (todo ++ nul :: tail.drop ((seg ++ '\n' :: todo).length + 1))) := by
      simp only [List.append_assoc, List.cons_append, List.nil_append]
    have hw : s.bufferStart + seg.length = ([] : Text).length + (part ++ seg).length := by
      rw [hb, List.length_append, List.length_nil, Nat.zero_add]
    generalize hu : ({ s with
      szBufferStdOut := part ++ ((seg ++ '\n' :: todo) ++ nul ::
        tail.drop ((seg ++ '\n' :: todo).length + 1))
      work := s.bufferStart + seg.length } : Buffered) = u at hs₁
    have hucore : u.core = s.core := by rw [← hu]
    have hustart : u.startLine = 0 := by rw [← hu]; exact hstart
    have huline : u.szLine = s.szLine := by rw [← hu]
    obtain ⟨entry, column, hend⟩ := lineFeed_lob_line hustart (by rw [← hu]; exact hlob)
      (by rw [huline]; exact hline) hs₁
    rw [hucore, huline] at hend
    obtain ⟨r, hr, hrlob⟩ := lineEnd_not_column hcol hend
    obtain ⟨-, hwork, hlen⟩ := lineFeed_holds ⟨[], (by rw [← hu]; exact hmem),
      hustart, (by rw [← hu]; exact hw)⟩ hs₁
    have hmore := steps_records (scan_steps env fuel s₁ t [] (hwork ▸ holds_nil hlen) ht).1
    obtain ⟨more, hmore⟩ := hmore
    refine ⟨r, more, ?_, hrlob⟩
    have hrefill : (t.refill env).core.records = t.core.records := by
      unfold Buffered.refill
      split_ifs <;> rfl
    rw [hrefill, ← hmore, hr]
    simp

end RowLines

theorem refLine_records {env : Env} {ref ref' : Listener} {rest rest' t : Text}
    (h : feed '\n' (refLine env) (ref, rest) t = .ok (ref', rest')) :
    ∃ rs : List LineRecord, ref'.records = ref.records ++ rs ∧ ∀ r ∈ rs, r.fLob = false := by
  rw [feed_eq_foldlM] at h
  obtain ⟨out, hout, he⟩ := map_eq_ok_iff.mp h
  obtain ⟨-, rs, hrs, -, hlob⟩ := refLine_delivers _ _ _ hout
  exact ⟨rs, by rw [← (Prod.mk.inj he).1, hrs], hlob⟩

theorem KeptColumns.of_isPrefix {env : Env} {core : Listener} {fuel : ℕ} {mem : Text}
    {before chunks : List Text} (h : KeptColumns env core fuel mem chunks)
    (hpre : before <+: chunks) : KeptColumns env core fuel mem before := by
  obtain ⟨after, rfl⟩ := hpre
  exact fun b c a s hsplit => h b c (a ++ after) s (by simp [hsplit])

section Runs
variable {env : Env} {core : Listener} {lines : List Text} {fuel : ℕ} {mem : Text}

theorem transparent_of_kept (henv : 4 * iLenBufferOut ≤ env.iMaxBufferLine)
    (hn : core.loc.Nested) (hlines : RowLines env core lines) (hfuel : iLenBufferOut < fuel)
    {chunks : List Text} (hreads : ∀ c ∈ chunks, IsRead c)
    (hpre : chunks.flatten <+: unlines '\n' lines) (hkept : KeptColumns env core fuel mem chunks) :
    Transparent env core fuel mem chunks := by
  obtain ⟨s, p, hs, hp, hfollows, -⟩ := listen_follows henv hn hlines hfuel mem chunks hreads
    hpre hkept
  obtain ⟨hflags, part, hpart, hbytes⟩ := hfollows.records
  refine ⟨s, p.1, p.2, part, hs, hp, hpart, ?_, hflags⟩
  rw [feed_eq_foldlM] at hp
  obtain ⟨out, hout, rfl⟩ := map_eq_ok_iff.mp hp
  rw [hbytes, (refLine_delivers _ _ _ hout).capture]

/-- A read that ends a long line which no longer reads as a column is not transparent. -/
theorem kept_of_transparent (henv : 4 * iLenBufferOut ≤ env.iMaxBufferLine)
    (hn : core.loc.Nested) (hlines : RowLines env core lines) (hfuel : iLenBufferOut < fuel)
    {init : List Text} {last : Text} (hreads : ∀ c ∈ init ++ [last], IsRead c)
    (hpre : (init ++ [last]).flatten <+: unlines '\n' lines)
    (hkept : KeptColumns env core fuel mem init)
    (htrans : Transparent env core fuel mem (init ++ [last])) {s : Buffered}
    (hs : listen env fuel (.start core mem) init = .ok s) (hlob : s.fLob = true)
    (hnl : '\n' ∈ last) : IsColumn s.szLine := by
  rw [List.flatten_append, List.flatten_singleton] at hpre
  obtain ⟨t, p, ht, hp, hfollows, -⟩ := listen_follows henv hn hlines hfuel mem init
    (fun c hc => hreads c (by simp [hc])) ((List.prefix_append _ _).trans hpre) hkept
  obtain rfl : t = s := Except.ok.inj (ht.symm.trans hs)
  by_contra hcol
  obtain ⟨s', ref, rest, part, hs', href, -, -, hflags⟩ := htrans
  rw [listen_append, hs, ok_bind, listen_singleton] at hs'
  obtain ⟨c, -, -, hready | hready⟩ := id hfollows
  · exact absurd (hready.fLob_eq.symm.trans hlob) Bool.false_ne_true
  · obtain ⟨r, more, hr, hrlob⟩ := read_lob_not_column hready (hreads last (by simp)).2.2 hnl
      hcol hs'
    rw [List.flatten_append, List.flatten_singleton, feed_append, hp, ok_bind] at href
    obtain ⟨rs, hrs, hrslob⟩ := refLine_records href
    rw [hr, hrs, List.map_append, List.map_append, hfollows.records.1] at hflags
    have htail := List.append_cancel_left hflags
    cases rs with
    | nil => simp at htail
    | cons r' rs =>
      rw [List.map_cons, List.map_cons, List.cons.injEq] at htail
      have hfl : r.fLob = r'.fLob := congrArg (fun f => f.2.2.2.1) htail.1
      rw [hrlob, hrslob r' (by simp)] at hfl
      exact absurd hfl.symm Bool.false_ne_true

end Runs

/-- A run on the lines of row statements is transparent after every read exactly when each long
line that ends is still seen as a column. -/
theorem transparent_iff_kept_columns (env : Env) (henv : 4 * iLenBufferOut ≤ env.iMaxBufferLine)
    (core : Listener) (hn : core.loc.Nested) (lines : List Text)
    (hlines : RowLines env core lines) (fuel : ℕ) (hfuel : iLenBufferOut < fuel) (mem : Text)
    (chunks : List Text) (hreads : ∀ c ∈ chunks, IsRead c)
    (hpre : chunks.flatten <+: unlines '\n' lines) :
    (∀ before, before <+: chunks → Transparent env core fuel mem before) ↔
      KeptColumns env core fuel mem chunks := by
  constructor
  · intro htrans
    induction chunks using List.reverseRecOn with
    | nil =>
      intro before chunk after s hsplit
      simp at hsplit
    | append_singleton init last ih =>
      have hpre' : init.flatten <+: unlines '\n' lines := by
        rw [List.flatten_append] at hpre
        exact (List.prefix_append _ _).trans hpre
      have hinit := ih (fun c hc => hreads c (by simp [hc])) hpre' fun b hb =>
        htrans b (hb.trans (List.prefix_append _ _))
      intro before chunk after s hsplit hs hlob hnl
      rcases List.eq_nil_or_concat' after with rfl | ⟨after, x, rfl⟩
      · obtain ⟨rfl, hlast⟩ := List.append_inj' hsplit rfl
        obtain rfl : last = chunk := by simpa using hlast
        exact kept_of_transparent henv hn hlines hfuel hreads hpre hinit
          (htrans _ List.prefix_rfl) hs hlob hnl
      · rw [← List.cons_append, ← List.append_assoc] at hsplit
        obtain ⟨rfl, -⟩ := List.append_inj' hsplit rfl
        exact hinit before chunk after s rfl hs hlob hnl
  · intro hkept before hbefore
    obtain ⟨after, rfl⟩ := hbefore
    have hpre' : before.flatten <+: unlines '\n' lines := by
      rw [List.flatten_append] at hpre
      exact (List.prefix_append _ _).trans hpre
    exact transparent_of_kept henv hn hlines hfuel (fun c hc => hreads c (by simp [hc])) hpre'
      (hkept.of_isPrefix (List.prefix_append _ _))

/-- The default settings with the smallest line buffer. -/
def Env.small : Env := { Env.default with iMaxBufferLine := 8 * 1024 }

/-- The lines of an insert of one row whose only column has the value `v`. -/
def insertRow (v : Text) : List Text :=
  ["*!STMT!4!10!1!*".toList, "### INSERT INTO `d`.`t`".toList, "### SET".toList,
    columnPrefix ++ decimal 1 ++ '=' :: v, "*!COMMIT!10!20!7!1!*".toList]

theorem separated_of_not_column {line : Text} (hcol : startsWith line columnPrefix = false)
    (h : MarkerSeparated line) (loc : Locals) : Separated loc line := by
  by_cases hrow : loc.bStartOfStmt && startsWith line rowPrefix
  · rw [Separated, if_pos hrow, hcol, Bool.and_false]
    exact fun hf => absurd hf Bool.false_ne_true
  · rw [Separated, if_neg hrow]
    exact h

theorem separated_column {n : ℕ} {v : Text} (loc : Locals) :
    Separated loc (columnPrefix ++ decimal n ++ '=' :: v) := by
  by_cases hrow : loc.bStartOfStmt && startsWith (columnPrefix ++ decimal n ++ '=' :: v) rowPrefix
  · rw [Separated, if_pos hrow, List.append_assoc]
    intro _
    show '=' ∈ decimal n ++ '=' :: v
    exact List.mem_append_right _ List.mem_cons_self
  · rw [Separated, if_neg hrow, List.append_assoc]
    exact trivial

theorem insertRow_separated (v : Text) : ∀ l ∈ insertRow v, ∀ loc, Separated loc l := by
  simp only [insertRow, List.forall_mem_cons, List.not_mem_nil, false_implies, implies_true,
    and_true]
  refine ⟨?_, ?_, ?_, fun loc => separated_column loc, ?_⟩
  all_goals exact separated_of_not_column rfl (by unfold MarkerSeparated; decide)

theorem insertRow_clean {v : Text} (hv : nul ∉ v ∧ '\n' ∉ v) :
    ∀ l ∈ insertRow v, nul ∉ l ∧ '\n' ∉ l := by
  simp only [insertRow, List.forall_mem_cons, List.not_mem_nil, false_implies, implies_true,
    and_true]
  refine ⟨by decide, by decide, by decide, ?_, by decide⟩
  simp only [List.mem_append, List.mem_cons, not_or]
  exact ⟨⟨by decide, by decide, hv.1⟩, ⟨by decide, by decide, hv.2⟩⟩

/-- The column line comes in an open image, however long its value is. -/
theorem insertRow_rowLines {v : Text} (hv : nul ∉ v ∧ '\n' ∉ v) :
    RowLines .small (.initial .small) (insertRow v) where
  clean := insertRow_clean hv
  separated := fun before line after s hsplit _ =>
    insertRow_separated v line (by simp [hsplit]) _
  long := by
    intro before line after s hsplit hs hlong
    have hmax : Env.small.iMaxBufferLine = 4 * iLenBufferOut := rfl
    have hlen (l : Text) (hl : l.length ≤ 100) (he : line = l) : False := by
      rw [he, hmax] at hlong
      unfold iLenBufferOut at hlong
      omega
    unfold insertRow at hsplit
    rcases before with _ | ⟨a, _ | ⟨b, _ | ⟨c, _ | ⟨d, _ | ⟨e, before⟩⟩⟩⟩⟩
    · exact (hlen _ (by decide) (List.cons.inj hsplit).1.symm).elim
    · simp only [List.cons_append, List.nil_append, List.cons.injEq] at hsplit
      exact (hlen _ (by decide) hsplit.2.1.symm).elim
    · simp only [List.cons_append, List.nil_append, List.cons.injEq] at hsplit
      exact (hlen _ (by decide) hsplit.2.2.1.symm).elim
    · simp only [List.cons_append, List.nil_append, List.cons.injEq] at hsplit
      obtain ⟨rfl, rfl, rfl, rfl, rfl⟩ := hsplit
      refine ⟨⟨1, v, by decide, rfl⟩, ?_⟩
      have hdc : (["*!STMT!4!10!1!*".toList, "### INSERT INTO `d`.`t`".toList,
          "### SET".toList].foldlM (refLine .small) (.initial .small)).map
            (fun s => s.loc.bDataColumnInProgress) = .ok true := rfl
      rw [hs] at hdc
      exact Except.ok.inj hdc
    · simp only [List.cons_append, List.nil_append, List.cons.injEq] at hsplit
      exact (hlen _ (by decide) hsplit.2.2.2.2.1.symm).elim
    · simp [List.cons.injEq] at hsplit

/-- The text before the value of the column. -/
def insertHead : Text :=
  "*!STMT!4!10!1!*\n### INSERT INTO `d`.`t`\n### SET\n###   @1=".toList

theorem unlines_insertRow (v : Text) :
    unlines '\n' (insertRow v) = insertHead ++ (v ++ '\n' :: "*!COMMIT!10!20!7!1!*\n".toList) := by
  have hhead : "*!STMT!4!10!1!*".toList ++ '\n' :: ("### INSERT INTO `d`.`t`".toList ++ '\n' ::
      ("### SET".toList ++ '\n' :: (columnPrefix ++ decimal 1 ++ ['=']))) = insertHead := rfl
  rw [← hhead]
  simp only [insertRow, unlines_cons, unlines_nil, List.append_assoc, List.cons_append,
    List.nil_append]
  rfl

/-- The buffer holds `part` of a line from `startLine` on, and the next read goes behind it. -/
def PartAt (s : Buffered) (pre part : Text) : Prop :=
  (∃ tail, s.szBufferStdOut = pre ++ (part ++ tail)) ∧ s.startLine = pre.length ∧
    s.bufferStart = pre.length + part.length

section Filling
variable (env : Env) {fuel : ℕ} {s : Buffered} {pre part chunk : Text}

theorem read_room (h : PartAt s pre part) (hchunk : nul ∉ chunk) (hn : '\n' ∉ chunk)
    (hfuel : 0 < fuel)
    (hroom : s.bufferStart + chunk.length + iLenBufferOut ≤ env.iMaxBufferLine) :
    ∃ s', s.read env fuel chunk = .ok s' ∧ PartAt s' pre (part ++ chunk) ∧ s'.core = s.core := by
  obtain ⟨⟨tail, hbuf⟩, hstart, hb⟩ := h
  rw [read_part hbuf hb hchunk hn hfuel, refill_room hroom]
  refine ⟨_, rfl, ⟨⟨_, rfl⟩, hstart, ?_⟩, rfl⟩
  simp [hb, Nat.add_assoc]

theorem listen_room (hchunk : nul ∉ chunk) (hn : '\n' ∉ chunk) (hfuel : 0 < fuel) :
    ∀ (n : ℕ) {s : Buffered} {part : Text}, PartAt s pre part →
      s.bufferStart + n * chunk.length + iLenBufferOut ≤ env.iMaxBufferLine →
      ∃ s', listen env fuel s (List.replicate n chunk) = .ok s' ∧
        PartAt s' pre (part ++ (List.replicate n chunk).flatten) ∧ s'.core = s.core := by
  intro n
  induction n with
  | zero => exact fun {s} {part} h _ => ⟨s, rfl, by simpa using h, rfl⟩
  | succ n ih =>
    intro s part h hroom
    rw [Nat.succ_mul] at hroom
    obtain ⟨s₁, hs₁, h₁, hc₁⟩ := read_room env h hchunk hn hfuel (by omega)
    have hb₁ : s₁.bufferStart = s.bufferStart + chunk.length := by
      rw [h₁.2.2, h.2.2, List.length_append, Nat.add_assoc]
    obtain ⟨s', hs', h', hc'⟩ := ih (s := s₁) h₁ (by rw [hb₁]; omega)
    refine ⟨s', ?_, ?_, hc'.trans hc₁⟩
    · rw [listen, List.replicate_succ, List.foldlM_cons, hs₁, ok_bind]
      exact hs'
    · rw [List.replicate_succ, List.flatten_cons, ← List.append_assoc]
      exact h'

theorem read_full (h : PartAt s pre part) (hchunk : nul ∉ chunk) (hn : '\n' ∉ chunk)
    (hfuel : 0 < fuel) (hdc : s.core.loc.bDataColumnInProgress = true)
    (hpre : pre.length < iLenBufferOut)
    (hfull : s.bufferStart + chunk.length + iLenBufferOut > env.iMaxBufferLine) :
    ∃ s', s.read env fuel chunk = .ok s' ∧ PartAt s' [] [] ∧ s'.core.loc = s.core.loc ∧
      s'.fLob = true ∧ s'.szLine = strAt (part ++ chunk) 0 := by
  obtain ⟨⟨tail, hbuf⟩, hstart, hb⟩ := h
  rw [read_part hbuf hb hchunk hn hfuel]
  rw [refill_lob (s := { s with
      szBufferStdOut := pre ++ ((part ++ chunk) ++ nul :: tail.drop (chunk.length + 1))
      work := s.bufferStart + chunk.length }) hfull (by rw [hstart]; exact hpre) hdc rfl hstart
    (by simp [hb, Nat.add_assoc])]
  exact ⟨_, rfl, ⟨⟨_, rfl⟩, rfl, rfl⟩, rfl, rfl, rfl⟩

end Filling

def xs (n : ℕ) : Text := List.replicate n 'x'

@[simp] theorem length_xs (n : ℕ) : (xs n).length = n := List.length_replicate

theorem xs_append (m n : ℕ) : xs m ++ xs n = xs (m + n) := List.replicate_append_replicate

theorem xs_flatten (m n : ℕ) : (List.replicate m (xs n)).flatten = xs (m * n) :=
  List.flatten_replicate_replicate

theorem xs_clean (n : ℕ) : nul ∉ xs n ∧ '\n' ∉ xs n := by
  constructor
  all_goals
    intro h
    exact absurd (List.eq_of_mem_replicate h) (by decide)

/-- The first read, whatever the buffer held before. -/
theorem read_first {env : Env} {fuel : ℕ} {core core' : Listener} {t rest : Text} (mem : Text)
    (hfeed : feed '\n' (refLine env) (core, []) t = .ok (core', rest)) (ht : nul ∉ t)
    (hfuel : t.length < fuel) (hroom : t.length + iLenBufferOut ≤ env.iMaxBufferLine) :
    ∃ s pre, Buffered.read env fuel (.start core mem) t = .ok s ∧ PartAt s pre rest ∧
      pre.length + rest.length = t.length ∧ s.core = core' := by
  have hread : Buffered.read env fuel (.start core mem) t = (Buffered.scan env fuel
      { Buffered.start core mem with szBufferStdOut := strcpy mem 0 t }).map
        (Buffered.refill env) := rfl
  have hscan := scan_plain env fuel
    { Buffered.start core mem with szBufferStdOut := strcpy mem 0 t }
    [] [] t (mem.drop (t.length + 1)) (strcpy_zero mem t) rfl rfl (by simp) ht rfl hfuel
  rw [show (Buffered.start core mem).core = core from rfl, hfeed] at hscan
  obtain ⟨s, hs, ⟨hcore, ⟨pre, tail, hbuf, hstart, hwork⟩, -⟩, hw⟩ := hscan.of_ok_left
  have hw : s.work = t.length := hw.trans (Nat.zero_add _)
  rw [hread, hs]
  refine ⟨s.refill env, pre, rfl, ?_, hwork.symm.trans hw, ?_⟩
  · rw [refill_room (by rw [hw]; exact hroom)]
    exact ⟨⟨_, hbuf⟩, hstart, hwork⟩
  · rw [refill_room (by rw [hw]; exact hroom)]
    exact hcore

/-- What the text before the value leaves. -/
theorem read_insertHead (mem : Text) :
    ∃ s pre, Buffered.read .small 2049 (.start (.initial .small) mem) insertHead = .ok s ∧
      PartAt s pre "###   @1=".toList ∧ pre.length = 48 ∧ s.core.loc.Nested ∧
      s.core.loc.bDataColumnInProgress = true := by
  have hfeed : (feed '\n' (refLine .small) (Listener.initial .small, []) insertHead).map
      (fun p => (p.1.loc.bStartOfStmt, p.1.loc.bQueryInProgress, p.1.loc.bDataColumnInProgress,
        p.2)) = .ok (true, true, true, "###   @1=".toList) := rfl
  have hlength : insertHead.length = 57 := rfl
  obtain ⟨⟨core, rest⟩, hp, he⟩ := map_eq_ok_iff.mp hfeed
  simp only [Prod.mk.injEq] at he
  obtain ⟨hst, hq, hdc, rfl⟩ := he
  obtain ⟨s, pre, hs, hpart, hlen, hcore⟩ := read_first mem hp (by decide)
    (show insertHead.length < 2049 by rw [hlength]; decide) (by rw [hlength]; decide)
  refine ⟨s, pre, hs, hpart, ?_, ?_⟩
  · rw [hlength] at hlen
    exact Nat.add_right_cancel hlen
  · rw [hcore]
    exact ⟨fun _ => ⟨hq, hst⟩, hdc⟩

/-- Three long reads of the value fill the buffer of 8 KiB, and what is kept is the column. -/
theorem listen_filled_once (mem : Text) {n : ℕ} (hn : 2030 ≤ n) (hn' : n ≤ 2048) :
    ∃ s, listen .small 2049 (.start (.initial .small) mem)
        (insertHead :: (List.replicate 2 (xs n) ++ [xs n])) = .ok s ∧ PartAt s [] [] ∧
      s.fLob = true ∧ s.szLine = "###   @1=".toList ++ xs (3 * n) ∧ s.core.loc.Nested ∧
      s.core.loc.bDataColumnInProgress = true := by
  obtain ⟨hnul, hnl⟩ := xs_clean n
  have hmax : Env.small.iMaxBufferLine = 8192 := rfl
  have hcolumn : "###   @1=".toList.length = 9 := rfl
  obtain ⟨s₀, pre, hs₀, hp₀, hpre, hn₀, hdc⟩ := read_insertHead mem
  have hb₀ : s₀.bufferStart = 57 := by
    rw [hp₀.2.2, hpre, hcolumn]
  obtain ⟨s₁, hs₁, hp₁, hc₁⟩ := listen_room .small hnul hnl (show 0 < 2049 by decide) 2 hp₀
    (by rw [hb₀, length_xs, hmax, iLenBufferOut]; omega)
  have hb₁ : s₁.bufferStart = 57 + 2 * n := by
    rw [hp₁.2.2, xs_flatten, List.length_append, length_xs, hpre, hcolumn]
    omega
  obtain ⟨s₂, hs₂, hp₂, hc₂, hlob, hline⟩ := read_full .small hp₁ hnul hnl
    (show 0 < 2049 by decide) (by rw [hc₁]; exact hdc) (by rw [hpre]; decide)
    (by rw [hb₁, length_xs, hmax, iLenBufferOut]; omega)
  refine ⟨s₂, ?_, hp₂, hlob, ?_, ?_, ?_⟩
  · rw [← List.singleton_append, listen_append, listen_singleton, hs₀, ok_bind, listen_append, hs₁,
      ok_bind, listen_singleton, hs₂]
  · have hclean : nul ∉ "###   @1=".toList ++ xs (3 * n) := by
      rw [List.mem_append, not_or]
      exact ⟨by decide, (xs_clean _).1⟩
    rw [hline, xs_flatten, List.append_assoc, xs_append, ← Nat.succ_mul]
    exact List.takeWhile_eq_self_iff.mpr fun c hc => by
      simpa using fun he : c = nul => hclean (he ▸ hc)
  · rw [hc₂, hc₁]
    exact hn₀
  · rw [hc₂, hc₁]
    exact hdc

/-- The reads of a row whose value fills the buffer once. -/
def filledReads : List Text :=
  insertHead :: (List.replicate 2 (xs 2047) ++ [xs 2047]) ++ ["\n*!COMMIT!10!20!7!1!*\n".toList]

theorem filledReads_isRead : ∀ c ∈ filledReads, IsRead c := by
  have hx : IsRead (xs 2047) := ⟨List.ne_nil_of_length_pos (by rw [length_xs]; decide),
    by rw [length_xs]; decide, (xs_clean _).1⟩
  have hhead : IsRead insertHead := by unfold IsRead; decide
  have hlast : IsRead "\n*!COMMIT!10!20!7!1!*\n".toList := by unfold IsRead; decide
  simp only [filledReads, List.forall_mem_append, List.forall_mem_cons, List.not_mem_nil,
    false_implies, implies_true, and_true]
  exact ⟨⟨hhead, fun c hc => List.eq_of_mem_replicate hc ▸ hx, hx⟩, hlast⟩

theorem filledReads_flatten : filledReads.flatten = unlines '\n' (insertRow (xs (3 * 2047))) := by
  have hvalue : xs (2 * 2047) ++ xs 2047 = xs (3 * 2047) := xs_append _ _
  have hend : "\n*!COMMIT!10!20!7!1!*\n".toList = '\n' :: "*!COMMIT!10!20!7!1!*\n".toList := rfl
  rw [unlines_insertRow, ← hvalue, ← hend]
  simp only [filledReads, List.flatten_append, List.flatten_cons, List.flatten_nil, xs_flatten,
    List.append_nil, List.append_assoc]

/-- Only the last read ends a line of which a part is written, and that part is the column of the
open row. -/
theorem filledReads_ends {mem : Text} {before after : List Text} {chunk : Text} {s : Buffered}
    (hsplit : filledReads = before ++ chunk :: after)
    (hs : listen .small 2049 (.start (.initial .small) mem) before = .ok s) (hlob : s.fLob = true)
    (hnl : '\n' ∈ chunk) :
    IsColumn s.szLine ∧ s.core.loc.Nested ∧ s.core.loc.bDataColumnInProgress = true := by
  obtain ⟨t, ht, -, -, hline, hn, hdc⟩ :=
    listen_filled_once mem (show 2030 ≤ 2047 by decide) (by decide)
  rcases List.eq_nil_or_concat' after with rfl | ⟨after, x, rfl⟩
  · obtain ⟨rfl, -⟩ := List.append_inj' hsplit rfl
    obtain rfl : t = s := Except.ok.inj (ht.symm.trans hs)
    rw [hline]
    refine ⟨⟨⟨'1' :: '=' :: xs (3 * 2047), rfl⟩, ?_⟩, hn, hdc⟩
    exact List.mem_cons_of_mem _ List.mem_cons_self
  · rw [← List.cons_append, ← List.append_assoc] at hsplit
    obtain ⟨hinit, -⟩ := List.append_inj' hsplit rfl
    cases before with
    | nil =>
      cases hs
      exact absurd hlob Bool.false_ne_true
    | cons head before =>
      have hc : chunk ∈ List.replicate 2 (xs 2047) ++ [xs 2047] := by
        rw [(List.cons.inj hinit).2]
        exact List.mem_append_right _ List.mem_cons_self
      have hx : chunk = xs 2047 := by
        rcases List.mem_append.mp hc with hc | hc
        · exact List.eq_of_mem_replicate hc
        · exact List.mem_singleton.mp hc
      exact absurd (hx ▸ hnl) (xs_clean 2047).2

/-- A row with a value that fills the buffer once: a part of its line is written before it ends. -/
theorem transparent_of_filled_column :
    (∃ s, listen .small 2049 (.start (.initial .small) [])
        (insertHead :: (List.replicate 2 (xs 2047) ++ [xs 2047])) = .ok s ∧ s.fLob = true) ∧
      Transparent .small (.initial .small) 2049 [] filledReads := by
  obtain ⟨s, hs, -, hlob, -⟩ := listen_filled_once [] (show 2030 ≤ 2047 by decide) (by decide)
  have htrans := (transparent_iff_kept_columns .small (by decide) (.initial .small)
    (fun h => absurd h (by decide)) (insertRow (xs (3 * 2047)))
    (insertRow_rowLines (xs_clean (3 * 2047))) 2049 (by decide) [] filledReads filledReads_isRead
    (filledReads_flatten ▸ List.prefix_rfl)).mpr
    fun _ _ _ _ hsplit hs hlob hnl => (filledReads_ends hsplit hs hlob hnl).1
  exact ⟨⟨s, hs, hlob⟩, htrans filledReads List.prefix_rfl⟩

/-- The reads of a row whose value arrives in seven reads of 2048 bytes. -/
def longReads : List Text :=
  [insertHead] ++ (List.replicate 2 (xs 2048) ++ [xs 2048] ++ List.replicate 3 (xs 2048) ++
    [xs 2048])

/-- They fill the buffer of 8 KiB twice, and what is kept begins in the middle of the value. -/
theorem listen_filled_twice : ∃ s, listen .small 2049 (.start (.initial .small) []) longReads =
    .ok s ∧ s.fLob = true ∧ s.szLine = strAt (xs (4 * 2048)) 0 := by
  obtain ⟨hnul, hnl⟩ := xs_clean 2048
  obtain ⟨s₂, hs₂, hp₂, -, -, -, hdc⟩ :=
    listen_filled_once [] (show 2030 ≤ 2048 by decide) le_rfl
  obtain ⟨s₃, hs₃, hp₃, hc₃⟩ := listen_room .small hnul hnl (show 0 < 2049 by decide) 3
    hp₂ (by rw [hp₂.2.2, length_xs]; decide)
  rw [List.nil_append, xs_flatten] at hp₃
  have hb₃ : s₃.bufferStart = 3 * 2048 := by
    rw [hp₃.2.2, length_xs]
    rfl
  obtain ⟨s₄, hs₄, -, -, hlob, hline⟩ := read_full .small hp₃ hnul hnl
    (show 0 < 2049 by decide) (by rw [hc₃]; exact hdc) (by decide)
    (by rw [hb₃, length_xs]; decide)
  rw [xs_append] at hline
  refine ⟨s₄, ?_, hlob, hline⟩
  rw [longReads, List.append_assoc, ← List.append_assoc, List.singleton_append, listen_append, hs₂,
    ok_bind, listen_append, hs₃, ok_bind, listen_singleton, hs₄]

theorem not_isColumn_xs (n : ℕ) : ¬IsColumn (strAt (xs n) 0) := by
  rintro ⟨⟨u, hu⟩, -⟩
  have hmem : '#' ∈ strAt (xs n) 0 := by
    rw [← hu]
    exact List.mem_append_left _ (by decide)
  have hx : '#' ∈ xs n := List.mem_of_mem_drop ((List.takeWhile_prefix _).subset hmem)
  exact absurd (List.eq_of_mem_replicate hx) (by decide)

theorem longReads_isRead : ∀ c ∈ longReads ++ [['\n']], IsRead c := by
  have hx : IsRead (xs 2048) :=
    ⟨List.ne_nil_of_length_pos (by rw [length_xs]; decide), by rw [length_xs]; decide,
      (xs_clean _).1⟩
  have hhead : IsRead insertHead := by unfold IsRead; decide
  have hnl : IsRead ['\n'] := by unfold IsRead; decide
  have hxs (n : ℕ) : ∀ c ∈ List.replicate n (xs 2048), IsRead c := fun c hc =>
    List.eq_of_mem_replicate hc ▸ hx
  simp only [longReads, List.forall_mem_append, List.forall_mem_singleton]
  exact ⟨⟨hhead, ⟨⟨hxs 2, hx⟩, hxs 3⟩, hx⟩, hnl⟩

theorem longReads_flatten : longReads.flatten = insertHead ++ xs (7 * 2048) := by
  simp only [longReads, List.flatten_append, List.flatten_singleton, xs_flatten, xs_append]

/-- No read before the last one ends a line of which a part is already written. -/
theorem longReads_kept : KeptColumns .small (.initial .small) 2049 [] longReads := by
  intro before chunk after s hsplit hs hlob hnl
  cases before with
  | nil =>
    cases hs
    exact absurd hlob Bool.false_ne_true
  | cons head before =>
    have hc : chunk ∈ List.replicate 2 (xs 2048) ++ [xs 2048] ++ List.replicate 3 (xs 2048) ++
        [xs 2048] := by
      rw [longReads, List.singleton_append, List.cons_append] at hsplit
      rw [(List.cons.inj hsplit).2]
      exact List.mem_append_right _ List.mem_cons_self
    have hx : chunk = xs 2048 := by
      simp only [List.mem_append, List.mem_singleton] at hc
      rcases hc with ((hc | hc) | hc) | hc
      · exact List.eq_of_mem_replicate hc
      · exact hc
      · exact List.eq_of_mem_replicate hc
      · exact hc
    exact absurd (hx ▸ hnl) (xs_clean 2048).2

/-- A column line that fills the buffer twice is not transparent: the flags after it differ. -/
theorem not_transparent_of_long_column :
    ¬∀ (env : Env) (core : Listener) (lines : List Text) (fuel : ℕ) (mem : Text)
      (chunks : List Text), 4 * iLenBufferOut ≤ env.iMaxBufferLine → core.loc.Nested →
      RowLines env core lines → iLenBufferOut < fuel → (∀ c ∈ chunks, IsRead c) →
      chunks.flatten <+: unlines '\n' lines → Transparent env core fuel mem chunks := by
  intro h
  obtain ⟨s, hs, hlob, hline⟩ := listen_filled_twice
  have hn : (Listener.initial .small).loc.Nested := fun h => absurd h (by decide)
  have hlines := insertRow_rowLines (xs_clean (7 * 2048))
  have hpre : (longReads ++ [['\n']]).flatten <+: unlines '\n' (insertRow (xs (7 * 2048))) := by
    refine ⟨"*!COMMIT!10!20!7!1!*\n".toList, ?_⟩
    rw [unlines_insertRow, List.flatten_append, longReads_flatten, List.flatten_singleton]
    simp only [List.append_assoc, List.singleton_append]
  have htrans := h .small (.initial .small) _ 2049 [] _ (by decide) hn hlines (by decide)
    longReads_isRead hpre
  have hcol := kept_of_transparent (by decide) hn hlines (by decide) longReads_isRead hpre
    longReads_kept htrans hs hlob (by decide)
  rw [hline] at hcol
  exact not_isColumn_xs _ hcol

end BinlogCapture
