import BinlogCapture.LineBuffer

/-! The result of the listener does not depend on how the pipe delivers a stream of lines that
fit the buffer, and it is complete exactly when no line lacks a separator. -/
namespace BinlogCapture
open CString Fallible LineFeed

/-- One way of cutting a stream into reads. -/
def Cutting (stream : Text) (chunks : List Text) : Prop :=
  chunks.flatten = stream ∧ ∀ c ∈ chunks, IsRead c

/-- A line that fits: no NUL, no line feed, and two reads' room behind it. -/
def Fits (env : Env) (line : Text) : Prop :=
  nul ∉ line ∧ '\n' ∉ line ∧ line.length + 2 * iLenBufferOut ≤ env.iMaxBufferLine

/-- In the flags it finds, each line of the stream has the separators its handler looks for. -/
def WellSeparated (env : Env) (core : Listener) (lines : List Text) : Prop :=
  ∀ before line after s, lines = before ++ line :: after →
    before.foldlM (refLine env) core = .ok s → Separated (endOfDataColumn s.loc line).1 line

/-- Every line is written and dispatched once, in order and in full, and never as a part. -/
structure Delivered (core out : Listener) (lines : List Text) : Prop where
  capture : out.capture.listened = core.capture.listened ++ unlines '\n' lines
  records : ∃ rs : List LineRecord, out.records = core.records ++ rs ∧
    rs.map LineRecord.line = lines ∧ ∀ r ∈ rs, r.fLob = false

/-- All ways of cutting the stream give one outcome, in which the stream is delivered. -/
def DeliveryIndependent (env : Env) (core : Listener) (lines : List Text) : Prop :=
  ∃ out, Delivered core out lines ∧
    ∀ (fuel : ℕ) (mem : Text) (chunks : List Text), iLenBufferOut < fuel →
      Cutting (unlines '\n' lines) chunks →
      (listen env fuel (.start core mem) chunks).map Buffered.core = .ok out

theorem refLine_delivers {env : Env} : ∀ (lines : List Text) (core out : Listener),
    lines.foldlM (refLine env) core = .ok out → Delivered core out lines := by
  intro lines
  induction lines with
  | nil =>
    intro core out h
    cases h
    exact ⟨by simp, [], by simp⟩
  | cons line lines ih =>
    intro core out h
    rw [List.foldlM_cons] at h
    obtain ⟨s, hs, h⟩ := bind_eq_ok_iff.mp h
    obtain ⟨hcap, r, hr, hline, hlob⟩ := refLine_effect hs
    obtain ⟨hcap', rs, hrs, hlines, hlobs⟩ := ih s out h
    constructor
    · rw [hcap', hcap]
      simp
    · refine ⟨r :: rs, ?_, ?_, ?_⟩
      · rw [hrs, hr]
        simp
      · simp [hline, hlines]
      · simpa [hlob] using hlobs

/-- The unbounded listener completes exactly on well separated lines. -/
theorem foldlM_refLine_ok_iff {env : Env} : ∀ (lines : List Text) (core : Listener),
    (∃ out, lines.foldlM (refLine env) core = .ok out) ↔ WellSeparated env core lines := by
  intro lines
  induction lines with
  | nil =>
    intro core
    exact ⟨fun _ before line after s h => by simp at h, fun _ => ⟨core, rfl⟩⟩
  | cons line lines ih =>
    intro core
    constructor
    · rintro ⟨out, h⟩ before l after s hsplit hs
      rw [List.foldlM_cons] at h
      obtain ⟨s₁, hs₁, h⟩ := bind_eq_ok_iff.mp h
      cases before with
      | nil =>
        cases hsplit
        cases hs
        exact refLine_ok_iff.mp ⟨s₁, hs₁⟩
      | cons b before =>
        cases hsplit
        rw [List.foldlM_cons, hs₁, ok_bind] at hs
        exact (ih s₁).mp ⟨out, h⟩ before l after s rfl hs
    · intro h
      obtain ⟨s₁, hs₁⟩ := refLine_ok_iff.mpr (h [] line lines core rfl rfl)
      have htail : WellSeparated env s₁ lines := fun before l after s hsplit hs =>
        h (line :: before) l after s (by rw [hsplit]; rfl) (by
          rw [List.foldlM_cons, hs₁, ok_bind, hs])
      obtain ⟨out, hout⟩ := (ih s₁).mpr htail
      exact ⟨out, by rw [List.foldlM_cons, hs₁, ok_bind, hout]⟩

theorem shortLines_of_fits {env : Env} (henv : 4 * iLenBufferOut ≤ env.iMaxBufferLine)
    {lines : List Text} (h : ∀ l ∈ lines, Fits env l) : ShortLines env (unlines '\n' lines) := by
  intro t ht
  rcases split_of_prefix_unlines '\n' (fun l hl => (h l hl).2.1) ht
    with ⟨-, hnil⟩ | ⟨l, after, hl, hp⟩
  · rw [hnil, List.length_nil]
    omega
  · have hlen := hp.length_le
    have := (h l (by rw [hl]; simp)).2.2
    omega

theorem nul_not_mem_unlines {lines : List Text} (h : ∀ l ∈ lines, nul ∉ l) :
    nul ∉ unlines '\n' lines := by
  intro hm
  obtain ⟨l, hl, hm⟩ := List.mem_flatMap.mp hm
  rw [List.mem_append, List.mem_singleton] at hm
  rcases hm with hm | hm
  · exact h l hl hm
  · exact absurd hm (by decide)

/-- Over any reads of a text with short lines, the listener handles its lines one by one. -/
theorem listen_split {env : Env} (henv : 2 * iLenBufferOut ≤ env.iMaxBufferLine) {fuel : ℕ}
    (hfuel : iLenBufferOut < fuel) (core : Listener) (mem : Text) {t : Text}
    (hshort : ShortLines env t) {chunks : List Text} (hcut : Cutting t chunks) :
    (listen env fuel (.start core mem) chunks).map Buffered.core =
      (split '\n' [] t).1.foldlM (refLine env) core := by
  have hrun := listen_plain hfuel chunks (.start core mem) core [] [] hcut.2 rfl (by simp)
    (by rw [List.nil_append, hcut.1]; exact hshort) (ready_start core mem (by omega))
  rw [hcut.1, feed_eq_foldlM] at hrun
  cases hl : (split '\n' [] t).1.foldlM (refLine env) core with
  | error e =>
    rw [hl] at hrun
    cases hs : listen env fuel (.start core mem) chunks with
    | error e' => rw [hs] at hrun; exact congrArg Except.error hrun.symm
    | ok s => rw [hs] at hrun; exact hrun.elim
  | ok out =>
    rw [hl] at hrun
    obtain ⟨s, hs, hready⟩ := hrun.of_ok_left
    rw [hs]
    exact congrArg Except.ok hready.core_eq

/-- Over every cutting, the listener ends as the unbounded listener does on the lines. -/
theorem listen_lines {env : Env} (henv : 4 * iLenBufferOut ≤ env.iMaxBufferLine) {fuel : ℕ}
    (hfuel : iLenBufferOut < fuel) (core : Listener) (mem : Text) {lines : List Text}
    (hfit : ∀ l ∈ lines, Fits env l) {chunks : List Text}
    (hcut : Cutting (unlines '\n' lines) chunks) :
    (listen env fuel (.start core mem) chunks).map Buffered.core =
      lines.foldlM (refLine env) core := by
  have hsplit := split_unlines '\n' (fun l hl => (hfit l hl).2.1) []
  rw [List.append_nil] at hsplit
  rw [listen_split (by omega) hfuel core mem (shortLines_of_fits henv hfit) hcut, hsplit]
  simp only [split, List.append_nil]

theorem exists_cutting {stream : Text} (h : nul ∉ stream) : ∃ chunks, Cutting stream chunks := by
  refine ⟨stream.map fun a => [a], ?_, ?_⟩
  · rw [← List.flatMap_def, List.flatMap_singleton']
  · intro c hc
    obtain ⟨a, ha, rfl⟩ := List.mem_map.mp hc
    refine ⟨by simp, by simp [iLenBufferOut], ?_⟩
    rw [List.mem_singleton]
    exact fun he => h (he ▸ ha)

theorem deliveryIndependent_iff {env : Env} (henv : 4 * iLenBufferOut ≤ env.iMaxBufferLine)
    (core : Listener) {lines : List Text} (hfit : ∀ l ∈ lines, Fits env l) :
    DeliveryIndependent env core lines ↔ ∃ out, lines.foldlM (refLine env) core = .ok out := by
  constructor
  · rintro ⟨out, -, hall⟩
    obtain ⟨chunks, hcut⟩ := exists_cutting (nul_not_mem_unlines fun l hl => (hfit l hl).1)
    have h := hall (iLenBufferOut + 1) [] chunks (Nat.lt_succ_self _) hcut
    rw [listen_lines henv (Nat.lt_succ_self _) core [] hfit hcut] at h
    exact ⟨out, h⟩
  · rintro ⟨out, hout⟩
    refine ⟨out, refLine_delivers lines core out hout, fun fuel mem chunks hfuel hcut => ?_⟩
    rw [listen_lines henv hfuel core mem hfit hcut, hout]

/-- Any two cuttings of a stream of lines that fit have the same outcome, and it is the delivery
of the whole stream exactly when no line lacks a separator. -/
theorem delivery_of_any_cutting (env : Env) (henv : 4 * iLenBufferOut ≤ env.iMaxBufferLine)
    (core : Listener) (lines : List Text) (hfit : ∀ l ∈ lines, Fits env l) :
    (∀ fuel fuel' mem mem' chunks chunks', iLenBufferOut < fuel → iLenBufferOut < fuel' →
      Cutting (unlines '\n' lines) chunks → Cutting (unlines '\n' lines) chunks' →
      (listen env fuel (.start core mem) chunks).map Buffered.core =
        (listen env fuel' (.start core mem') chunks').map Buffered.core) ∧
    (DeliveryIndependent env core lines ↔ WellSeparated env core lines) := by
  constructor
  · intro fuel fuel' mem mem' chunks chunks' hfuel hfuel' hcut hcut'
    rw [listen_lines henv hfuel core mem hfit hcut, listen_lines henv hfuel' core mem' hfit hcut']
  · rw [deliveryIndependent_iff henv core hfit, foldlM_refLine_ok_iff]

/-- A statement marker and a line that no handler takes. -/
theorem delivery_of_statement_marker :
    (∀ l ∈ ["*!STMT!4!10!1!*".toList, "# at 10".toList], Fits .default l) ∧
    (DeliveryIndependent .default (.initial .default)
        ["*!STMT!4!10!1!*".toList, "# at 10".toList] ↔
      WellSeparated .default (.initial .default)
        ["*!STMT!4!10!1!*".toList, "# at 10".toList]) :=
  ⟨by unfold Fits; decide,
    (delivery_of_any_cutting .default (by decide) (.initial .default) _
      (by unfold Fits; decide)).2⟩

/-- The line `*!COMMIT!` has no separator behind its tag, and ends the process. -/
theorem not_delivery_of_bare_commit :
    ¬∀ (env : Env) (core : Listener) (lines : List Text),
      4 * iLenBufferOut ≤ env.iMaxBufferLine → (∀ l ∈ lines, Fits env l) →
      DeliveryIndependent env core lines := by
  intro h
  obtain ⟨out, -, hall⟩ := h .default (.initial .default) ["*!COMMIT!".toList] (by decide)
    (by unfold Fits; decide)
  have hok := hall 2049 [] ["*!COMMIT!\n".toList] (by decide)
    ⟨rfl, by unfold IsRead; decide⟩
  have hfault : (listen .default 2049 (.start (.initial .default) []) ["*!COMMIT!\n".toList]).map
      Buffered.core = .error .separator := by rfl
  rw [hfault] at hok
  exact absurd hok (by simp)

end BinlogCapture
