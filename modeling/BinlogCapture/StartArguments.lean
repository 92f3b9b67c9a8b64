import BinlogCapture.ReadJournal
import Mathlib.Data.List.DropRight

/-! The command line `instance/schema/user/password`: `SearchArg` cuts it into the global buffers
from which the process connects. -/
namespace BinlogCapture
open CString Fallible

/-- What is undefined in the functions that prepare a start. -/
inductive StartFault where
  /-- An index outside of a buffer of fixed size is used. -/
  | bounds
  /-- A text with a conversion is used as a format, without arguments. -/
  | format
  /-- The result of a search that found nothing is used. -/
  | notFound
  deriving DecidableEq, Repr

/-- `cpyrtrim`: the blanks at the end of the copied bytes are cut off by a NUL. -/
def cpyrtrim (destination source : Text) (size : ℕ) : Text :=
  let copied := poke destination 0 (source.take size)
  if size > 1 then poke copied ((copied.take size).rdropWhile (· = ' ')).length [nul]
  else if copied[0]? = some ' ' then poke copied 0 [nul]
  else poke copied 1 [nul]

/-- `ddstrchr`: a position that counts from 1, or -1. -/
def ddstrchr (source : Text) (character : Char) : ℤ :=
  match strchr character source with
  | some (s, _) => s.length + 1
  | none => -1

/-- The buffers that `SearchArg` writes, as memory. -/
structure StartBuffers where
  szInstance : Text
  szSchema : Text
  szUser : Text
  szPassword : Text
  szMsgError : Text
  deriving DecidableEq, Repr

/-- The buffers before the call, with what lies behind the bytes that are zero. -/
def StartBuffers.zero : StartBuffers where
  szInstance := List.replicate 400 nul
  szSchema := List.replicate 400 nul
  szUser := List.replicate 100 nul
  szPassword := List.replicate 100 nul
  szMsgError := []

/-- `memcpy` to the start of a buffer of `size` bytes. -/
def memcpy (size : ℕ) (mem t : Text) : Except StartFault Text :=
  if t.length ≤ size then .ok (poke mem 0 t) else .error .bounds

/-- `sprintf` of a text as its own format into a buffer of `size` bytes. -/
def sprintfText (size : ℕ) (mem t : Text) : Except StartFault Text :=
  match printfResult t with
  | none => .error .format
  | some printed => if printed.length < size then .ok (strcpy mem 0 printed) else .error .bounds

/-- One level of the argument: the part before a `/` that is not its first character, and what
follows the `/` when that is longer than one character. -/
def leadingPart (pszbuffer_Tmp : Text) : Option (Text × Option Text) :=
  let i := ddstrchr pszbuffer_Tmp '/'
  if i > 1 then
    some (pszbuffer_Tmp.take (i - 1).toNat,
      if i + 1 < pszbuffer_Tmp.length then some (pszbuffer_Tmp.drop i.toNat) else none)
  else none

/-- The part of `SearchArg` behind the name of the schema. -/
def searchUser (g : StartBuffers) : Option Text → Except StartFault (Bool × StartBuffers)
  | none => .ok (true, { g with
      szUser := poke g.szUser 0 [nul], szPassword := poke g.szPassword 0 [nul] })
  | some pszbuffer_Tmp =>
    match leadingPart pszbuffer_Tmp with
    | none => .ok (true, { g with
        szUser := poke g.szUser 0 [nul], szPassword := poke g.szPassword 0 [nul] })
    | some (user, rest) => do
      let szUser ← memcpy 100 g.szUser user
      match rest with
      | none => return (true, { g with szUser, szPassword := poke g.szPassword 0 [nul] })
      | some password =>
        let szPassword ← sprintfText 100 g.szPassword password
        return (true, { g with szUser, szPassword })

/-- The part of `SearchArg` behind the name of the instance. -/
def searchSchema (g : StartBuffers) : Option Text → Except StartFault (Bool × StartBuffers)
  | none =>
    .ok (false, { g with szMsgError := "Instance name not found in command line".toList })
  | some pszbuffer_Tmp =>
    match leadingPart pszbuffer_Tmp with
    | none =>
      .ok (false, { g with szMsgError := "schema name not found in command line".toList })
    | some (schema, rest) => do
      let szSchema ← memcpy 400 g.szSchema schema
      searchUser { g with szSchema } rest

/-- The string in `g_szbuffer_Tmp` when the argument is copied there with the bytes `behind` it,
1024 in all. -/
def copiedArgument (behind pszArgument : Text) : Text :=
  strAt (cpyrtrim (List.replicate 4096 nul) (pszArgument ++ nul :: behind) 1024) 0

/-- `SearchArg`. -/
def searchArg (g : StartBuffers) (behind pszArgument : Text) :
    Except StartFault (Bool × StartBuffers) :=
  let g := { g with szMsgError := [] }
  match leadingPart (copiedArgument behind pszArgument) with
  | none => .ok (false, { g with szMsgError := "Instance name not found in command line".toList })
  | some (inst, rest) => do
    let szInstance ← memcpy 400 g.szInstance inst
    searchSchema { g with szInstance } rest

/-- What a command line should carry: parts that are not empty, of which only the password may
contain a `/`, and that fit the buffers. -/
structure Login where
  szInstance : Text
  szSchema : Text
  szUser : Text
  szPassword : Text
  text : ∀ t ∈ [szInstance, szSchema, szUser, szPassword], t ≠ [] ∧ nul ∉ t
  separated : ∀ t ∈ [szInstance, szSchema, szUser], '/' ∉ t
  short : (szInstance ++ '/' :: (szSchema ++ '/' :: (szUser ++ '/' :: szPassword))).length < 1024
  fits : szInstance.length < 400 ∧ szSchema.length < 400 ∧ szUser.length < 100 ∧
    szPassword.length < 100

def Login.argument (l : Login) : Text :=
  l.szInstance ++ '/' :: (l.szSchema ++ '/' :: (l.szUser ++ '/' :: l.szPassword))

/-- `SearchArg` finds the four parts of its argument. -/
def Parses (behind : Text) (l : Login) : Prop :=
  ∃ g, searchArg .zero behind l.argument = .ok (true, g) ∧ strAt g.szInstance 0 = l.szInstance ∧
    strAt g.szSchema 0 = l.szSchema ∧ strAt g.szUser 0 = l.szUser ∧
    strAt g.szPassword 0 = l.szPassword

/-- The argument names an instance and a schema, each with the `/` behind it. -/
def NamesGiven (argument inst schema : Text) : Prop :=
  inst ++ '/' :: (schema ++ ['/']) <+: argument ∧ inst ≠ [] ∧ schema ≠ [] ∧ '/' ∉ inst ∧
    '/' ∉ schema

/-- The parts in front of the first two `/` fit their buffers. -/
structure NamesFit (argument : Text) : Prop where
  inst : ∀ t, t ++ ['/'] <+: argument → '/' ∉ t → t.length < 400
  schema : ∀ s t, s ++ '/' :: (t ++ ['/']) <+: argument → '/' ∉ s → '/' ∉ t → t.length < 400

section Copy

theorem concat_isPrefix_rdropWhile {p l : Text} {c : Char} {f : Char → Bool} (hc : ¬f c = true)
    (h : p ++ [c] <+: l) : p ++ [c] <+: l.rdropWhile f := by
  obtain ⟨t, rfl⟩ := h
  induction t using List.reverseRecOn with
  | nil => simp [List.rdropWhile_concat_neg f _ _ hc]
  | append_singleton t d ih =>
    rw [← List.append_assoc]
    by_cases hd : f d = true
    · rw [List.rdropWhile_concat_pos f _ _ hd]
      exact ih
    · rw [List.rdropWhile_concat_neg f _ _ hd, List.append_assoc]
      exact List.prefix_append _ _

/-- The bytes that are copied from the argument, with the zeros behind them. -/
theorem take_poke_zero (source : Text) :
    (poke (List.replicate 4096 nul) 0 (source.take 1024)).take 1024 =
      source.take 1024 ++ List.replicate (1024 - (source.take 1024).length) nul := by
  have hl : (source.take 1024).length ≤ 1024 := List.length_take_le _ _
  rw [poke, List.take_zero, List.nil_append, List.take_append, List.take_of_length_le hl,
    List.drop_replicate, List.take_replicate]
  congr 2
  omega

theorem strAt_cpyrtrim (destination source : Text) :
    strAt (cpyrtrim destination source 1024) 0 =
      (((poke destination 0 (source.take 1024)).take 1024).rdropWhile (· = ' ')).takeWhile
        (· ≠ nul) := by
  unfold cpyrtrim
  rw [if_pos (by decide)]
  generalize poke destination 0 (source.take 1024) = copied
  generalize hx : (copied.take 1024).rdropWhile (· = ' ') = x
  have hpre : x <+: copied := by
    rw [← hx]
    exact (List.rdropWhile_prefix _ _).trans (List.take_prefix _ _)
  obtain ⟨tail, rfl⟩ := hpre
  rw [poke_append rfl, strAt, List.drop_zero, List.append_assoc, List.singleton_append,
    takeWhile_ne_append_cons]

theorem copiedArgument_of_short {argument : Text} (hn : nul ∉ argument)
    (h : argument.length < 1024) (behind : Text) : copiedArgument behind argument = argument := by
  rw [copiedArgument, strAt_cpyrtrim, take_poke_zero]
  have hpre : argument ++ [nul] <+: (argument ++ nul :: behind).take 1024 ++
      List.replicate (1024 - ((argument ++ nul :: behind).take 1024).length) nul := by
    apply List.IsPrefix.trans _ (List.prefix_append _ _)
    rw [List.prefix_take_iff]
    constructor
    · exact (List.prefix_append_right_inj argument).mpr (List.prefix_append [nul] behind)
    · rw [List.length_append, List.length_singleton]
      omega
  obtain ⟨tail, htail⟩ := concat_isPrefix_rdropWhile (f := (· = ' ')) (by decide) hpre
  rw [← htail, List.append_assoc, List.singleton_append, takeWhile_ne_append hn]

theorem copiedArgument_of_long {argument : Text} (hn : nul ∉ argument)
    (h : 1024 ≤ argument.length) (behind : Text) :
    copiedArgument behind argument = (argument.take 1024).rdropWhile (· = ' ') := by
  have htake : (argument ++ nul :: behind).take 1024 = argument.take 1024 :=
    List.take_append_of_le_length h
  rw [copiedArgument, strAt_cpyrtrim, take_poke_zero, htake, List.length_take_of_le h,
    Nat.sub_self, List.replicate_zero, List.append_nil]
  apply takeWhile_ne_of_not_mem
  intro hm
  exact hn (List.mem_of_mem_take ((List.rdropWhile_prefix _ _).subset hm))

theorem copiedArgument_isPrefix {argument : Text} (hn : nul ∉ argument) (behind : Text) :
    copiedArgument behind argument <+: argument := by
  rcases Nat.lt_or_ge argument.length 1024 with h | h
  · have hshort := copiedArgument_of_short hn h behind
    exact ⟨[], by rw [hshort, List.append_nil]⟩
  · rw [copiedArgument_of_long hn h]
    exact (List.rdropWhile_prefix _ _).trans (List.take_prefix _ _)

/-- What stands in front of a `/` near the beginning is not cut off. -/
theorem isPrefix_copiedArgument {argument p : Text} (hn : nul ∉ argument) (behind : Text)
    (hp : p ++ ['/'] <+: argument) (hlen : p.length < 1024) :
    p ++ ['/'] <+: copiedArgument behind argument := by
  rcases Nat.lt_or_ge argument.length 1024 with h | h
  · rw [copiedArgument_of_short hn h]
    exact hp
  · rw [copiedArgument_of_long hn h]
    apply concat_isPrefix_rdropWhile (by decide)
    rw [List.prefix_take_iff]
    constructor
    · exact hp
    · rw [List.length_append, List.length_singleton]
      omega

end Copy

section Levels

theorem part_unique {c : Char} {s s' t t' : Text} (hs : c ∉ s) (hs' : c ∉ s')
    (h : s ++ c :: t = s' ++ c :: t') : s = s' ∧ t = t' := by
  have hc := strchr_append hs t
  rw [h, strchr_append hs'] at hc
  exact ⟨(Prod.mk.inj (Option.some.inj hc)).1.symm, (Prod.mk.inj (Option.some.inj hc)).2.symm⟩

theorem leadingPart_append {s : Text} (hs : s ≠ []) (hn : '/' ∉ s) (t : Text) :
    leadingPart (s ++ '/' :: t) = some (s, if 1 < t.length then some t else none) := by
  have hpos : 0 < s.length := List.length_pos_iff.mpr hs
  have hi : ddstrchr (s ++ '/' :: t) '/' = (s.length : ℤ) + 1 := by
    simp only [ddstrchr, strchr_append hn]
  have htake : ((s.length : ℤ) + 1 - 1).toNat = s.length := by omega
  have hdrop : ((s.length : ℤ) + 1).toNat = s.length + 1 := by omega
  have hlen : (s.length : ℤ) + 1 + 1 < ((s ++ '/' :: t).length : ℤ) ↔ 1 < t.length := by
    rw [List.length_append, List.length_cons]
    omega
  simp only [leadingPart, hi, htake, hdrop, hlen, List.take_left]
  rw [if_pos (by omega), ← List.drop_drop, List.drop_left]
  rfl

theorem leadingPart_cases (t : Text) :
    leadingPart t = none ∧ (∀ s, s ++ ['/'] <+: t → '/' ∉ s → s = []) ∨
      ∃ s u, t = s ++ '/' :: u ∧ s ≠ [] ∧ '/' ∉ s := by
  cases hc : strchr '/' t with
  | none =>
    have hn := strchr_eq_none_iff.mp hc
    left
    constructor
    · simp [leadingPart, ddstrchr, hc]
    · intro s hs
      exact absurd (hs.subset (by simp)) hn
  | some r =>
    obtain ⟨ht, hn⟩ := strchr_eq_some hc
    by_cases hr : r.1 = []
    · left
      constructor
      · simp [leadingPart, ddstrchr, hc, hr]
      · rintro s ⟨u, hu⟩ hs
        rw [ht, List.append_assoc] at hu
        rw [(part_unique hs hn hu).1, hr]
    · exact .inr ⟨r.1, r.2, ht, hr, hn⟩

theorem memcpy_eq_ok {size : ℕ} {t : Text} (h : t.length ≤ size) (mem : Text) :
    memcpy size mem t = .ok (poke mem 0 t) := if_pos h

/-- A text that is shorter than a buffer of zeros is read back from it. -/
theorem strAt_poke_zero {n : ℕ} {t : Text} (ht : nul ∉ t) (h : t.length < n) (behind : Text) :
    strAt (poke (List.replicate n nul ++ behind) 0 t) 0 = t := by
  obtain ⟨m, rfl⟩ := Nat.exists_eq_add_of_lt h
  have hdrop : (List.replicate (t.length + m + 1) nul ++ behind).drop (0 + t.length) =
      nul :: (List.replicate m nul ++ behind) := by
    rw [Nat.zero_add, Nat.add_assoc, List.replicate_add, List.append_assoc,
      List.drop_left' List.length_replicate, List.replicate_succ, List.cons_append]
  rw [poke, hdrop, List.take_zero, List.nil_append, strAt, List.drop_zero, takeWhile_ne_append ht]

/-- The parts behind the schema may be missing. -/
theorem searchUser_ne_false (g : StartBuffers) (rest : Option Text) (g' : StartBuffers) :
    searchUser g rest ≠ .ok (false, g') := by
  intro h
  unfold searchUser at h
  split at h
  · cases h
  · split at h
    · cases h
    · obtain ⟨m, -, h⟩ := bind_eq_ok_iff.mp h
      split at h
      · cases h
      · obtain ⟨m', -, h⟩ := bind_eq_ok_iff.mp h
        cases h

end Levels

section Names

/-- Whether the names are given is seen in the copy. -/
theorem namesGiven_copied_iff {argument : Text} (hn : nul ∉ argument) (behind : Text)
    (hfit : NamesFit argument) (inst schema : Text) :
    NamesGiven (copiedArgument behind argument) inst schema ↔
      NamesGiven argument inst schema := by
  constructor
  · rintro ⟨h, hrest⟩
    exact ⟨h.trans (copiedArgument_isPrefix hn behind), hrest⟩
  · rintro ⟨h, hi, hs, hni, hns⟩
    refine ⟨?_, hi, hs, hni, hns⟩
    have hinst : inst.length < 400 := by
      apply hfit.inst inst _ hni
      refine List.IsPrefix.trans ?_ h
      exact (List.prefix_append_right_inj inst).mpr (List.prefix_append ['/'] _)
    have hschema : schema.length < 400 := hfit.schema inst schema h hni hns
    have h' : (inst ++ '/' :: schema) ++ ['/'] <+: argument := by
      rw [List.append_assoc]
      exact h
    have hcopied := isPrefix_copiedArgument hn behind h' (by
      rw [List.length_append, List.length_cons]
      omega)
    rwa [List.append_assoc] at hcopied

theorem namesGiven_append_iff {inst u : Text} (hi : inst ≠ []) (hn : '/' ∉ inst) :
    (∃ i s, NamesGiven (inst ++ '/' :: u) i s) ↔ ∃ s, s ++ ['/'] <+: u ∧ s ≠ [] ∧ '/' ∉ s := by
  constructor
  · rintro ⟨i, s, ⟨v, hv⟩, -, hs, hni, hns⟩
    rw [List.append_assoc, List.cons_append] at hv
    exact ⟨s, ⟨v, (part_unique hni hn hv).2⟩, hs, hns⟩
  · rintro ⟨s, ⟨v, rfl⟩, hs, hns⟩
    exact ⟨inst, s, ⟨v, by simp⟩, hi, hs, hn, hns⟩

theorem searchSchema_false_iff {g : StartBuffers} {u : Text}
    (hfit : ∀ s, s ++ ['/'] <+: u → '/' ∉ s → s.length < 400) :
    (∃ g', searchSchema g (if 1 < u.length then some u else none) = .ok (false, g')) ↔
      ¬∃ s, s ++ ['/'] <+: u ∧ s ≠ [] ∧ '/' ∉ s := by
  by_cases hlen : 1 < u.length
  · rw [if_pos hlen, searchSchema]
    rcases leadingPart_cases u with ⟨hnone, hfirst⟩ | ⟨s, v, rfl, hs, hns⟩
    · simp only [hnone, Except.ok.injEq, Prod.mk.injEq, true_and, exists_eq', true_iff]
      rintro ⟨s, hpre, hs, hns⟩
      exact hs (hfirst s hpre hns)
    · have hpre : s ++ ['/'] <+: s ++ '/' :: v :=
        (List.prefix_append_right_inj s).mpr (List.prefix_append ['/'] v)
      have hcopy := memcpy_eq_ok (hfit s hpre hns).le g.szSchema
      simp only [leadingPart_append hs hns, hcopy, ok_bind, searchUser_ne_false, exists_false,
        false_iff, not_not]
      exact ⟨s, hpre, hs, hns⟩
  · rw [if_neg hlen, searchSchema]
    simp only [Except.ok.injEq, Prod.mk.injEq, true_and, exists_eq', true_iff]
    rintro ⟨s, hpre, hs, -⟩
    have hle := hpre.length_le
    have hpos := List.length_pos_iff.mpr hs
    rw [List.length_append, List.length_singleton] at hle
    omega

/-- `SearchArg` fails exactly when a name is missing. -/
theorem searchArg_false_iff {argument : Text} (hn : nul ∉ argument) (behind : Text)
    (hfit : NamesFit argument) (g : StartBuffers) :
    (∃ g', searchArg g behind argument = .ok (false, g')) ↔
      ¬∃ inst schema, NamesGiven argument inst schema := by
  simp only [← namesGiven_copied_iff hn behind hfit]
  have hcopied := copiedArgument_isPrefix hn behind
  unfold searchArg
  generalize copiedArgument behind argument = copied at hcopied ⊢
  rcases leadingPart_cases copied with ⟨hnone, hfirst⟩ | ⟨inst, u, rfl, hi, hni⟩
  · simp only [hnone, Except.ok.injEq, Prod.mk.injEq, true_and, exists_eq', true_iff]
    rintro ⟨i, s, hpre, hi, -, hni, -⟩
    refine hi (hfirst i (List.IsPrefix.trans ?_ hpre) hni)
    exact (List.prefix_append_right_inj i).mpr (List.prefix_append ['/'] _)
  · have hpre : inst ++ ['/'] <+: argument :=
      ((List.prefix_append_right_inj inst).mpr (List.prefix_append ['/'] u)).trans hcopied
    have hcopy := memcpy_eq_ok (hfit.inst inst hpre hni).le g.szInstance
    simp only [leadingPart_append hi hni, hcopy, ok_bind, namesGiven_append_iff hi hni]
    apply searchSchema_false_iff
    intro s hs hns
    refine hfit.schema inst s (List.IsPrefix.trans ?_ hcopied) hni hns
    exact (List.prefix_append_right_inj inst).mpr ((List.prefix_cons_inj '/').mpr hs)

end Names

section Parts

/-- The buffers after a login, up to the password. -/
def Login.buffers (l : Login) (szPassword : Text) : StartBuffers where
  szInstance := poke (List.replicate 400 nul) 0 l.szInstance
  szSchema := poke (List.replicate 400 nul) 0 l.szSchema
  szUser := poke (List.replicate 100 nul) 0 l.szUser
  szPassword := szPassword
  szMsgError := []

theorem searchUser_login (l : Login) (g : StartBuffers) :
    searchUser g (some (l.szUser ++ '/' :: l.szPassword)) =
      if 1 < l.szPassword.length then
        (sprintfText 100 g.szPassword l.szPassword).map fun szPassword =>
          (true, { g with szUser := poke g.szUser 0 l.szUser, szPassword })
      else .ok (true, { g with
        szUser := poke g.szUser 0 l.szUser, szPassword := poke g.szPassword 0 [nul] }) := by
  have hcopy := memcpy_eq_ok l.fits.2.2.1.le g.szUser
  have huser := (l.text l.szUser (by simp)).1
  have hsep := l.separated l.szUser (by simp)
  simp only [searchUser, leadingPart_append huser hsep, hcopy, ok_bind]
  by_cases hlen : 1 < l.szPassword.length
  · simp only [hlen, ↓reduceIte]
    cases sprintfText 100 g.szPassword l.szPassword with
    | error e => rfl
    | ok m => rfl
  · simp only [hlen, ↓reduceIte]
    rfl

theorem searchArg_login (behind : Text) (l : Login) :
    searchArg .zero behind l.argument =
      if 1 < l.szPassword.length then
        (sprintfText 100 (List.replicate 100 nul) l.szPassword).map fun szPassword =>
          (true, l.buffers szPassword)
      else .ok (true, l.buffers (poke (List.replicate 100 nul) 0 [nul])) := by
  have hn : nul ∉ l.argument := by
    have htext := l.text
    simp only [List.mem_cons, List.not_mem_nil, or_false, forall_eq_or_imp, forall_eq] at htext
    simp only [Login.argument, List.mem_append, List.mem_cons, not_or]
    have hne : nul ≠ '/' := by decide
    exact ⟨htext.1.2, hne, htext.2.1.2, hne, htext.2.2.1.2, hne, htext.2.2.2.2⟩
  have hlen : 1 < (l.szUser ++ '/' :: l.szPassword).length ∧
      1 < (l.szSchema ++ '/' :: (l.szUser ++ '/' :: l.szPassword)).length := by
    have huser := List.length_pos_iff.mpr (l.text l.szUser (by simp)).1
    simp only [List.length_append, List.length_cons]
    omega
  have hinst := leadingPart_append (l.text l.szInstance (by simp)).1
    (l.separated l.szInstance (by simp)) (l.szSchema ++ '/' :: (l.szUser ++ '/' :: l.szPassword))
  have hschema := leadingPart_append (l.text l.szSchema (by simp)).1
    (l.separated l.szSchema (by simp)) (l.szUser ++ '/' :: l.szPassword)
  rw [if_pos hlen.2] at hinst
  rw [if_pos hlen.1] at hschema
  rw [searchArg, copiedArgument_of_short hn l.short, Login.argument]
  simp only [hinst, searchSchema, hschema, memcpy_eq_ok l.fits.1.le, memcpy_eq_ok l.fits.2.1.le,
    ok_bind, searchUser_login]
  rfl

/-- What `sprintf` leaves in the password buffer is the password exactly when it brings no
conversion. -/
theorem sprintfText_eq_iff {size : ℕ} {t : Text} (hn : nul ∉ t) (hlen : t.length < size)
    (mem : Text) : (∃ m, sprintfText size mem t = .ok m ∧ strAt m 0 = t) ↔ '%' ∉ t := by
  have hstr (p : Text) : strAt (strcpy mem 0 p) 0 = p.takeWhile (· ≠ nul) := by
    rw [strcpy_zero, strAt, List.drop_zero, takeWhile_ne_append_cons]
  constructor
  · rintro ⟨m, hm, ht⟩
    unfold sprintfText at hm
    cases hp : printfResult t with
    | none => simp [hp] at hm
    | some p =>
      simp only [hp] at hm
      split at hm
      · cases hm
        rw [hstr] at ht
        have hpre : t <+: p := ht ▸ List.takeWhile_prefix _
        have heq : t = p := hpre.eq_of_length_le (printfResult_length hp).1
        rw [← heq] at hp
        exact printfResult_eq_self_iff.mp hp
      · cases hm
  · intro h
    refine ⟨strcpy mem 0 t, ?_, ?_⟩
    · simp only [sprintfText, printfResult_eq_self_iff.mpr h, hlen, ↓reduceIte]
    · rw [hstr, takeWhile_ne_of_not_mem hn]

theorem parses_iff (behind : Text) (l : Login) :
    Parses behind l ↔ 2 ≤ l.szPassword.length ∧ '%' ∉ l.szPassword := by
  obtain ⟨hi, hs, hu, hp⟩ := l.fits
  have hinst := strAt_poke_zero (l.text l.szInstance (by simp)).2 hi []
  have hschema := strAt_poke_zero (l.text l.szSchema (by simp)).2 hs []
  have huser := strAt_poke_zero (l.text l.szUser (by simp)).2 hu []
  rw [List.append_nil] at hinst hschema huser
  obtain ⟨hne, hn⟩ := l.text l.szPassword (by simp)
  unfold Parses
  rw [searchArg_login]
  by_cases hlen : 1 < l.szPassword.length
  · rw [if_pos hlen, ← sprintfText_eq_iff hn hp (List.replicate 100 nul)]
    constructor
    · rintro ⟨g, hg, -, -, -, hpass⟩
      obtain ⟨m, hm, he⟩ := map_eq_ok_iff.mp hg
      cases he
      exact ⟨hlen, m, hm, hpass⟩
    · rintro ⟨-, m, hm, hpass⟩
      exact ⟨l.buffers m, map_eq_ok_iff.mpr ⟨m, hm, rfl⟩, hinst, hschema, huser, hpass⟩
  · rw [if_neg hlen]
    constructor
    · rintro ⟨g, hg, -, -, -, hpass⟩
      cases hg
      exact absurd hpass.symm hne
    · rintro ⟨h2, -⟩
      exact absurd h2 hlen

end Parts

/-- The four parts come through exactly when the password has two characters or more and none of
them is a `%`. The outcome itself is right for every argument whose names fit. -/
theorem searchArg_lossless_iff (behind : Text) :
    (∀ l : Login, Parses behind l ↔ 2 ≤ l.szPassword.length ∧ '%' ∉ l.szPassword) ∧
      ∀ argument, nul ∉ argument → NamesFit argument →
        ((∃ g, searchArg .zero behind argument = .ok (false, g)) ↔
          ¬∃ inst schema, NamesGiven argument inst schema) :=
  ⟨parses_iff behind, fun _ hn hfit => searchArg_false_iff hn behind hfit .zero⟩

/-- A login with the password `p`. -/
def Login.sample (szPassword : Text) (h : szPassword ≠ [] ∧ nul ∉ szPassword)
    (hlen : szPassword.length < 100) : Login where
  szInstance := "srv@3306".toList
  szSchema := "shop".toList
  szUser := "capture".toList
  szPassword := szPassword
  text := by
    simp only [List.mem_cons, List.not_mem_nil, or_false, forall_eq_or_imp, forall_eq]
    exact ⟨by decide, by decide, by decide, h⟩
  separated := by decide
  short := by
    simp only [List.length_append, List.length_cons]
    have : "srv@3306".toList.length + "shop".toList.length + "capture".toList.length = 19 := by
      decide
    omega
  fits := ⟨by decide, by decide, by decide, hlen⟩

theorem namesFit_of_short {argument : Text} (h : argument.length ≤ 400) : NamesFit argument where
  inst t ht _ := by
    have := ht.length_le
    rw [List.length_append, List.length_singleton] at this
    omega
  schema s t ht _ _ := by
    have := ht.length_le
    rw [List.length_append, List.length_cons, List.length_append, List.length_singleton] at this
    omega

theorem searchArg_lossless_sample :
    Parses [] (.sample "p4$$/w".toList (by decide) (by decide)) ∧
      ∃ g, searchArg .zero [] "srv@3306/shop".toList = .ok (false, g) := by
  obtain ⟨hparses, hfalse⟩ := searchArg_lossless_iff []
  constructor
  · exact (hparses _).mpr (by decide)
  · apply (hfalse _ (by decide) (namesFit_of_short (by decide))).mpr
    rintro ⟨inst, schema, hpre, -⟩
    have hcount := hpre.sublist.count_le '/'
    have htotal : "srv@3306/shop".toList.count '/' = 1 := by decide
    simp only [htotal, List.count_append, List.count_cons_self, List.count_nil] at hcount
    omega

/-- A password of one character is lost, and so is each second of two `%`. -/
theorem not_searchArg_lossless :
    ¬Parses [] (.sample "x".toList (by decide) (by decide)) ∧
      ¬Parses [] (.sample "50%%off".toList (by decide) (by decide)) := by
  constructor
  · rintro ⟨g, hg, -, -, -, hpass⟩
    have h : (searchArg .zero [] (Login.sample "x".toList (by decide) (by decide)).argument).map
        (fun r => strAt r.2.szPassword 0) = .ok [] := by decide +kernel
    rw [hg] at h
    rw [Except.map, hpass] at h
    cases h
  · rintro ⟨g, hg, -, -, -, hpass⟩
    have h : (searchArg .zero []
        (Login.sample "50%%off".toList (by decide) (by decide)).argument).map
        (fun r => strAt r.2.szPassword 0) = .ok "50%off".toList := by decide +kernel
    rw [hg] at h
    rw [Except.map, hpass] at h
    exact absurd h (by decide)

end BinlogCapture
