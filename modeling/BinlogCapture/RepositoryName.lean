import BinlogCapture.StartArguments

/-! The file of the repository: `GetRepositoryFullPathName` reads an entry that is a connection
text of the database driver or the name of the file itself. -/
namespace BinlogCapture
open CString Fallible

/-- `tolowerStr` into an array of `sizeDest` bytes. -/
def tolowerStr (source : Text) (sizeDest : ℕ) : Text := lower (source.take (sizeDest - 1))

/-- `strcpy` to `szPath`, without the backslash at the end. -/
def pathOf (pszPathSource : Text) : Except StartFault Text :=
  if 512 ≤ pszPathSource.length then .error .bounds
  else
    match pszPathSource.getLast? with
    | none => .error .bounds
    | some c => .ok (if c = '\\' then pszPathSource.dropLast else pszPathSource)

/-- `sprintf` into `szRepositoryFullPathName`. -/
def fullPathName (t : Text) : Except StartFault Text :=
  if t.length < 1000 then .ok t else .error .bounds

def driverText : Text := "driver".toList
def databaseText : Text := "database".toList

/-- `strrchr`, with the result used unchecked: what follows the last `c`. -/
def afterLast (c : Char) (t : Text) : Except StartFault Text :=
  match strrchr c t with
  | none => .error .notFound
  | some (_, name) => .ok name

/-- `GetRepositoryFullPathName` -/
def getRepositoryFullPathName (pszPathSource pszRepositoryEntry : Text) :
    Except StartFault Text := do
  let szPath ← pathOf pszPathSource
  let szLower := tolowerStr pszRepositoryEntry 512
  match strstr driverText szLower, strstr databaseText szLower with
  | some _, some after =>
    let pszDataBase := databaseText ++ after
    let pszName ← afterLast '=' pszDataBase
    if (strrchr '\\' pszDataBase).isSome then fullPathName pszName
    else fullPathName (szPath ++ '\\' :: pszName)
  | _, _ =>
    if (strrchr '\\' pszRepositoryEntry).isSome then fullPathName pszRepositoryEntry
    else fullPathName (szPath ++ '\\' :: pszRepositoryEntry)

def driverPrefix : Text := "Driver={SQLite3 ODBC Driver};Database=".toList

/-- The entry of the driver for a database path. -/
def driverEntry (d : Text) : Text := driverPrefix ++ d

/-- A directory without a backslash at its end. -/
def directory (s : Text) : Text := if s.getLast? = some '\\' then s.dropLast else s

/-- What an entry for the database path `d` means: `d` itself, or the file `d` in the directory. -/
def repositoryFile (s d : Text) : Text := if '\\' ∈ d then d else directory s ++ '\\' :: d

/-- Both entries for a database path mean the same file. -/
def SameFile (s d : Text) : Prop :=
  getRepositoryFullPathName s (driverEntry d) = .ok (repositoryFile s d) ∧
    getRepositoryFullPathName s d = .ok (repositoryFile s d)

/-- The paths for which the entries agree: short enough, in lower case, without an `=`, and not to
be taken for an entry of the driver themselves. -/
structure Agreeing (s d : Text) : Prop where
  source : s.length < 512
  lowerCase : lower d = d
  noEqual : '=' ∉ d
  noDriver : ¬(driverText <:+: d ∧ databaseText <:+: d)
  short : '\\' ∉ d → (directory s ++ '\\' :: d).length < 1000

/-- An entry with the words of the driver has an `=` behind the first `database`, within the bytes
that are copied. -/
def DatabaseNamed (entry : Text) : Prop :=
  driverText <:+: tolowerStr entry 512 →
    ∀ after, strstr databaseText (tolowerStr entry 512) = some after → '=' ∈ after

section Searches

theorem pathOf_eq {s : Text} (hs : s ≠ []) (hlen : s.length < 512) :
    pathOf s = .ok (directory s) := by
  have hlast := List.getLast?_eq_getLast_of_ne_nil hs
  rw [pathOf, if_neg (by omega), directory, hlast]
  simp

theorem pathOf_error {s : Text} (hlen : ¬s.length < 512) : pathOf s = .error .bounds :=
  if_pos (by omega)

theorem fullPathName_eq_ok_iff {t u : Text} :
    fullPathName t = .ok u ↔ t = u ∧ t.length < 1000 := by
  unfold fullPathName
  split
  · next h => simp [h]
  · next h => simp [h]

theorem fullPathName_ne (t : Text) : fullPathName t ≠ .error .notFound := by
  unfold fullPathName
  split <;> simp

variable {s entry : Text} (hs : s ≠ []) (hlen : s.length < 512)
include hs hlen

theorem repositoryFullPathName_plain
    (h : ¬(driverText <:+: tolowerStr entry 512 ∧ databaseText <:+: tolowerStr entry 512)) :
    getRepositoryFullPathName s entry =
      fullPathName (if '\\' ∈ entry then entry else directory s ++ '\\' :: entry) := by
  unfold getRepositoryFullPathName
  simp only [pathOf_eq hs hlen, ok_bind, isSome_strrchr_iff]
  split
  · next hdriver hdatabase =>
    refine absurd ⟨?_, ?_⟩ h
    · by_contra hn
      rw [strstr_eq_none_iff.mpr hn] at hdriver
      cases hdriver
    · by_contra hn
      rw [strstr_eq_none_iff.mpr hn] at hdatabase
      cases hdatabase
  · split <;> rfl

theorem repositoryFullPathName_driver {after : Text}
    (hdriver : driverText <:+: tolowerStr entry 512)
    (hdatabase : strstr databaseText (tolowerStr entry 512) = some after) :
    getRepositoryFullPathName s entry = afterLast '=' (databaseText ++ after) >>= fun pszName =>
      fullPathName (if '\\' ∈ after then pszName else directory s ++ '\\' :: pszName) := by
  have hsome : ∃ r, strstr driverText (tolowerStr entry 512) = some r := by
    rw [← Option.isSome_iff_exists, Option.isSome_iff_ne_none, ne_eq, strstr_eq_none_iff, not_not]
    exact hdriver
  obtain ⟨r, hr⟩ := hsome
  have hback : '\\' ∈ databaseText ++ after ↔ '\\' ∈ after := by
    have hnot : '\\' ∉ databaseText := by decide
    simp [hnot]
  unfold getRepositoryFullPathName
  simp only [pathOf_eq hs hlen, ok_bind, hr, hdatabase, isSome_strrchr_iff, hback]
  congr 1
  funext pszName
  split <;> rfl

end Searches

section Entries

theorem tolowerStr_of_short {t : Text} (h : t.length < 512) : tolowerStr t 512 = lower t := by
  rw [tolowerStr, List.take_of_length_le (by omega)]

/-- In an entry of the driver the searches stop where they should. -/
theorem driverEntry_searches {d : Text} (h : (driverEntry d).length < 512) :
    driverText <:+: tolowerStr (driverEntry d) 512 ∧
      strstr databaseText (tolowerStr (driverEntry d) 512) = some ('=' :: lower d) := by
  have hwords : driverText <+: lower driverPrefix ∧
      strstr databaseText (lower driverPrefix) = some ['='] := by decide +kernel
  rw [tolowerStr_of_short h, driverEntry, lower_append]
  constructor
  · exact (hwords.1.trans (List.prefix_append _ _)).isInfix
  · exact strstr_append hwords.2 (by decide) (lower d)

theorem afterLast_append {c : Char} {t : Text} (h : c ∉ t) (s : Text) :
    afterLast c (s ++ c :: t) = .ok t := by
  simp only [afterLast, strrchr_append h]

theorem afterLast_error {c : Char} {t : Text} (h : c ∉ t) : afterLast c t = .error .notFound := by
  simp only [afterLast, strrchr_of_not_mem h]

/-- A file name is found at the end of an entry of the driver; it is `d` only when that is in
lower case and has no `=`. -/
theorem afterLast_driverEntry (d : Text) : ∃ name,
    afterLast '=' (databaseText ++ '=' :: lower d) = .ok name ∧
      (name = d ↔ lower d = d ∧ '=' ∉ d) := by
  have heq : '=' ∈ lower d ↔ '=' ∈ d := mem_lower_iff (by decide) d
  by_cases hd : '=' ∈ d
  · obtain ⟨u, v, huv, hv⟩ := eq_append_last_of_mem (heq.mpr hd)
    refine ⟨v, ?_, ?_⟩
    · rw [huv]
      have h := afterLast_append hv (databaseText ++ '=' :: u)
      rwa [List.append_assoc] at h
    · have hlen : d.length = u.length + (v.length + 1) := by
        rw [← length_lower, huv, List.length_append, List.length_cons]
      constructor
      · rintro rfl
        omega
      · rintro ⟨-, hn⟩
        exact absurd hd hn
  · refine ⟨lower d, afterLast_append (fun h => hd (heq.mp h)) databaseText, ?_⟩
    simp [hd]

theorem fullPathName_iff {s name d : Text} (hd : d.length < 1000) :
    fullPathName (if '\\' ∈ d then name else directory s ++ '\\' :: name) =
        .ok (repositoryFile s d) ↔
      name = d ∧ ('\\' ∉ d → (directory s ++ '\\' :: d).length < 1000) := by
  rw [fullPathName_eq_ok_iff, repositoryFile]
  by_cases hb : '\\' ∈ d
  · simp only [hb, ↓reduceIte, not_true_eq_false, false_implies, and_true, and_iff_left_iff_imp]
    rintro rfl
    exact hd
  · simp only [hb, ↓reduceIte, not_false_eq_true, true_implies, List.append_cancel_left_eq,
      List.cons.injEq, true_and]
    constructor
    · rintro ⟨rfl, h⟩
      exact ⟨rfl, h⟩
    · rintro ⟨rfl, h⟩
      exact ⟨rfl, h⟩

theorem length_of_driverEntry {d : Text} (hd : (driverEntry d).length < 512) : d.length < 512 := by
  rw [driverEntry, List.length_append] at hd
  omega

variable {s d : Text} (hs : s ≠ []) (hd : (driverEntry d).length < 512)
include hs hd

theorem driverEntry_ok_iff (hlen : s.length < 512) :
    getRepositoryFullPathName s (driverEntry d) = .ok (repositoryFile s d) ↔
      (lower d = d ∧ '=' ∉ d) ∧ ('\\' ∉ d → (directory s ++ '\\' :: d).length < 1000) := by
  have hshort := length_of_driverEntry hd
  obtain ⟨hdriver, hdatabase⟩ := driverEntry_searches hd
  obtain ⟨name, hname, hiff⟩ := afterLast_driverEntry d
  have hback : '\\' ∈ '=' :: lower d ↔ '\\' ∈ d := by
    have hne : '\\' ≠ '=' := by decide
    rw [List.mem_cons, mem_lower_iff (by decide)]
    simp [hne]
  rw [repositoryFullPathName_driver hs hlen hdriver hdatabase, hname, ok_bind]
  simp only [hback]
  rw [fullPathName_iff (by omega), hiff]

/-- The name alone is taken for an entry of the driver when it has both words. -/
theorem plainEntry_ok_iff (hlen : s.length < 512) (hlower : lower d = d) (heq : '=' ∉ d) :
    getRepositoryFullPathName s d = .ok (repositoryFile s d) ↔
      ¬(driverText <:+: d ∧ databaseText <:+: d) ∧
        ('\\' ∉ d → (directory s ++ '\\' :: d).length < 1000) := by
  have hshort := length_of_driverEntry hd
  have hl : tolowerStr d 512 = d := (tolowerStr_of_short hshort).trans hlower
  by_cases h : driverText <:+: d ∧ databaseText <:+: d
  · simp only [h, and_self, not_true_eq_false, false_and, iff_false]
    have hsome : strstr databaseText d ≠ none := fun hn => strstr_eq_none_iff.mp hn h.2
    obtain ⟨after, hafter⟩ := Option.ne_none_iff_exists'.mp hsome
    have hn : '=' ∉ databaseText ++ after := by
      rw [List.mem_append, not_or]
      exact ⟨by decide, fun hm => heq ((isSuffix_of_strstr hafter).subset hm)⟩
    rw [repositoryFullPathName_driver hs hlen (hl.symm ▸ h.1) (hl.symm ▸ hafter),
      afterLast_error hn]
    simp
  · rw [repositoryFullPathName_plain hs hlen (hl.symm ▸ h), fullPathName_iff (by omega)]
    simp [h]

theorem sameFile_iff : SameFile s d ↔ Agreeing s d := by
  by_cases hlen : s.length < 512
  · unfold SameFile
    rw [driverEntry_ok_iff hs hd hlen]
    constructor
    · rintro ⟨⟨⟨hlower, heq⟩, hfit⟩, hplain⟩
      exact ⟨hlen, hlower, heq, ((plainEntry_ok_iff hs hd hlen hlower heq).mp hplain).1, hfit⟩
    · rintro ⟨-, hlower, heq, hwords, hfit⟩
      exact ⟨⟨⟨hlower, heq⟩, hfit⟩,
        (plainEntry_ok_iff hs hd hlen hlower heq).mpr ⟨hwords, hfit⟩⟩
  · constructor
    · rintro ⟨-, h⟩
      rw [getRepositoryFullPathName, pathOf_error hlen] at h
      cases h
    · intro h
      exact absurd h.source hlen

end Entries

/-- A failed search is used exactly for an entry with both words and no `=` behind them. -/
theorem notFound_iff {s : Text} (hs : s ≠ []) (entry : Text) :
    getRepositoryFullPathName s entry ≠ .error .notFound ↔
      512 ≤ s.length ∨ DatabaseNamed entry := by
  by_cases hlen : s.length < 512
  · have hge : ¬512 ≤ s.length := by omega
    simp only [hge, false_or]
    by_cases hdriver : driverText <:+: tolowerStr entry 512
    · cases hafter : strstr databaseText (tolowerStr entry 512) with
      | none =>
        have hnone := strstr_eq_none_iff.mp hafter
        rw [repositoryFullPathName_plain hs hlen fun h => hnone h.2]
        simp only [fullPathName_ne, ne_eq, not_false_eq_true, true_iff]
        intro _ after h
        rw [hafter] at h
        cases h
      | some after =>
        have hnamed : DatabaseNamed entry ↔ '=' ∈ after := by
          simp [DatabaseNamed, hdriver, hafter]
        rw [repositoryFullPathName_driver hs hlen hdriver hafter, hnamed]
        by_cases heq : '=' ∈ after
        · obtain ⟨u, v, rfl, hv⟩ := eq_append_last_of_mem heq
          rw [← List.append_assoc, afterLast_append hv, ok_bind]
          simp [fullPathName_ne]
        · have hn : '=' ∉ databaseText ++ after := by
            rw [List.mem_append, not_or]
            exact ⟨by decide, heq⟩
          rw [afterLast_error hn]
          simp [heq]
    · rw [repositoryFullPathName_plain hs hlen fun h => hdriver h.1]
      simp [fullPathName_ne, DatabaseNamed, hdriver]
  · have hge : 512 ≤ s.length := by omega
    rw [getRepositoryFullPathName, pathOf_error hlen]
    simp [hge]

/-- The two spellings mean the same file exactly for the agreeing paths, and only an entry that
mixes both words without an `=` behind them makes the function use a failed search. -/
theorem repositoryFullPathName_iff (s : Text) (hs : s ≠ []) :
    (∀ d, (driverEntry d).length < 512 → (SameFile s d ↔ Agreeing s d)) ∧
      ∀ entry, getRepositoryFullPathName s entry ≠ .error .notFound ↔
        512 ≤ s.length ∨ DatabaseNamed entry :=
  ⟨fun _ hd => sameFile_iff hs hd, notFound_iff hs⟩

theorem repositoryFullPathName_sample :
    SameFile "c:\\journal\\".toList "sfrdev04@db2.db3".toList ∧
      getRepositoryFullPathName "c:\\journal\\".toList "database.db3".toList ≠
        .error .notFound := by
  obtain ⟨hsame, hdefined⟩ := repositoryFullPathName_iff "c:\\journal\\".toList (by decide)
  constructor
  · apply (hsame _ (by decide)).mpr
    exact ⟨by decide, by decide +kernel, by decide, by decide +kernel, fun _ => by decide⟩
  · apply (hdefined _).mpr
    right
    intro hdriver
    exact absurd hdriver (by decide +kernel)

/-- The second example of the header comment loses its capitals, and an entry without an `=` is
not defined. -/
theorem not_sameFile :
    ¬SameFile "C:\\Journal".toList "SFRDEV04@db2.db3".toList ∧
      getRepositoryFullPathName "C:\\Journal".toList "driver_database.db3".toList =
        .error .notFound := by
  constructor
  · rintro ⟨h, -⟩
    have hlost : getRepositoryFullPathName "C:\\Journal".toList
        (driverEntry "SFRDEV04@db2.db3".toList) = .ok "C:\\Journal\\sfrdev04@db2.db3".toList := by
      decide +kernel
    rw [hlost] at h
    exact absurd h (by decide +kernel)
  · decide +kernel

end BinlogCapture
