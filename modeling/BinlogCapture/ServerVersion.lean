import BinlogCapture.StartArguments

/-! The version of the server: `GetMySQLVersion` makes one number of what `VERSION()` answers. -/
namespace BinlogCapture
open CString Fallible

/-- What the query of the version answers: a message of the client library, a result without a
row, or the version. -/
inductive VersionAnswer where
  | failed (szMsgError : Text)
  | noRow
  | row (pszValue : Text)
  deriving DecidableEq, Repr

/-- What `GetMySQLVersion` leaves. `szVersion` is what its loop has written to that buffer. -/
structure MySQLVersion where
  fReturn : Bool
  szMySqlVersion : Text
  iMySQLVersion : ℤ
  szVersion : Text
  szMsgError : Text
  deriving DecidableEq, Repr

/-- `atoi`: an `int` has 32 bits as well. -/
def atoi (s : Text) : ℤ := atol s

/-- The loop drops dots and blanks. -/
def keptInVersion (c : Char) : Bool := c ≠ '.' && c ≠ ' '

/-- `GetMySQLVersion`, given the number from before and the memory behind `szVersion`. -/
def getMySQLVersion (iMySQLVersion : ℤ) (behind : Text) :
    VersionAnswer → Except StartFault MySQLVersion
  | .failed szMsgError => .ok ⟨false, [], iMySQLVersion, [], szMsgError⟩
  | .noRow => .ok ⟨true, [], iMySQLVersion, [], []⟩
  | .row pszValue =>
    if 255 ≤ pszValue.length then .error .bounds
    else
      match strrchr '-' pszValue with
      | none =>
        .ok ⟨false, pszValue, iMySQLVersion, [], "Cannot format VERSION ".toList ++ pszValue⟩
      | some (s, _) =>
        let szVersion := s.filter keptInVersion
        if szVersion.length ≤ 20 then
          .ok ⟨true, pszValue,
            atoi (strAt (poke (List.replicate 20 nul ++ behind) 0 szVersion) 0), szVersion, []⟩
        else .error .bounds

/-- A version `D1.D2.D3` with nothing behind it, or with a suffix behind a dash. -/
structure ServerVersion where
  major : Text
  minor : Text
  patch : Text
  suffix : Text
  digits : ∀ t ∈ [major, minor, patch], t ≠ [] ∧ ∀ c ∈ t, c.isDigit = true
  dash : ∀ c ∈ suffix.head?, c = '-'
  string : nul ∉ suffix
  short : (major ++ '.' :: (minor ++ '.' :: (patch ++ suffix))).length ≤ 254

namespace ServerVersion

def text (v : ServerVersion) : Text :=
  v.major ++ '.' :: (v.minor ++ '.' :: (v.patch ++ v.suffix))

/-- The number whose digits are the three parts. -/
def number (v : ServerVersion) : ℕ := digitsValue (v.major ++ v.minor ++ v.patch)

/-- The version is taken over, and no more than the buffer for its digits is written. -/
def Accepted (v : ServerVersion) (iMySQLVersion : ℤ) (behind : Text) : Prop :=
  ∃ r, getMySQLVersion iMySQLVersion behind (.row v.text) = .ok r ∧ r.fReturn = true ∧
    (v.number < 2 ^ 31 → r.iMySQLVersion = v.number) ∧ r.szVersion.length ≤ 19

/-- What the loop of `GetMySQLVersion` goes over when the suffix goes up to its last dash. -/
def front (v : ServerVersion) (tail : Text) : Text :=
  v.major ++ '.' :: (v.minor ++ '.' :: (v.patch ++ tail))

section Digits
variable (v : ServerVersion)

theorem filter_digits {t : Text} (h : ∀ c ∈ t, c.isDigit = true) : t.filter keptInVersion = t := by
  rw [List.filter_eq_self]
  intro c hc
  have hd := h c hc
  have hdot : c ≠ '.' := fun he => absurd hd (by rw [he]; decide)
  have hblank : c ≠ ' ' := fun he => absurd hd (by rw [he]; decide)
  simp [keptInVersion, hdot, hblank]

theorem filter_front (tail : Text) : (v.front tail).filter keptInVersion =
    (v.major ++ v.minor ++ v.patch) ++ tail.filter keptInVersion := by
  have hdot : keptInVersion '.' = false := by decide
  simp only [front, List.filter_append, List.filter_cons, hdot, Bool.false_eq_true, ↓reduceIte,
    filter_digits (v.digits v.major (by simp)).2, filter_digits (v.digits v.minor (by simp)).2,
    filter_digits (v.digits v.patch (by simp)).2, List.append_assoc]

theorem isDigit_of_mem_number {c : Char} (h : c ∈ v.major ++ v.minor ++ v.patch) :
    c.isDigit = true := by
  rw [List.mem_append, List.mem_append] at h
  rcases h with (h | h) | h
  · exact (v.digits v.major (by simp)).2 c h
  · exact (v.digits v.minor (by simp)).2 c h
  · exact (v.digits v.patch (by simp)).2 c h

theorem dash_mem_text_iff : '-' ∈ v.text ↔ '-' ∈ v.suffix := by
  have hnot {t : Text} (h : ∀ c ∈ t, c.isDigit = true) : '-' ∉ t := by
    intro hm
    exact absurd (h _ hm) (by decide)
  simp [text, hnot (v.digits v.major (by simp)).2, hnot (v.digits v.minor (by simp)).2,
    hnot (v.digits v.patch (by simp)).2]

variable {v}

/-- The suffix that is kept, when there is one, begins with a dash. -/
theorem head_filter_tail {tail r : Text} (h : v.suffix = tail ++ '-' :: r) :
    ∀ c ∈ (tail.filter keptInVersion).head?, c.isDigit = false := by
  cases tail with
  | nil => simp
  | cons a tail =>
    have ha : a = '-' := v.dash a (by rw [h]; rfl)
    have hk : keptInVersion '-' = true := by decide
    rw [ha, List.filter_cons, if_pos hk]
    intro c hc
    cases hc
    decide

theorem atoi_kept {tail r : Text} (h : v.suffix = tail ++ '-' :: r) :
    atoi ((v.front tail).filter keptInVersion) = saturate v.number := by
  have hne : v.major ++ v.minor ++ v.patch ≠ [] := by
    have := (v.digits v.major (by simp)).1
    simp [this]
  rw [filter_front, atoi, number]
  exact atol_digits_append hne (fun c => v.isDigit_of_mem_number) (head_filter_tail h)

theorem nul_not_mem_front {tail r : Text} (h : v.suffix = tail ++ '-' :: r) :
    nul ∉ (v.front tail).filter keptInVersion := by
  intro hm
  rw [filter_front, List.mem_append] at hm
  rcases hm with hm | hm
  · exact absurd (v.isDigit_of_mem_number hm) (by decide)
  · apply v.string
    rw [h]
    exact List.mem_append_left _ (List.mem_of_mem_filter hm)

end Digits

/-- Up to the last dash there may be no more characters than the buffer takes. -/
theorem accepted_iff (v : ServerVersion) (iMySQLVersion : ℤ) (behind : Text) :
    v.Accepted iMySQLVersion behind ↔
      ∃ s r, v.text = s ++ '-' :: r ∧ '-' ∉ r ∧ (s.filter keptInVersion).length ≤ 19 := by
  have hshort : ¬255 ≤ v.text.length := by
    have := v.short
    rw [text]
    omega
  unfold Accepted
  rw [getMySQLVersion, if_neg hshort]
  by_cases hd : '-' ∈ v.suffix
  · obtain ⟨tail, r, hsuffix, hr⟩ := eq_append_last_of_mem hd
    have htext : v.text = v.front tail ++ '-' :: r := by
      rw [text, front, hsuffix]
      simp only [List.append_assoc, List.cons_append]
    rw [htext, strrchr_append hr]
    simp only
    constructor
    · rintro ⟨m, hm, -, -, hlen⟩
      split at hm
      · cases hm
        exact ⟨v.front tail, r, rfl, hr, hlen⟩
      · cases hm
    · rintro ⟨s, r', he, hr', hlen⟩
      have hlast := strrchr_append hr (v.front tail)
      rw [he, strrchr_append hr'] at hlast
      rw [(Prod.mk.inj (Option.some.inj hlast)).1] at hlen
      rw [if_pos (by omega)]
      refine ⟨_, rfl, rfl, ?_, hlen⟩
      intro hfits
      simp only [strAt_poke_zero (nul_not_mem_front hsuffix) (Nat.lt_succ_of_le hlen),
        atoi_kept hsuffix, saturate, longMin, longMax]
      omega
  · have hn : '-' ∉ v.text := fun h => hd (v.dash_mem_text_iff.mp h)
    rw [strrchr_of_not_mem hn]
    constructor
    · rintro ⟨m, hm, htrue, -⟩
      cases hm
      cases htrue
    · rintro ⟨s, r, he, -⟩
      rw [he] at hn
      exact absurd (by simp) hn

theorem digits_of_all {ts : List Text}
    (h : (ts.all fun t => !t.isEmpty && t.all Char.isDigit) = true) :
    ∀ t ∈ ts, t ≠ [] ∧ ∀ c ∈ t, c.isDigit = true := by
  intro t ht
  have hall := List.all_eq_true.mp h t ht
  simpa using hall

/-- MySQL without a suffix. -/
def plain : ServerVersion where
  major := "8".toList
  minor := "0".toList
  patch := "21".toList
  suffix := []
  digits := digits_of_all (by decide)
  dash := by simp
  string := by decide +kernel
  short := by decide +kernel

/-- MariaDB as a distribution names it. -/
def packaged : ServerVersion where
  major := "10".toList
  minor := "3".toList
  patch := "39".toList
  suffix := "-MariaDB-1:10.3.39+maria~ubu2004-log".toList
  digits := digits_of_all (by decide)
  dash := by
    rintro c h
    exact (Option.some.inj h).symm
  string := by decide +kernel
  short := by decide +kernel

/-- A version without a dash is refused, and one with a long suffix does not fit the buffer. -/
theorem not_accepted : ¬plain.Accepted 0 [] ∧ ¬packaged.Accepted 0 [] := by
  constructor
  · rintro ⟨r, hr, htrue, -⟩
    have h : (getMySQLVersion 0 [] (.row plain.text)).map MySQLVersion.fReturn = .ok false := by
      decide +kernel
    rw [hr, Except.map, htrue] at h
    cases h
  · rintro ⟨r, hr, -⟩
    have h : getMySQLVersion 0 [] (.row packaged.text) = .error .bounds := by decide +kernel
    rw [hr] at h
    cases h

end ServerVersion

end BinlogCapture
