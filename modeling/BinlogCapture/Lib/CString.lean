import Mathlib.Algebra.Group.Int.Defs
import Mathlib.Algebra.GroupWithZero.Nat
import Mathlib.Data.Int.Basic
import Mathlib.Data.List.TakeWhile
import Mathlib.Order.Basic

/-! Byte strings as C programs handle them: NUL-terminated memory, prefix tests, searches,
and the decimal numbers of `printf` and `atol` on a platform whose `long` has 32 bits. -/
namespace CString

/-- A character stands for one byte. -/
abbrev Text := List Char

def nul : Char := '\x00'

/-- The C string at index `i` of a memory. -/
def strAt (mem : Text) (i : ℕ) : Text := (mem.drop i).takeWhile (· ≠ nul)

/-- Write the bytes `t` at index `i` of a memory, which grows when they reach past its end. -/
def poke (mem : Text) (i : ℕ) (t : Text) : Text := mem.take i ++ t ++ mem.drop (i + t.length)

/-- `strcpy` of a string to index `i`, with its terminator. -/
def strcpy (mem : Text) (i : ℕ) (s : Text) : Text := poke mem i (s ++ [nul])

/-- `strncmp(s, p, strlen(p)) == 0`. -/
def startsWith (s p : Text) : Bool := p.isPrefixOf s

/-- `strchr`: the bytes before the first `c` and the bytes after it. -/
def strchr (c : Char) : Text → Option (Text × Text)
  | [] => none
  | a :: t => if a = c then some ([], t) else (strchr c t).map fun r => (a :: r.1, r.2)

/-- `strrchr`: the bytes before the last `c` and the bytes after it. -/
def strrchr (c : Char) : Text → Option (Text × Text)
  | [] => none
  | a :: t =>
    match strrchr c t with
    | some r => some (a :: r.1, r.2)
    | none => if a = c then some ([], t) else none

/-- `strstr`, returning what follows the first occurrence of `p`. -/
def strstr (p : Text) : Text → Option Text
  | [] => if p = [] then some [] else none
  | a :: t => if startsWith (a :: t) p then some ((a :: t).drop p.length) else strstr p t

/-- `tolower` of each byte in the C locale. -/
def lower (t : Text) : Text := t.map Char.toLower

def isspace (c : Char) : Bool := c ∈ [' ', '\t', '\n', '\x0b', '\x0c', '\r']

def longMin : ℤ := -2 ^ 31
def longMax : ℤ := 2 ^ 31 - 1

def saturate (n : ℤ) : ℤ := max longMin (min n longMax)

def digitsValue (t : Text) : ℕ := Nat.ofDigitChars 10 (t.takeWhile Char.isDigit) 0

/-- `atol`, which saturates. -/
def atol (s : Text) : ℤ :=
  match s.dropWhile isspace with
  | '-' :: t => saturate (-(digitsValue t : ℤ))
  | '+' :: t => saturate (digitsValue t)
  | t => saturate (digitsValue t)

/-- Conversion to a 32-bit `unsigned long`. -/
def toULong (n : ℤ) : ℕ := (n % 2 ^ 32).toNat

/-- The decimal digits printed by `%lu` and `%lld` for a number that is not negative. -/
def decimal (n : ℕ) : Text := Nat.toDigits 10 n

/-- The digits printed by `%010lu`. -/
def decimal010 (n : ℕ) : Text := List.leftpad 10 '0' (decimal n)

section Memory

@[simp] theorem length_poke {mem t : Text} {i : ℕ} (h : i ≤ mem.length) :
    (poke mem i t).length = max mem.length (i + t.length) := by
  simp only [poke, List.length_append, List.length_take, List.length_drop]
  omega

theorem poke_append {pre mem : Text} {i : ℕ} (hi : i = pre.length) (t : Text) :
    poke (pre ++ mem) i t = pre ++ t ++ mem.drop t.length := by
  subst hi
  simp [poke, List.drop_append]

/-- Writing the terminator again changes nothing. -/
theorem poke_nul (t mem : Text) : poke (t ++ nul :: mem) t.length [nul] = t ++ nul :: mem := by
  rw [poke_append rfl]
  simp

theorem strcpy_append {p mem : Text} {i : ℕ} (hi : i = p.length) (s : Text) :
    strcpy (p ++ mem) i s = p ++ (s ++ nul :: mem.drop (s.length + 1)) := by
  rw [strcpy, poke_append hi]
  simp

theorem strcpy_zero (mem s : Text) : strcpy mem 0 s = s ++ nul :: mem.drop (s.length + 1) :=
  strcpy_append (p := []) rfl s

/-- A string ends at its first terminator. -/
theorem takeWhile_ne_append_cons (s t : Text) (c : Char) :
    (s ++ c :: t).takeWhile (· ≠ c) = s.takeWhile (· ≠ c) := by
  induction s with
  | nil => simp
  | cons a s ih => simp only [List.cons_append, List.takeWhile_cons, ih]

theorem takeWhile_ne_of_not_mem {s : Text} {c : Char} (h : c ∉ s) : s.takeWhile (· ≠ c) = s := by
  rw [List.takeWhile_eq_self_iff]
  intro a ha
  simpa using fun he : a = c => h (he ▸ ha)

theorem takeWhile_ne_append {s : Text} {c : Char} (h : c ∉ s) (t : Text) :
    (s ++ c :: t).takeWhile (· ≠ c) = s := by
  rw [takeWhile_ne_append_cons, takeWhile_ne_of_not_mem h]

/-- A text is known from what it begins, up to a character that is not in it. -/
theorem append_sep_injective {p q r s : Text} (c : Char) (hp : c ∉ p) (hq : c ∉ q)
    (h : p ++ c :: r = q ++ c :: s) : p = q ∧ r = s := by
  have hpq : p = q := by rw [← takeWhile_ne_append hp r, h, takeWhile_ne_append hq s]
  subst hpq
  simpa using h

theorem strAt_append {p s : Text} {i : ℕ} (hi : i = p.length) (hs : nul ∉ s) (t : Text) :
    strAt (p ++ (s ++ nul :: t)) i = s := by
  subst hi
  rw [strAt, List.drop_left, takeWhile_ne_append hs]

theorem strAt_zero_append {s : Text} (hs : nul ∉ s) (t : Text) : strAt (s ++ nul :: t) 0 = s :=
  strAt_append (p := []) rfl hs t

end Memory

section Search

@[simp] theorem startsWith_iff {s p : Text} : startsWith s p = true ↔ p <+: s := by
  simp [startsWith]

theorem startsWith_append (p t : Text) : startsWith (p ++ t) p = true := by simp

theorem strchr_append {s : Text} {c : Char} (h : c ∉ s) (t : Text) :
    strchr c (s ++ c :: t) = some (s, t) := by
  induction s with
  | nil => simp [strchr]
  | cons a s ih =>
    rw [List.mem_cons, not_or] at h
    simp [strchr, Ne.symm h.1, ih h.2]

theorem strchr_eq_none_iff {c : Char} {t : Text} : strchr c t = none ↔ c ∉ t := by
  induction t with
  | nil => simp [strchr]
  | cons a t ih =>
    by_cases ha : a = c
    · simp [strchr, ha]
    · simp [strchr, ha, ih, Ne.symm ha]

theorem strchr_eq_some {c : Char} {t s r : Text} (h : strchr c t = some (s, r)) :
    t = s ++ c :: r ∧ c ∉ s := by
  induction t generalizing s with
  | nil => simp [strchr] at h
  | cons a t ih =>
    by_cases ha : a = c
    · simp only [strchr, ha, ↓reduceIte, Option.some.injEq, Prod.mk.injEq] at h
      obtain ⟨rfl, rfl⟩ := h
      simp [ha]
    · simp only [strchr, ha, ↓reduceIte, Option.map_eq_some_iff] at h
      obtain ⟨⟨s', r'⟩, h', he⟩ := h
      simp only [Prod.mk.injEq] at he
      obtain ⟨rfl, rfl⟩ := he
      obtain ⟨ht, hs⟩ := ih h'
      exact ⟨by rw [ht]; rfl, by simp [hs, Ne.symm ha]⟩

theorem strrchr_of_not_mem {c : Char} {t : Text} (h : c ∉ t) : strrchr c t = none := by
  induction t with
  | nil => rfl
  | cons a t ih =>
    rw [List.mem_cons, not_or] at h
    simp [strrchr, ih h.2, Ne.symm h.1]

theorem strrchr_append {c : Char} {t : Text} (h : c ∉ t) (s : Text) :
    strrchr c (s ++ c :: t) = some (s, t) := by
  induction s with
  | nil => simp [strrchr, strrchr_of_not_mem h]
  | cons a s ih => simp [strrchr, ih]

/-- A byte that occurs has a last occurrence. -/
theorem eq_append_last_of_mem {c : Char} {t : Text} (h : c ∈ t) :
    ∃ s r, t = s ++ c :: r ∧ c ∉ r := by
  obtain ⟨u, v, ht, hu⟩ := List.eq_append_cons_of_mem (List.mem_reverse.mpr h)
  refine ⟨v.reverse, u.reverse, ?_, by simpa using hu⟩
  rw [← List.reverse_reverse t, ht]
  simp

theorem strrchr_eq_none_iff {c : Char} {t : Text} : strrchr c t = none ↔ c ∉ t := by
  constructor
  · intro hn hm
    obtain ⟨s, r, rfl, hr⟩ := eq_append_last_of_mem hm
    rw [strrchr_append hr] at hn
    cases hn
  · exact strrchr_of_not_mem

theorem length_le_of_strstr {p t r : Text} (h : strstr p t = some r) : p.length ≤ t.length := by
  induction t with
  | nil =>
    rw [strstr] at h
    split at h
    · next hp => simp [hp]
    · simp at h
  | cons a t ih =>
    rw [strstr] at h
    split at h
    · next hs => exact (startsWith_iff.mp hs).length_le
    · exact Nat.le_succ_of_le (ih h)

/-- The first occurrence in a string is the first one in every longer string. -/
theorem strstr_append {p t r : Text} (h : strstr p t = some r) (hp : p ≠ []) (u : Text) :
    strstr p (t ++ u) = some (r ++ u) := by
  induction t with
  | nil => simp [strstr, hp] at h
  | cons a t ih =>
    rw [strstr] at h
    rw [List.cons_append, strstr]
    split at h
    · next hs =>
      have hpre := startsWith_iff.mp hs
      have hpre' : p <+: a :: (t ++ u) := hpre.trans (List.prefix_append (a :: t) u)
      rw [if_pos (startsWith_iff.mpr hpre'), ← List.cons_append,
        List.drop_append_of_le_length hpre.length_le, Option.some.inj h]
    · next hs =>
      have hns : ¬startsWith (a :: (t ++ u)) p = true := by
        intro hs'
        apply hs
        refine startsWith_iff.mpr (List.prefix_of_prefix_length_le (startsWith_iff.mp hs')
          (List.prefix_append (a :: t) u) ?_)
        exact Nat.le_succ_of_le (length_le_of_strstr h)
      rw [if_neg hns]
      exact ih h

theorem isSome_strrchr_iff {c : Char} {t : Text} : (strrchr c t).isSome = true ↔ c ∈ t := by
  rw [Option.isSome_iff_ne_none, ne_eq, strrchr_eq_none_iff, not_not]

theorem isSuffix_of_strstr {p t r : Text} (h : strstr p t = some r) : r <:+ t := by
  induction t with
  | nil =>
    rw [strstr] at h
    split at h
    · cases h
      exact List.suffix_rfl
    · cases h
  | cons a t ih =>
    rw [strstr] at h
    split at h
    · cases h
      exact List.drop_suffix _ _
    · exact (ih h).trans (List.suffix_cons a t)

theorem strstr_eq_none_iff {p t : Text} : strstr p t = none ↔ ¬p <:+: t := by
  induction t with
  | nil => by_cases hp : p = [] <;> simp [strstr, hp]
  | cons a t ih =>
    rw [strstr, List.infix_cons_iff, ← startsWith_iff]
    by_cases h : startsWith (a :: t) p = true
    · simp [h]
    · simp [h, ih]

end Search

section Lower

theorem toLower_of_isUpper {c : Char} (h : c.isUpper = true) : c.toLower.isLower = true := by
  have hc : c.val ≥ 'A'.val ∧ c.val ≤ 'Z'.val := of_decide_eq_true h
  have hval : c.toLower.val = c.val + ('a'.val - 'A'.val) := congrArg Char.val (dif_pos hc)
  have hfirst : 65 ≤ c.val.toNat := hc.1
  have hlast : c.val.toNat ≤ 90 := hc.2
  have hsum : c.toLower.val.toNat = c.val.toNat + 32 := by
    rw [hval, UInt32.toNat_add]
    have : ('a'.val - 'A'.val).toNat = 32 := by decide
    omega
  have hle : c.toLower.val ≥ 'a'.val := show 97 ≤ c.toLower.val.toNat by omega
  have hge : c.toLower.val ≤ 'z'.val := show c.toLower.val.toNat ≤ 122 by omega
  exact Bool.and_eq_true_iff.mpr ⟨decide_eq_true hle, decide_eq_true hge⟩

theorem toLower_eq_iff {c d : Char} (hd : d.isAlpha = false) : c.toLower = d ↔ c = d := by
  obtain ⟨hupper, hlower⟩ := Bool.or_eq_false_iff.mp hd
  by_cases hc : c.isUpper = true
  · have hl := toLower_of_isUpper hc
    constructor
    · rintro rfl
      rw [hl] at hlower
      cases hlower
    · rintro rfl
      rw [hc] at hupper
      cases hupper
  · have he : c.toLower = c := dif_neg fun h => hc (decide_eq_true h)
    rw [he]

theorem mem_lower_iff {d : Char} (hd : d.isAlpha = false) (t : Text) : d ∈ lower t ↔ d ∈ t := by
  simp [lower, toLower_eq_iff hd]

@[simp] theorem lower_append (s t : Text) : lower (s ++ t) = lower s ++ lower t := List.map_append

@[simp] theorem length_lower (t : Text) : (lower t).length = t.length := List.length_map _

end Lower

section Numbers

theorem isDigit_of_mem_decimal {n : ℕ} {c : Char} (h : c ∈ decimal n) : c.isDigit :=
  Nat.isDigit_of_mem_toDigits (by decide) (by decide) h

theorem not_mem_decimal {c : Char} (hc : c.isDigit = false) (n : ℕ) : c ∉ decimal n := by
  intro h
  rw [isDigit_of_mem_decimal h] at hc
  exact absurd hc (by decide)

theorem takeWhile_isDigit_decimal (n : ℕ) : (decimal n).takeWhile Char.isDigit = decimal n :=
  List.takeWhile_eq_self_iff.mpr fun _ h => isDigit_of_mem_decimal h

@[simp] theorem digitsValue_decimal (n : ℕ) : digitsValue (decimal n) = n := by
  rw [digitsValue, takeWhile_isDigit_decimal]
  exact Nat.ofDigitChars_ten_toDigits

/-- `atol` reads the digits in front and stops at the first byte that is none. -/
theorem atol_digits_append {t u : Text} (hne : t ≠ []) (ht : ∀ c ∈ t, c.isDigit = true)
    (hu : ∀ c ∈ u.head?, c.isDigit = false) : atol (t ++ u) = saturate (digitsValue t) := by
  have htake : (t ++ u).takeWhile Char.isDigit = t.takeWhile Char.isDigit := by
    have hnil : u.takeWhile Char.isDigit = [] := by
      cases u with
      | nil => rfl
      | cons c u => simp [hu c rfl]
    rw [List.takeWhile_append_of_pos ht, hnil, List.append_nil, List.takeWhile_eq_self_iff.mpr ht]
  obtain ⟨a, t, rfl⟩ := List.exists_cons_of_ne_nil hne
  have ha : a.isDigit = true := ht a (by simp)
  have hs : isspace a = false := by
    rw [isspace, decide_eq_false_iff_not]
    intro hs
    simp only [List.mem_cons, List.mem_nil_iff, or_false] at hs
    rcases hs with rfl | rfl | rfl | rfl | rfl | rfl <;> exact absurd ha (by decide)
  have hm : a ≠ '-' := fun h => absurd ha (by rw [h]; decide)
  have hp : a ≠ '+' := fun h => absurd ha (by rw [h]; decide)
  unfold atol
  rw [List.cons_append, List.dropWhile_cons, hs]
  simp only [Bool.false_eq_true, ↓reduceIte]
  split
  · next h => exact absurd (List.cons.inj h).1 hm
  · next h => exact absurd (List.cons.inj h).1 hp
  · rw [digitsValue, ← List.cons_append, htake, digitsValue]

theorem atol_of_digits {t : Text} (ht : ∀ c ∈ t, c.isDigit = true) :
    atol t = saturate (digitsValue t) := by
  by_cases hne : t = []
  · rw [hne]
    rfl
  · simpa using atol_digits_append (u := []) hne ht (by simp)

/-- What `atol` reads back from a printed number. -/
theorem atol_decimal (n : ℕ) : atol (decimal n) = min (n : ℤ) longMax := by
  rw [atol_of_digits fun _ h => isDigit_of_mem_decimal h, digitsValue_decimal, saturate,
    longMin, longMax]
  omega

theorem toULong_atol_decimal (n : ℕ) : toULong (atol (decimal n)) = min n (2 ^ 31 - 1) := by
  rw [atol_decimal, toULong, longMax]
  omega

theorem isDigit_of_mem_decimal010 {n : ℕ} {c : Char} (h : c ∈ decimal010 n) : c.isDigit := by
  rw [decimal010, List.leftpad, List.mem_append] at h
  rcases h with h | h
  · rw [List.eq_of_mem_replicate h]
    decide
  · exact isDigit_of_mem_decimal h

@[simp] theorem digitsValue_decimal010 (n : ℕ) : digitsValue (decimal010 n) = n := by
  rw [digitsValue, List.takeWhile_eq_self_iff.mpr fun _ h => isDigit_of_mem_decimal010 h,
    decimal010, List.leftpad, Nat.ofDigitChars_append, Nat.ofDigitChars_replicate_zero,
    Nat.mul_zero]
  exact Nat.ofDigitChars_ten_toDigits

theorem decimal010_injective {m n : ℕ} (h : decimal010 m = decimal010 n) : m = n := by
  rw [← digitsValue_decimal010 m, h, digitsValue_decimal010]

theorem toULong_atol_decimal010 (n : ℕ) :
    toULong (atol (decimal010 n)) = min n (2 ^ 31 - 1) := by
  rw [atol_of_digits fun _ h => isDigit_of_mem_decimal010 h, digitsValue_decimal010, toULong,
    saturate, longMin, longMax]
  omega

end Numbers

end CString
