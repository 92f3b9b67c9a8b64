import Mathlib.Data.Nat.Digits.Defs
import Mathlib.Algebra.Order.Group.Int
import Mathlib.Tactic.Ring

/-! Numbers stored in a fixed number of bytes, with the lowest or the highest byte first, and the
signed number of the same bytes. -/
namespace Bytes

/-- The number whose bytes are given with the lowest first. -/
def little (bs : List UInt8) : ℕ := Nat.ofDigits 256 (bs.map UInt8.toNat)

/-- The `w` lowest bytes of a number, the lowest first. -/
def storeLittle : ℕ → ℤ → List UInt8
  | 0, _ => []
  | w + 1, n => UInt8.ofInt n :: storeLittle w (n / 256)

def big (bs : List UInt8) : ℕ := little bs.reverse

def storeBig (w : ℕ) (n : ℤ) : List UInt8 := (storeLittle w n).reverse

/-- The number in two's complement of `w` bytes. -/
def signed (w n : ℕ) : ℤ := if 2 * n < 256 ^ w then n else n - 256 ^ w

@[simp] theorem little_nil : little [] = 0 := rfl

@[simp] theorem little_cons (b : UInt8) (bs : List UInt8) :
    little (b :: bs) = b.toNat + 256 * little bs := by
  simp [little, Nat.ofDigits_cons]

theorem little_lt (bs : List UInt8) : little bs < 256 ^ bs.length := by
  have h : ∀ x ∈ bs.map UInt8.toNat, x < 256 := by
    intro x hx
    obtain ⟨b, -, rfl⟩ := List.mem_map.mp hx
    exact b.toNat_lt
  simpa [little] using Nat.ofDigits_lt_base_pow_length (by omega) h

@[simp] theorem length_storeLittle (w : ℕ) (n : ℤ) : (storeLittle w n).length = w := by
  induction w generalizing n with
  | zero => rfl
  | succ w ih => simp [storeLittle, ih]

@[simp] theorem length_storeBig (w : ℕ) (n : ℤ) : (storeBig w n).length = w := by
  simp [storeBig]

theorem emod_256_mul (n : ℤ) {m : ℤ} (hm : 0 < m) :
    n % (256 * m) = n % 256 + 256 * (n / 256 % m) := by
  have hq : n / 256 = n / 256 % m + m * (n / 256 / m) := (Int.emod_add_mul_ediv _ _).symm
  have hn : n = n % 256 + 256 * (n / 256 % m) + 256 * m * (n / 256 / m) := by
    calc n = n % 256 + 256 * (n / 256) := (Int.emod_add_mul_ediv _ _).symm
      _ = n % 256 + 256 * (n / 256 % m + m * (n / 256 / m)) := by rw [← hq]
      _ = _ := by ring
  have hlow := Int.emod_nonneg (n / 256) hm.ne'
  have hhigh := Int.emod_lt_of_pos (n / 256) hm
  conv_lhs => rw [hn, Int.add_mul_emod_self_left]
  exact Int.emod_eq_of_lt (by omega) (by omega)

theorem little_storeLittle (w : ℕ) (n : ℤ) : (little (storeLittle w n) : ℤ) = n % 256 ^ w := by
  induction w generalizing n with
  | zero => simp [storeLittle]
  | succ w ih =>
    have hb : ((UInt8.ofInt n).toNat : ℤ) = n % 256 := by
      simp only [UInt8.ofInt, UInt8.toNat_ofNat']
      omega
    rw [pow_succ', emod_256_mul n (by positivity), ← ih, ← hb]
    simp [storeLittle]

theorem big_storeBig (w : ℕ) (n : ℤ) : (big (storeBig w n) : ℤ) = n % 256 ^ w := by
  simp [big, storeBig, little_storeLittle]

/-- A number that fits is read back. -/
theorem little_store {w n : ℕ} (h : n < 256 ^ w) : little (storeLittle w n) = n := by
  have heq := little_storeLittle w n
  rw [Int.emod_eq_of_lt (by omega) (by exact_mod_cast h)] at heq
  exact_mod_cast heq

theorem big_store {w n : ℕ} (h : n < 256 ^ w) : big (storeBig w n) = n := by
  simpa [big, storeBig] using little_store h

theorem signed_emod (w : ℕ) {m : ℕ} {n : ℤ} (hm : (m : ℤ) = n % 256 ^ w)
    (hlow : -(256 ^ w) ≤ 2 * n) (hhigh : 2 * n < 256 ^ w) : signed w m = n := by
  have hpow : (256 : ℤ) ^ w = (256 ^ w : ℕ) := by push_cast; rfl
  rw [hpow] at hm hlow hhigh
  rw [signed, hpow]
  rcases lt_or_ge n 0 with hneg | hpos
  · rw [← Int.add_emod_right, Int.emod_eq_of_lt (by omega) (by omega)] at hm
    rw [if_neg (by omega)]
    omega
  · rw [Int.emod_eq_of_lt (by omega) (by omega)] at hm
    rw [if_pos (by omega)]
    omega

/-- A signed number that fits is read back. -/
theorem signed_little_store {w : ℕ} {n : ℤ} (hlow : -(256 ^ w) ≤ 2 * n)
    (hhigh : 2 * n < 256 ^ w) : signed w (little (storeLittle w n)) = n :=
  signed_emod w (little_storeLittle w n) hlow hhigh

theorem signed_big_store {w : ℕ} {n : ℤ} (hlow : -(256 ^ w) ≤ 2 * n)
    (hhigh : 2 * n < 256 ^ w) : signed w (big (storeBig w n)) = n :=
  signed_emod w (big_storeBig w n) hlow hhigh

end Bytes
