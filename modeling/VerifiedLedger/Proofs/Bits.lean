import Mathlib.Tactic.Ring
import Mathlib.Data.Nat.Find
import VerifiedLedger.Bytes.Bits
/-! # Bits of a sum

How the bit counts behave when a number is split at a power of two. A count of leaves is split in
this way where its smallest full subtree begins.
-/
namespace VerifiedLedger.Bits

@[simp] theorem ones_zero : ones 0 = 0 := by
  rw [ones, if_pos rfl]

theorem ones_of_pos {n : ℕ} (h : 0 < n) : ones n = n % 2 + ones (n / 2) := by
  rw [ones, if_neg (by omega)]

theorem ones_double (n : ℕ) : ones (2 * n) = ones n := by
  rcases Nat.eq_zero_or_pos n with rfl | h
  · simp
  · rw [ones_of_pos (by omega : 0 < 2 * n), show 2 * n % 2 = 0 by omega,
      show 2 * n / 2 = n by omega, Nat.zero_add]

theorem ones_double_add_one (n : ℕ) : ones (2 * n + 1) = ones n + 1 := by
  rw [ones_of_pos (by omega : 0 < 2 * n + 1), show (2 * n + 1) % 2 = 1 by omega,
    show (2 * n + 1) / 2 = n by omega, Nat.add_comm]

theorem ones_two_pow_mul (k n : ℕ) : ones (2 ^ k * n) = ones n := by
  induction k with
  | zero => simp
  | succ k ih => rw [show 2 ^ (k + 1) * n = 2 * (2 ^ k * n) by ring, ones_double, ih]

/-- Bits below a power of two and bits from it on are counted apart. -/
theorem ones_two_pow_mul_add (k m r : ℕ) (h : r < 2 ^ k) :
    ones (2 ^ k * m + r) = ones m + ones r := by
  induction k generalizing r with
  | zero =>
    obtain rfl : r = 0 := by simpa using h
    simp
  | succ k ih =>
    have hr : r / 2 < 2 ^ k := by
      rw [Nat.pow_succ] at h
      omega
    have hm := ih (r / 2) hr
    rcases Nat.mod_two_eq_zero_or_one r with h2 | h2
    · have hs : 2 ^ (k + 1) * m + r = 2 * (2 ^ k * m + r / 2) := by
        rw [show 2 ^ (k + 1) * m = 2 * (2 ^ k * m) by ring]
        omega
      rw [hs, ones_double, hm, ← ones_double (r / 2), show 2 * (r / 2) = r by omega]
    · have hs : 2 ^ (k + 1) * m + r = 2 * (2 ^ k * m + r / 2) + 1 := by
        rw [show 2 ^ (k + 1) * m = 2 * (2 ^ k * m) by ring]
        omega
      have hr1 := ones_double_add_one (r / 2)
      rw [show 2 * (r / 2) + 1 = r by omega] at hr1
      rw [hs, ones_double_add_one, hm, hr1, Nat.add_assoc]

theorem trailingOnes_of_even {n : ℕ} (h : n % 2 = 0) : trailingOnes n = 0 := by
  rw [trailingOnes, if_neg (by omega)]

theorem trailingOnes_of_odd {n : ℕ} (h : n % 2 = 1) :
    trailingOnes n = trailingOnes (n / 2) + 1 := by
  rw [trailingOnes, if_pos h, Nat.add_comm]

/-- The carry: one more turns the trailing ones into zeros and the zero above them into a one. -/
theorem ones_add_one (n : ℕ) : ones (n + 1) + trailingOnes n = ones n + 1 := by
  induction n using Nat.strong_induction_on with
  | _ n ih =>
    rcases Nat.mod_two_eq_zero_or_one n with h2 | h2
    · obtain ⟨half, rfl⟩ : ∃ half, n = 2 * half := ⟨n / 2, by omega⟩
      rw [trailingOnes_of_even h2, ones_double_add_one, ones_double, Nat.add_zero]
    · obtain ⟨half, rfl⟩ : ∃ half, n = 2 * half + 1 := ⟨n / 2, by omega⟩
      have hhalf := ih half (by omega)
      rw [trailingOnes_of_odd h2, show (2 * half + 1) / 2 = half by omega, ones_double_add_one,
        show 2 * half + 1 + 1 = 2 * (half + 1) by omega, ones_double]
      omega

theorem trailingOnes_le_ones (n : ℕ) : trailingOnes n ≤ ones n := by
  fun_induction trailingOnes n with
  | case1 n h ih =>
    have hones := ones_of_pos (by omega : 0 < n)
    omega
  | case2 n h => exact Nat.zero_le _

/-- A count other than zero is an odd multiple of the size of its smallest full subtree. -/
theorem eq_two_pow_trailingZeros_mul {n : ℕ} (h : n ≠ 0) :
    n = 2 ^ trailingZeros n * (n / 2 ^ trailingZeros n) ∧
      n / 2 ^ trailingZeros n % 2 = 1 := by
  fun_induction trailingZeros n with
  | case1 n hn => exact ⟨by simp, by simpa [h] using hn⟩
  | case2 n hn ih =>
    obtain ⟨hm, ho⟩ := ih (by omega)
    have hd : n / 2 ^ (1 + trailingZeros (n / 2)) = n / 2 / 2 ^ trailingZeros (n / 2) := by
      rw [Nat.pow_add, Nat.pow_one, Nat.div_div_eq_div_mul]
    rw [hd]
    refine ⟨?_, ho⟩
    calc n = 2 * (n / 2) := by omega
      _ = 2 * (2 ^ trailingZeros (n / 2) * (n / 2 / 2 ^ trailingZeros (n / 2))) := by rw [← hm]
      _ = _ := by ring

theorem two_pow_trailingZeros_dvd (n : ℕ) : 2 ^ trailingZeros n ∣ n := by
  rcases eq_or_ne n 0 with rfl | h
  · exact Nat.dvd_zero _
  · exact ⟨_, (eq_two_pow_trailingZeros_mul h).1⟩

/-- No larger power of two divides the count. -/
theorem two_pow_dvd_iff_le_trailingZeros {n : ℕ} (h : n ≠ 0) (k : ℕ) :
    2 ^ k ∣ n ↔ k ≤ trailingZeros n := by
  obtain ⟨hn, ho⟩ := eq_two_pow_trailingZeros_mul h
  constructor
  · intro hk
    by_contra hlt
    have h2 : 2 ^ (trailingZeros n + 1) ∣ n := (Nat.pow_dvd_pow 2 (by omega)).trans hk
    rw [Nat.pow_succ, ← Nat.dvd_div_iff_mul_dvd (two_pow_trailingZeros_dvd n)] at h2
    omega
  · exact fun hk => (Nat.pow_dvd_pow 2 hk).trans (two_pow_trailingZeros_dvd n)

theorem ones_shiftRight_trailingZeros (n : ℕ) : ones (n >>> trailingZeros n) = ones n := by
  rw [Nat.shiftRight_eq_div_pow]
  rcases eq_or_ne n 0 with rfl | h
  · simp
  · conv_rhs => rw [(eq_two_pow_trailingZeros_mul h).1, ones_two_pow_mul]

theorem half_congr {first second k : ℕ} (h : first % 2 ^ (k + 1) = second % 2 ^ (k + 1)) :
    first % 2 = second % 2 ∧ first / 2 % 2 ^ k = second / 2 % 2 ^ k := by
  rw [Nat.pow_succ'] at h
  refine ⟨?_, ?_⟩
  · rw [← Nat.mod_mul_right_mod first 2, h, Nat.mod_mul_right_mod]
  · rw [← Nat.mod_mul_right_div_self, h, Nat.mod_mul_right_div_self]

end VerifiedLedger.Bits
