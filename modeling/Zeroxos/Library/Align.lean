import Zeroxos.Library.Rust
import Mathlib.Algebra.Order.Floor.Div

/-!
# Rounding up to a multiple

`ceilAlign a n` is the least multiple of `n` from `a` on, in exact arithmetic. Kernels compute it
with the mask `(a + n - 1) & !(n - 1)` on machine words, which is the same number as long as nothing
wraps and its residue otherwise; `and_wnot_two_pow_sub_one` is the step from the mask to the
division.
-/

namespace Zeroxos

variable {a b n k : ℕ}

/-- The least multiple of `n` from `a` on. -/
def ceilAlign (a n : ℕ) : ℕ := (a + n - 1) / n * n

theorem dvd_ceilAlign (a n : ℕ) : n ∣ ceilAlign a n := Dvd.intro_left _ rfl

theorem ceilAlign_eq_ceilDiv (a n : ℕ) : ceilAlign a n = n * (a ⌈/⌉ n) := by
  rw [ceilAlign, Nat.ceilDiv_eq_add_pred_div, mul_comm]

theorem le_ceilAlign (hn : 0 < n) : a ≤ ceilAlign a n := by
  rw [ceilAlign_eq_ceilDiv]
  exact (ceilDiv_le_iff_le_mul hn).mp le_rfl

theorem ceilAlign_le (hn : 0 < n) (hb : n ∣ b) (hab : a ≤ b) : ceilAlign a n ≤ b := by
  obtain ⟨c, rfl⟩ := hb
  rw [ceilAlign_eq_ceilDiv]
  exact Nat.mul_le_mul_left n ((ceilDiv_le_iff_le_mul hn).mpr hab)

theorem ceilAlign_lt (hn : 0 < n) : ceilAlign a n < a + n := by
  have := Nat.div_mul_le_self (a + n - 1) n
  rw [ceilAlign]
  omega

theorem ceilAlign_of_dvd (hn : 0 < n) (h : n ∣ a) : ceilAlign a n = a :=
  le_antisymm (ceilAlign_le hn h le_rfl) (le_ceilAlign hn)

theorem and_wnot_two_pow_sub_one (ha : a < wordSize) (hk : k ≤ 64) :
    a &&& wnot (2 ^ k - 1) = a / 2 ^ k * 2 ^ k := by
  have hmask : wnot (2 ^ k - 1) = 2 ^ 64 - (2 ^ k - 1 + 1) := by
    rw [wnot, wordSize, Nat.sub_sub, add_comm 1]
  have hlt : 2 ^ k - 1 < 2 ^ 64 :=
    (Nat.sub_lt (Nat.two_pow_pos k) one_pos).trans_le (Nat.pow_le_pow_right two_pos hk)
  refine Nat.eq_of_testBit_eq fun i ↦ ?_
  rw [hmask, Nat.testBit_and, Nat.testBit_two_pow_sub_succ hlt, Nat.testBit_two_pow_sub_one,
    Nat.testBit_mul_two_pow, Nat.testBit_div_two_pow]
  by_cases hik : k ≤ i
  · have hbit : 64 ≤ i → a.testBit i = false := fun hi ↦
      Nat.testBit_lt_two_pow (ha.trans_le (Nat.pow_le_pow_right two_pos hi))
    by_cases hi : i < 64
    · simp [hi, hik, not_lt.mpr hik]
    · simp [hbit (not_lt.mp hi), hik]
  · simp [hik, not_le.mp hik]

theorem mod_wordSize_div_mul (hk : k ≤ 64) :
    a % wordSize / 2 ^ k * 2 ^ k = a / 2 ^ k * 2 ^ k % wordSize := by
  obtain ⟨m, hm⟩ : 2 ^ k ∣ wordSize := pow_dvd_pow 2 hk
  rw [hm, Nat.mod_mul_right_div_self, mul_comm (a / 2 ^ k), Nat.mul_mod_mul_left, mul_comm]

end Zeroxos
