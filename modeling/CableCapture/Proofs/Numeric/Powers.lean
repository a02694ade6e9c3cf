import CableCapture.Proofs.Numeric.Arithmetic

/-!
# Exact powers

A power is computed by repeated squaring, in an order of its own. Where all powers of a base up to an
exponent are numbers themselves, nothing is rounded on the way to the greatest of them. So it is for
powers of two almost up to the end of the range, and for powers of ten as long as their odd part fits a
significand.
-/

namespace CableCapture.Binary64

variable {x y r : Float} {base limit : ℕ}

/-- A power with a natural exponent is never a reciprocal. -/
theorem power_natCast (x : Float) (n : ℕ) : power x n = powerTimes 1.0 x n := by
  unfold power
  simp only [Int.natAbs_natCast]
  rw [if_neg (by omega)]

/-- Powers up to this exponent are not rounded. -/
structure ExactPowers (base limit : ℕ) : Prop where
  rounded : ∀ n ≤ limit, rounded ((base : ℚ) ^ n) = (base : ℚ) ^ n
  lt : ∀ n ≤ limit, (base : ℚ) ^ n < 2 ^ (1024 : ℤ)

theorem exactPowers_two : ExactPowers 2 1023 where
  rounded n _ := rounded_two_pow n
  lt n hn := by
    rw [Nat.cast_ofNat, ← zpow_natCast]
    exact zpow_lt_zpow_right₀ (by norm_num) (by omega)

theorem exactPowers_ten : ExactPowers 10 22 where
  rounded n hn := by
    have hodd : |(5 ^ n : ℤ)| < 2 ^ 53 := by
      rw [abs_of_nonneg (by positivity)]
      exact (pow_le_pow_right₀ (by norm_num) hn).trans_lt (by norm_num)
    have hsplit : ((10 : ℕ) : ℚ) ^ n = ((5 ^ n : ℤ) : ℚ) * 2 ^ (n : ℤ) := by
      push_cast
      rw [zpow_natCast, ← mul_pow]
      norm_num
    rw [hsplit]
    exact rounded_of_grid hodd (by omega)
  lt n hn := by
    calc ((10 : ℕ) : ℚ) ^ n ≤ 10 ^ 22 := pow_le_pow_right₀ (by norm_num) hn
      _ < 2 ^ (74 : ℤ) := by norm_num
      _ ≤ 2 ^ (1024 : ℤ) := zpow_le_zpow_right₀ (by norm_num) (by norm_num)

namespace ExactPowers

variable (h : ExactPowers base limit)
include h

theorem denotes_mul {a b : ℕ} (hx : Denotes x (base ^ a)) (hy : Denotes y (base ^ b))
    (hle : a + b ≤ limit) : Denotes (x * y) (base ^ (a + b)) := by
  have hproduct : (base : ℚ) ^ a * base ^ b = base ^ (a + b) := (pow_add _ a b).symm
  have hmul := hx.mul_exact hy (by rw [hproduct, h.rounded _ hle]) (by
    rw [hproduct, abs_of_nonneg (by positivity)]
    exact h.lt _ hle)
  exact hmul.cast hproduct

/-- Repeated squaring keeps the product of the accumulator and the remaining power. -/
theorem denotes_powerTimes (n : ℕ) {a b : ℕ} (hr : Denotes r (base ^ a))
    (hx : Denotes x (base ^ b)) (hle : a + b * n ≤ limit) :
    Denotes (powerTimes r x n) (base ^ (a + b * n)) := by
  induction n using Nat.strong_induction_on generalizing r x a b with
  | _ n ih =>
    have hdigits : b * n = b * (n % 2) + (b + b) * (n / 2) := by
      conv_lhs => rw [← Nat.mod_add_div n 2]
      ring
    have haccumulator : Denotes (if n % 2 = 1 then r * x else r) (base ^ (a + b * (n % 2))) := by
      split
      · rename_i hodd
        rw [hodd, Nat.mul_one]
        exact h.denotes_mul hr hx (by rw [hodd] at hdigits; omega)
      · rename_i heven
        rwa [show n % 2 = 0 by omega, Nat.mul_zero, Nat.add_zero]
    rw [powerTimes]
    split
    · rename_i hlast
      rw [hlast, Nat.mul_zero, Nat.add_zero] at hdigits
      rwa [hdigits]
    · rename_i hmore
      have hsquare : b + b ≤ (b + b) * (n / 2) := Nat.le_mul_of_pos_right _ (by omega)
      have hstep := ih (n / 2) (by omega) haccumulator (h.denotes_mul hx hx (by omega))
        (by omega)
      rwa [hdigits, ← Nat.add_assoc]

theorem denotes_power {n : ℕ} (hx : Denotes x base) (hn : n ≤ limit) :
    Denotes (power x n) (base ^ n) := by
  have hone : Denotes 1.0 ((base : ℚ) ^ 0) := denotes_one.cast (pow_zero _).symm
  have hbase : Denotes x ((base : ℚ) ^ 1) := hx.cast (pow_one _).symm
  have hpower := h.denotes_powerTimes n hone hbase (by omega)
  rwa [Nat.zero_add, Nat.one_mul, ← power_natCast] at hpower

end ExactPowers

end CableCapture.Binary64
