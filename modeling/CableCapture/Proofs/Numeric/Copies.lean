import CableCapture.Numeric.Statistics
import CableCapture.Proofs.Numeric.Folds

/-!
# Means of equal numbers

Copies of one number are added up one after another, and every sum is rounded. Multiples that need no
rounding bound the sums from both sides, so that the mean stays within the same powers of two as the
number, but it need not be the number itself. The difference of two numbers is zero only if they are
equal, since all of them are multiples of the least one.
-/

namespace CableCapture.Binary64

open Float.Model Float.Model.UnpackedFloat

variable {x y : Float} {v w : ℚ}

/-! ## Zeros -/

theorem denotes_zero : Denotes 0.0 0 :=
  (denotes_ofNat_small (n := 0) (by norm_num)).cast (by norm_num)

theorem denotes_neg_zero : Denotes (-0.0) 0 := denotes_zero.neg.cast neg_zero

/-- The difference of floats whose unpacked forms are these. -/
theorem sub_of_unpack {u w : UnpackedFloat} (hx : x.toModel.unpack = u) (hy : y.toModel.unpack = w) :
    x - y = .ofModel (.pack (.sub Format.binary64 u w)) := by
  rw [← hx, ← hy]
  rfl

theorem abs_of_unpack {u : UnpackedFloat} (hx : x.toModel.unpack = u) :
    x.abs = .ofModel (.pack u.abs) := by
  rw [← hx]
  rfl

/-- Equal significands cancel to a positive zero. -/
theorem sub_finite_self (s : Sign) {m : ℕ} (e : ℤ) (hm : 0 < m) :
    UnpackedFloat.sub Format.binary64 (.finite s m e hm) (.finite s m e hm) = .zero .positive := by
  have hcancel := Int.sub_self (s.apply (decreaseExponent m e (min e e)).1)
  unfold UnpackedFloat.sub UnpackedFloat.normalize
  dsimp only
  rw [hcancel]
  rfl

theorem Denotes.sub_self (hx : Denotes x v) : x - x = 0.0 := by
  rw [sub_of_unpack rfl rfl]
  unfold Denotes at hx
  generalize x.toModel.unpack = u at hx
  cases hx with
  | zero s => cases s <;> rfl
  | @finite s m e hm h =>
    rw [sub_finite_self s e hm]
    rfl

theorem Denotes.mul_self_of_zero (hx : Denotes x 0) : x * x = 0.0 := by
  obtain ⟨s, hunpack⟩ := Stands.eq_zero hx rfl
  rw [mul_of_unpack hunpack hunpack]
  cases s <;> rfl

theorem Denotes.abs_of_zero (hx : Denotes x 0) : x.abs = 0.0 := by
  obtain ⟨s, hunpack⟩ := Stands.eq_zero hx rfl
  rw [abs_of_unpack hunpack]
  cases s <;> rfl

theorem Denotes.zero_div (hy : Denotes y w) (hw : 0 < w) : 0.0 / y = 0.0 := by
  obtain ⟨m, e, hm, -, -, hunpack⟩ := Stands.exists_of_pos hy hw
  rw [div_of_unpack (u := .zero .positive) rfl hunpack]
  rfl

theorem Denotes.abs (hx : Denotes x v) : Denotes x.abs |v| := by
  rw [abs_of_unpack rfl]
  refine Stands.denotes ?_ (by rw [abs_abs]; exact hx.abs_lt)
  unfold Denotes at hx
  generalize x.toModel.unpack = u at hx
  cases hx with
  | zero s =>
    rw [abs_zero]
    exact .zero _
  | @finite s m e hm h =>
    rw [abs_signed s (mul_nonneg (Nat.cast_nonneg m) (two_zpow_pos e).le)]
    exact .finite .positive hm h

theorem power_two (x : Float) : power x 2 = 1.0 * (x * x) := by
  have htimes : powerTimes 1.0 x 2 = 1.0 * (x * x) := by
    rw [powerTimes, powerTimes]
    rfl
  unfold power
  exact htimes

/-! ## Differences -/

/-- All numbers are multiples of the least positive one. -/
theorem exists_eq_mul_least (h : rounded v = v) : ∃ k : ℤ, v = k * 2 ^ (-1074 : ℤ) := by
  obtain ⟨shift, hshift⟩ := Int.eq_ofNat_of_zero_le (sub_nonneg.2 (le_ulpExponent v))
  refine ⟨nearestEven (v / 2 ^ ulpExponent v) * 2 ^ shift, ?_⟩
  have hpower : (2 : ℚ) ^ ulpExponent v = 2 ^ shift * 2 ^ (-1074 : ℤ) := by
    rw [← zpow_natCast, ← zpow_add₀ (by norm_num)]
    congr 1
    omega
  rw [Int.cast_mul, Int.cast_pow, Int.cast_ofNat, mul_assoc, ← hpower]
  exact h.symm

theorem rounded_least : rounded (2 ^ (-1074 : ℤ)) = 2 ^ (-1074 : ℤ) := by
  have h := rounded_of_grid (n := 1) (e := -1074) (by norm_num) (le_refl _)
  rwa [Int.cast_one, one_mul] at h

theorem least_le_mul {k : ℤ} (h : (0 : ℚ) < k * 2 ^ (-1074 : ℤ)) :
    2 ^ (-1074 : ℤ) ≤ (k : ℚ) * 2 ^ (-1074 : ℤ) := by
  have hk : (0 : ℚ) < k := (mul_pos_iff_of_pos_right (two_zpow_pos _)).1 h
  have hone : (1 : ℚ) ≤ k := by exact_mod_cast (Int.cast_pos.1 hk)
  exact le_mul_of_one_le_left (two_zpow_pos _).le hone

/-- No positive number is below the least one. -/
theorem least_le (h : rounded v = v) (hv : 0 < v) : 2 ^ (-1074 : ℤ) ≤ v := by
  obtain ⟨k, rfl⟩ := exists_eq_mul_least h
  exact least_le_mul hv

theorem rounded_pos (hv : 2 ^ (-1074 : ℤ) ≤ v) : 0 < rounded v :=
  (two_zpow_pos _).trans_le (rounded_least.symm.le.trans (rounded_mono hv))

theorem rounded_sub_pos (hv : rounded v = v) (hw : rounded w = w) (h : w < v) :
    0 < rounded (v - w) := by
  obtain ⟨k, hk⟩ := exists_eq_mul_least hv
  obtain ⟨l, hl⟩ := exists_eq_mul_least hw
  have hdifference : v - w = (k - l : ℤ) * 2 ^ (-1074 : ℤ) := by
    rw [hk, hl, Int.cast_sub, sub_mul]
  rw [hdifference]
  exact rounded_pos (least_le_mul (hdifference ▸ sub_pos.2 h))

/-- Numbers that differ have a difference that is not rounded to zero. -/
theorem rounded_sub_eq_zero (hv : rounded v = v) (hw : rounded w = w) :
    rounded (v - w) = 0 ↔ v = w := by
  constructor
  · intro h
    rcases lt_trichotomy v w with hlt | heq | hgt
    · have hpos := rounded_sub_pos hw hv hlt
      rw [← neg_sub, rounded_neg, neg_eq_zero] at h
      exact absurd h hpos.ne'
    · exact heq
    · exact absurd h (rounded_sub_pos hv hw hgt).ne'
  · rintro rfl
    rw [sub_self, rounded_zero]

/-! ## Sums of copies -/

/-- The sum of so many copies, rounded each time one is added. -/
def sumOfCopies (v : ℚ) : ℕ → ℚ
  | 0 => 0
  | n + 1 => rounded (sumOfCopies v n + v)

theorem sumOfCopies_neg (v : ℚ) (n : ℕ) : sumOfCopies (-v) n = -sumOfCopies v n := by
  induction n with
  | zero => exact neg_zero.symm
  | succ n ih => rw [sumOfCopies, sumOfCopies, ih, ← neg_add, rounded_neg]

/-- Multiples that fit a significand are a bound from below. -/
theorem le_sumOfCopies {m e : ℤ} (he : -1074 ≤ e) (hv : m * 2 ^ e ≤ v) {n : ℕ}
    (hn : n * |m| < 2 ^ 53) : n * (m * 2 ^ e) ≤ sumOfCopies v n := by
  induction n with
  | zero => simp [sumOfCopies]
  | succ n ih =>
    have hless : n * |m| < 2 ^ 53 := by
      push_cast at hn
      nlinarith [abs_nonneg m]
    have hexact : rounded (((n + 1 : ℕ) : ℚ) * (m * 2 ^ e)) = (n + 1 : ℕ) * (m * 2 ^ e) := by
      have hgrid := rounded_of_grid (n := (n + 1 : ℕ) * m) (by rwa [abs_mul, Nat.abs_cast]) he
      push_cast at hgrid ⊢
      rwa [mul_assoc] at hgrid
    -- Rounding leaves the multiple as it is, so it does not carry the sum across it.
    rw [← hexact]
    refine rounded_mono ?_
    calc ((n + 1 : ℕ) : ℚ) * (m * 2 ^ e) = n * (m * 2 ^ e) + m * 2 ^ e := by push_cast; ring
      _ ≤ sumOfCopies v n + v := add_le_add (ih hless) hv

theorem sumOfCopies_le {m e : ℤ} (he : -1074 ≤ e) (hv : v ≤ m * 2 ^ e) {n : ℕ}
    (hn : n * |m| < 2 ^ 53) : sumOfCopies v n ≤ n * (m * 2 ^ e) := by
  have hneg := le_sumOfCopies (v := -v) (m := -m) he (by push_cast; linarith) (by rwa [abs_neg])
  rw [sumOfCopies_neg] at hneg
  push_cast at hneg
  linarith

/-- A number with a short significand is added up without an error. -/
theorem sumOfCopies_of_grid {m e : ℤ} (he : -1074 ≤ e) {n : ℕ} (hn : n * |m| < 2 ^ 53) :
    sumOfCopies (m * 2 ^ e) n = n * (m * 2 ^ e) :=
  le_antisymm (sumOfCopies_le he le_rfl hn) (le_sumOfCopies he le_rfl hn)

theorem abs_sumOfCopies_le {a n : ℕ} (hv : |v| ≤ 2 ^ a) (hn : n < 2 ^ 53) :
    |sumOfCopies v n| ≤ n * 2 ^ a := by
  obtain ⟨hlower, hupper⟩ := abs_le.1 hv
  have hcount : (n : ℤ) < 2 ^ 53 := by exact_mod_cast hn
  have hbelow := le_sumOfCopies (v := v) (m := -1) (e := a) (n := n) (by omega)
    (by rw [zpow_natCast]; push_cast; linarith) (by rwa [abs_neg, abs_one, mul_one])
  have habove := sumOfCopies_le (v := v) (m := 1) (e := a) (n := n) (by omega)
    (by rw [zpow_natCast]; push_cast; linarith) (by rwa [abs_one, mul_one])
  rw [zpow_natCast] at hbelow habove
  push_cast at hbelow habove
  exact abs_le.2 ⟨by linarith, by linarith⟩

theorem abs_sumOfCopies_div_le {a n : ℕ} (hv : |v| ≤ 2 ^ a) (hpos : 0 < n) (hn : n < 2 ^ 53) :
    |sumOfCopies v n / n| ≤ 2 ^ a := by
  have hcount : (0 : ℚ) < n := by exact_mod_cast hpos
  rw [abs_div, abs_of_pos hcount, div_le_iff₀ hcount, mul_comm]
  exact abs_sumOfCopies_le hv hn

theorem sum_replicate_succ (x : Float) (n : ℕ) :
    sum (List.replicate (n + 1) x) = sum (List.replicate n x) + x := by
  unfold sum
  rw [List.replicate_succ', List.foldl_append]
  rfl

section Replicate

variable {a n : ℕ} (hx : Denotes x v) (hv : |v| ≤ 2 ^ a) (ha : a ≤ 960)
include hx hv ha

theorem denotes_sum_replicate (hn : n < 2 ^ 53) :
    Denotes (sum (List.replicate n x)) (sumOfCopies v n) := by
  induction n with
  | zero => exact denotes_neg_zero
  | succ n ih =>
    have hbound := abs_sumOfCopies_le hv hn
    rw [sum_replicate_succ]
    refine (ih (by omega)).add hx (hbound.trans_lt ?_)
    have hcount : ((n + 1 : ℕ) : ℚ) < 2 ^ 53 := by exact_mod_cast hn
    calc ((n + 1 : ℕ) : ℚ) * 2 ^ a < 2 ^ 53 * 2 ^ a :=
          mul_lt_mul_of_pos_right hcount (by positivity)
      _ = 2 ^ ((53 + a : ℕ) : ℤ) := by rw [zpow_natCast, pow_add]
      _ ≤ 2 ^ (1024 : ℤ) := zpow_le_zpow_right₀ (by norm_num) (by omega)

/-- The mean of equal numbers, which rounds once more. -/
theorem denotes_mean_replicate (hpos : 0 < n) (hn : n < 2 ^ 53) :
    Denotes (Signal.mean (List.replicate n x)) (rounded (sumOfCopies v n / n)) := by
  have hcount : (0 : ℚ) < n := by exact_mod_cast hpos
  unfold Signal.mean
  rw [List.length_replicate]
  refine (denotes_sum_replicate hx hv ha hn).div (denotes_ofNat_small hn) hcount.ne' ?_
  exact abs_rounded_lt (abs_le_two_pow_1023 (k := a) (by omega) (abs_sumOfCopies_div_le hv hpos hn))

end Replicate

theorem mean_pos {n : ℕ} (h : rounded v = v) (hv : 0 < v) (hpos : 0 < n) (hn : n < 2 ^ 53) :
    0 < rounded (sumOfCopies v n / n) := by
  have hcount : (0 : ℚ) < n := by exact_mod_cast hpos
  have hleast := least_le h hv
  have hsum := le_sumOfCopies (v := v) (m := 1) (e := -1074) (n := n) le_rfl
    (by rwa [Int.cast_one, one_mul]) (by rw [abs_one, mul_one]; exact_mod_cast hn)
  rw [Int.cast_one, one_mul, mul_comm] at hsum
  exact rounded_pos ((le_div_iff₀ hcount).2 hsum)

theorem sum_replicate_zero {n : ℕ} (hpos : 0 < n) : sum (List.replicate n 0.0) = 0.0 := by
  obtain ⟨n, rfl⟩ := Nat.exists_eq_succ_of_ne_zero hpos.ne'
  induction n with
  | zero => rfl
  | succ n ih =>
    rw [sum_replicate_succ, ih n.succ_pos]
    rfl

theorem mean_replicate_zero {n : ℕ} (hpos : 0 < n) (hn : n < 2 ^ 53) :
    Signal.mean (List.replicate n 0.0) = 0.0 := by
  have hcount : (0 : ℚ) < n := by exact_mod_cast hpos
  unfold Signal.mean
  rw [sum_replicate_zero hpos, List.length_replicate]
  exact (denotes_ofNat_small hn).zero_div hcount

end CableCapture.Binary64
