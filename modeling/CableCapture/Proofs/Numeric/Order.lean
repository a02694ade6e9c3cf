import CableCapture.Proofs.Numeric.Arithmetic
import CableCapture.Proofs.Numeric.Comparison

/-!
# Rounding and order

Rounding keeps the order of numbers, so a result does not pass a bound that needs no rounding itself.
The bounds here are powers of two, which say how far operations stay from the end of the range.
-/

namespace CableCapture.Binary64

variable {v w : ℚ}

/-! ## Integers -/

theorem nearestEven_mono {r s : ℚ} (h : r ≤ s) : nearestEven r ≤ nearestEven s := by
  by_contra hlt
  have hstep : (nearestEven s : ℚ) + 1 ≤ nearestEven r := by exact_mod_cast not_le.1 hlt
  have hr := abs_le.1 (abs_sub_nearestEven_le r)
  have hs := abs_le.1 (abs_sub_nearestEven_le s)
  -- only a half could be rounded both ways, and then both are one number
  have hsame : r = s := by linarith
  rw [hsame] at hlt
  exact hlt le_rfl

theorem le_nearestEven {r : ℚ} {n : ℤ} (h : n ≤ r) : n ≤ nearestEven r :=
  (nearestEven_intCast n).symm.le.trans (nearestEven_mono h)

theorem nearestEven_le {r : ℚ} {n : ℤ} (h : r ≤ n) : nearestEven r ≤ n :=
  (nearestEven_mono h).trans (nearestEven_intCast n).le

theorem abs_nearestEven_le {r : ℚ} {n : ℤ} (h : |r| ≤ n) : |nearestEven r| ≤ n := by
  obtain ⟨hlower, hupper⟩ := abs_le.1 h
  refine abs_le.2 ⟨le_nearestEven ?_, nearestEven_le hupper⟩
  push_cast
  exact hlower

/-! ## Numbers -/

theorem ulpExponent_le_ulpExponent (hv : 0 < v) (h : v ≤ w) : ulpExponent v ≤ ulpExponent w := by
  have hlog := Int.log_mono_right (b := 2) hv h
  rw [ulpExponent_of_pos hv, ulpExponent_of_pos (hv.trans_le h)]
  omega

theorem nearestEven_scaled_nonneg (hv : 0 ≤ v) : 0 ≤ nearestEven (v / 2 ^ ulpExponent v) := by
  apply le_nearestEven
  rw [Int.cast_zero]
  exact div_nonneg hv (two_zpow_pos _).le

theorem rounded_nonneg (hv : 0 ≤ v) : 0 ≤ rounded v :=
  mul_nonneg (by exact_mod_cast nearestEven_scaled_nonneg hv) (two_zpow_pos _).le

theorem rounded_le_rounded_of_pos (hv : 0 < v) (h : v ≤ w) : rounded v ≤ rounded w := by
  have hw := hv.trans_le h
  unfold rounded
  rcases (ulpExponent_le_ulpExponent hv h).eq_or_lt with hsame | hlt
  · rw [hsame]
    have hscaled : v / 2 ^ ulpExponent w ≤ w / 2 ^ ulpExponent w :=
      div_le_div_of_nonneg_right h (two_zpow_pos _).le
    exact mul_le_mul_of_nonneg_right (by exact_mod_cast nearestEven_mono hscaled)
      (two_zpow_pos _).le
  · -- a power of two between both magnitudes separates the results
    have hlower : (nearestEven (v / 2 ^ ulpExponent v) : ℚ) ≤ 2 ^ 53 := by
      exact_mod_cast nearestEven_scaled_le hv
    have hupper : (2 : ℚ) ^ 52 ≤ nearestEven (w / 2 ^ ulpExponent w) := by
      have hfull : (2 ^ 52 : ℤ) ≤ nearestEven (w / 2 ^ ulpExponent w) := by
        apply le_nearestEven
        push_cast
        exact le_scaled hw ((le_ulpExponent v).trans_lt hlt).ne'
      exact_mod_cast hfull
    calc (nearestEven (v / 2 ^ ulpExponent v) : ℚ) * 2 ^ ulpExponent v
        ≤ 2 ^ 53 * 2 ^ ulpExponent v := mul_le_mul_of_nonneg_right hlower (two_zpow_pos _).le
      _ = 2 ^ 52 * 2 ^ (ulpExponent v + 1) := by rw [zpow_add_one₀ (by norm_num)]; ring
      _ ≤ 2 ^ 52 * 2 ^ ulpExponent w :=
        mul_le_mul_of_nonneg_left (zpow_le_zpow_right₀ (by norm_num) (by omega)) (by norm_num)
      _ ≤ nearestEven (w / 2 ^ ulpExponent w) * 2 ^ ulpExponent w :=
        mul_le_mul_of_nonneg_right hupper (two_zpow_pos _).le

theorem rounded_mono : Monotone rounded := by
  intro v w h
  rcases lt_or_ge 0 v with hv | hv
  · exact rounded_le_rounded_of_pos hv h
  · rcases lt_or_ge w 0 with hw | hw
    · have hneg := rounded_le_rounded_of_pos (neg_pos.2 hw) (neg_le_neg h)
      rw [rounded_neg, rounded_neg] at hneg
      exact neg_le_neg_iff.1 hneg
    · have hneg := rounded_nonneg (neg_nonneg.2 hv)
      rw [rounded_neg] at hneg
      exact (neg_nonneg.1 hneg).trans (rounded_nonneg hw)

theorem rounded_rounded_of_pos (hv : 0 < v) : rounded (rounded v) = rounded v := by
  have hgrid : rounded v = nearestEven (v / 2 ^ ulpExponent v) * 2 ^ ulpExponent v := rfl
  rcases (nearestEven_scaled_le hv).eq_or_lt with hcarry | hlt
  · -- the carry of a full significand is a power of two
    have hpower : rounded v = (1 : ℤ) * 2 ^ (53 + ulpExponent v) := by
      rw [hgrid, hcarry, zpow_add₀ (by norm_num)]
      norm_num
    have hge := le_ulpExponent v
    rw [hpower]
    exact rounded_of_grid (by norm_num) (by omega)
  · rw [hgrid]
    apply rounded_of_grid _ (le_ulpExponent v)
    rwa [abs_of_nonneg (nearestEven_scaled_nonneg hv.le)]

theorem rounded_rounded (v : ℚ) : rounded (rounded v) = rounded v := by
  rcases lt_trichotomy v 0 with hneg | rfl | hpos
  · have h := rounded_rounded_of_pos (neg_pos.2 hneg)
    rw [rounded_neg, rounded_neg] at h
    exact neg_inj.1 h
  · rw [rounded_zero, rounded_zero]
  · exact rounded_rounded_of_pos hpos

/-- Rounding does not pass a power of two. -/
theorem abs_rounded_le {a : ℕ} (h : |v| ≤ 2 ^ a) : |rounded v| ≤ 2 ^ a := by
  obtain ⟨hlower, hupper⟩ := abs_le.1 h
  refine abs_le.2 ⟨?_, (rounded_mono hupper).trans (rounded_two_pow a).le⟩
  have hpower : rounded (-2 ^ a) = -2 ^ a := by rw [rounded_neg, rounded_two_pow]
  exact hpower.symm.le.trans (rounded_mono hlower)

/-- Division by a number that is not below one stays in range. -/
theorem Denotes.div_of_one_le {x y : Float} (hx : Denotes x v) (hv : 0 ≤ v) (hy : Denotes y w)
    (hw : 1 ≤ w) : Denotes (x / y) (rounded (v / w)) := by
  have hpos : 0 < w := one_pos.trans_le hw
  refine hx.div hy hpos.ne' ?_
  calc |rounded (v / w)| = rounded (v / w) := abs_of_nonneg (rounded_nonneg (div_nonneg hv hpos.le))
    _ ≤ rounded v := rounded_mono (div_le_self hv hw)
    _ = v := hx.rounded_eq
    _ ≤ |v| := le_abs_self v
    _ < 2 ^ (1024 : ℤ) := hx.abs_lt

/-! ## Magnitudes -/

/-- The float is a number whose magnitude is at most this power of two. -/
def Within (x : Float) (a : ℕ) : Prop := ∃ v, Denotes x v ∧ |v| ≤ 2 ^ a

section Within

variable {x y : Float} {a b : ℕ}

theorem Within.isFinite (hx : Within x a) : isFinite x.toBits = true := by
  obtain ⟨v, hv, -⟩ := hx
  exact hv.isFinite

theorem within_ofNat {n : ℕ} (hn : n ≤ 2 ^ a) (ha : a ≤ 52) : Within (Float.ofNat n) a := by
  have hsmall : n < 2 ^ 53 := hn.trans_lt (Nat.pow_lt_pow_right (by norm_num) (by omega))
  refine ⟨n, denotes_ofNat_small hsmall, ?_⟩
  rw [abs_of_nonneg (Nat.cast_nonneg n)]
  exact_mod_cast hn

/-- A rounded result keeps the bound of the exact one. -/
theorem within_of_range {c : ℕ} (hc : c ≤ 1023) (hv : |v| ≤ 2 ^ c)
    (h : |rounded v| < 2 ^ (1024 : ℤ) → Denotes x (rounded v)) : Within x c :=
  ⟨rounded v, h (abs_rounded_lt (abs_le_two_pow_1023 hc hv)), abs_rounded_le hv⟩

theorem Within.mono (hx : Within x a) (h : a ≤ b) : Within x b := by
  obtain ⟨v, hv, hva⟩ := hx
  exact ⟨v, hv, hva.trans (pow_le_pow_right₀ (by norm_num) h)⟩

theorem Within.add (hx : Within x a) (hy : Within y a) (ha : a ≤ 1022) :
    Within (x + y) (a + 1) := by
  obtain ⟨v, hv, hva⟩ := hx
  obtain ⟨w, hw, hwa⟩ := hy
  refine within_of_range (c := a + 1) (by omega) ?_ (hv.add hw)
  calc |v + w| ≤ |v| + |w| := abs_add_le v w
    _ ≤ 2 ^ a + 2 ^ a := add_le_add hva hwa
    _ = 2 ^ (a + 1) := by ring

theorem Within.sub (hx : Within x a) (hy : Within y a) (ha : a ≤ 1022) :
    Within (x - y) (a + 1) := by
  obtain ⟨v, hv, hva⟩ := hx
  obtain ⟨w, hw, hwa⟩ := hy
  refine within_of_range (c := a + 1) (by omega) ?_ (hv.sub hw)
  calc |v - w| ≤ |v| + |w| := abs_sub v w
    _ ≤ 2 ^ a + 2 ^ a := add_le_add hva hwa
    _ = 2 ^ (a + 1) := by ring

theorem Within.mul (hx : Within x a) (hy : Within y b) (hab : a + b ≤ 1023) :
    Within (x * y) (a + b) := by
  obtain ⟨v, hv, hva⟩ := hx
  obtain ⟨w, hw, hwb⟩ := hy
  refine within_of_range hab ?_ (hv.mul hw)
  calc |v * w| = |v| * |w| := abs_mul v w
    _ ≤ 2 ^ a * 2 ^ b := mul_le_mul hva hwb (abs_nonneg w) (by positivity)
    _ = 2 ^ (a + b) := (pow_add 2 a b).symm

/-- Division by a number that is not below one. -/
theorem Within.div (hx : Within x a) (hy : Denotes y w) (hw : 1 ≤ w) (ha : a ≤ 1023) :
    Within (x / y) a := by
  obtain ⟨v, hv, hva⟩ := hx
  have hpos : 0 < w := one_pos.trans_le hw
  refine within_of_range ha ?_ (hv.div hy hpos.ne')
  rw [abs_div, abs_of_pos hpos]
  exact (div_le_self (abs_nonneg v) hw).trans hva

end Within

end CableCapture.Binary64
