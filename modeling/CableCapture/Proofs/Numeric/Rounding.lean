import Mathlib.Algebra.Order.Floor.Ring
import Mathlib.Data.Int.Log
import Mathlib.Data.Rat.Floor
import Mathlib.Tactic.Linarith
import Mathlib.Tactic.Positivity
import Mathlib.Tactic.Ring

/-!
# Rounding rational numbers

The rounding of binary64 as a function on rational numbers: to the nearest multiple of a power of two
that the magnitude determines, halves going to the even neighbour. There is no largest exponent here.
-/

namespace CableCapture.Binary64

/-! ## Rounding to integers -/

/-- The integer nearest to a rational number; a half goes to the even neighbour. -/
def nearestEven (r : ℚ) : ℤ :=
  if Int.fract r < 1 / 2 then ⌊r⌋
  else if 1 / 2 < Int.fract r then ⌊r⌋ + 1
  else ⌊r⌋ + ⌊r⌋ % 2

/-- No integer is nearer, and the integer is even if another one is as near. -/
def IsNearestEven (r : ℚ) (n : ℤ) : Prop :=
  |r - n| < 1 / 2 ∨ |r - n| = 1 / 2 ∧ n % 2 = 0

theorem isNearestEven_nearestEven (r : ℚ) : IsNearestEven r (nearestEven r) := by
  have hfract : r - ⌊r⌋ = Int.fract r := rfl
  have hnonneg := Int.fract_nonneg r
  have hlt := Int.fract_lt_one r
  unfold nearestEven
  split
  · left
    rw [hfract, abs_of_nonneg hnonneg]
    assumption
  · split
    · left
      push_cast
      rw [abs_lt]
      constructor <;> linarith
    · right
      rcases Int.emod_two_eq ⌊r⌋ with hparity | hparity
      · rw [hparity, Int.add_zero, hfract, abs_of_nonneg hnonneg]
        exact ⟨by linarith, hparity⟩
      · rw [hparity]
        push_cast
        refine ⟨?_, by omega⟩
        rw [abs_of_nonpos (by linarith)]
        linarith

theorem IsNearestEven.abs_sub_le {r : ℚ} {n : ℤ} (h : IsNearestEven r n) : |r - n| ≤ 1 / 2 := by
  rcases h with h | h
  · exact h.le
  · exact h.1.le

theorem IsNearestEven.even {r : ℚ} {n : ℤ} (h : IsNearestEven r n) (hhalf : |r - n| = 1 / 2) :
    n % 2 = 0 := by
  rcases h with h | h
  · exact absurd hhalf h.ne
  · exact h.2

theorem IsNearestEven.le {r : ℚ} {m n : ℤ} (hm : IsNearestEven r m) (hn : IsNearestEven r n) :
    m ≤ n := by
  by_contra hlt
  have hstep : n + 1 ≤ m := by omega
  have hstepRat : (n : ℚ) + 1 ≤ m := by exact_mod_cast hstep
  have hmle := abs_le.1 hm.abs_sub_le
  have hnle := abs_le.1 hn.abs_sub_le
  -- both are a half away, so both are even, and yet they are neighbours
  have hmid : r - n = 1 / 2 := by linarith
  have hmid' : r - m = -(1 / 2) := by linarith
  have hneighbour : (m : ℚ) = n + 1 := by linarith
  have hmeven := hm.even (by rw [hmid', abs_neg, abs_of_nonneg (by norm_num)])
  have hneven := hn.even (by rw [hmid, abs_of_nonneg (by norm_num)])
  norm_cast at hneighbour
  omega

theorem nearestEven_eq_iff {r : ℚ} {n : ℤ} : nearestEven r = n ↔ IsNearestEven r n := by
  constructor
  · intro h
    exact h ▸ isNearestEven_nearestEven r
  · intro h
    have hself := isNearestEven_nearestEven r
    exact le_antisymm (hself.le h) (h.le hself)

theorem nearestEven_of_abs_sub_lt {r : ℚ} {n : ℤ} (h : |r - n| < 1 / 2) : nearestEven r = n :=
  nearestEven_eq_iff.2 (.inl h)

theorem nearestEven_intCast (n : ℤ) : nearestEven n = n :=
  nearestEven_of_abs_sub_lt (by simp)

theorem abs_sub_nearestEven_le (r : ℚ) : |r - nearestEven r| ≤ 1 / 2 :=
  (isNearestEven_nearestEven r).abs_sub_le

theorem nearestEven_neg (r : ℚ) : nearestEven (-r) = -nearestEven r := by
  have habs : |-r - ((-nearestEven r : ℤ) : ℚ)| = |r - nearestEven r| := by
    rw [← abs_neg]
    push_cast
    congr 1
    ring
  rw [nearestEven_eq_iff, IsNearestEven, habs]
  rcases isNearestEven_nearestEven r with h | h
  · exact .inl h
  · exact .inr ⟨h.1, by omega⟩

/-! ## Rounding to binary64 -/

/-- The exponent of the last place of the binary64 numbers of this magnitude. -/
def ulpExponent (v : ℚ) : ℤ := max (Int.log 2 |v| - 52) (-1074)

/-- The binary64 number nearest to a rational number, if there were no largest exponent. -/
def rounded (v : ℚ) : ℚ := nearestEven (v / 2 ^ ulpExponent v) * 2 ^ ulpExponent v

theorem two_zpow_pos (e : ℤ) : (0 : ℚ) < 2 ^ e := zpow_pos (by norm_num) e

theorem ulpExponent_neg (v : ℚ) : ulpExponent (-v) = ulpExponent v := by
  unfold ulpExponent
  rw [abs_neg]

theorem rounded_neg (v : ℚ) : rounded (-v) = -rounded v := by
  unfold rounded
  rw [ulpExponent_neg, neg_div, nearestEven_neg]
  push_cast
  ring

theorem rounded_zero : rounded 0 = 0 := by
  unfold rounded
  rw [zero_div]
  have hzero := nearestEven_intCast 0
  push_cast at hzero
  rw [hzero]
  simp

theorem abs_sub_rounded_le (v : ℚ) : |v - rounded v| ≤ 2 ^ ulpExponent v / 2 := by
  have hpos := two_zpow_pos (ulpExponent v)
  have hscale : v - rounded v =
      (v / 2 ^ ulpExponent v - nearestEven (v / 2 ^ ulpExponent v)) * 2 ^ ulpExponent v := by
    unfold rounded
    field_simp
  rw [hscale, abs_mul, abs_of_pos hpos]
  have hle := abs_sub_nearestEven_le (v / 2 ^ ulpExponent v)
  nlinarith

/-- Every integer of 53 bits times a power of two is kept, unless the power is too small. -/
theorem rounded_of_grid {n e : ℤ} (hn : |n| < 2 ^ 53) (he : -1074 ≤ e) :
    rounded (n * 2 ^ e) = n * 2 ^ e := by
  by_cases hzero : n = 0
  · subst hzero
    simp [rounded_zero]
  have habs : |((n : ℚ) * 2 ^ e)| = |n| * 2 ^ e := by
    rw [abs_mul, abs_of_pos (two_zpow_pos e)]
    push_cast
    rfl
  have hulp : ulpExponent (n * 2 ^ e) ≤ e := by
    refine max_le ?_ he
    have hlt : |((n : ℚ) * 2 ^ e)| < ((2 : ℕ) : ℚ) ^ (53 + e) := by
      rw [habs, Nat.cast_ofNat, zpow_add₀ (by norm_num)]
      refine mul_lt_mul_of_pos_right ?_ (two_zpow_pos e)
      exact_mod_cast hn
    have hpos : 0 < |((n : ℚ) * 2 ^ e)| :=
      abs_pos.2 (mul_ne_zero (by exact_mod_cast hzero) (two_zpow_pos e).ne')
    have hlog := (Int.lt_zpow_iff_log_lt (by norm_num) hpos).1 hlt
    omega
  have hshift : (n : ℚ) * 2 ^ e / 2 ^ ulpExponent (n * 2 ^ e) =
      ((n * 2 ^ (e - ulpExponent (n * 2 ^ e)).toNat : ℤ) : ℚ) := by
    push_cast
    rw [mul_div_assoc, ← zpow_sub₀ (by norm_num), ← zpow_natCast, Int.toNat_of_nonneg (by omega)]
  unfold rounded
  rw [hshift, nearestEven_intCast, ← hshift, div_mul_cancel₀ _ (two_zpow_pos _).ne']

theorem rounded_intCast {n : ℤ} (hn : |n| < 2 ^ 53) : rounded n = n := by
  simpa using rounded_of_grid (e := 0) hn (by norm_num)

theorem rounded_two_pow (a : ℕ) : rounded (2 ^ a) = 2 ^ a := by
  have h := rounded_of_grid (n := 1) (e := a) (by norm_num) (by omega)
  rwa [Int.cast_one, one_mul, zpow_natCast] at h

theorem zpow_ulpExponent_le {v : ℚ} (hv : 2 ^ (-1022 : ℤ) ≤ |v|) :
    2 ^ ulpExponent v ≤ |v| / 2 ^ 52 := by
  have hpos : 0 < |v| := lt_of_lt_of_le (two_zpow_pos _) hv
  have hlog : -1022 ≤ Int.log 2 |v| :=
    (Int.zpow_le_iff_le_log (by norm_num) hpos).1 (by simpa using hv)
  have hulp : ulpExponent v = Int.log 2 |v| - 52 := max_eq_left (by omega)
  have hle : (2 : ℚ) ^ Int.log 2 |v| ≤ |v| := by
    simpa using Int.zpow_log_le_self (by norm_num : 1 < 2) hpos
  rw [hulp, zpow_sub₀ (by norm_num)]
  exact div_le_div_of_nonneg_right hle (by positivity)

/-- The relative error of rounding a normal number. -/
theorem abs_sub_rounded_le_of_normal {v : ℚ} (hv : 2 ^ (-1022 : ℤ) ≤ |v|) :
    |v - rounded v| ≤ |v| / 2 ^ 53 := by
  have herror := abs_sub_rounded_le v
  have hulp := zpow_ulpExponent_le hv
  have hhalf : |v| / 2 ^ 53 = |v| / 2 ^ 52 / 2 := by
    ring
  linarith

theorem ulpExponent_of_subnormal {v : ℚ} (hzero : v ≠ 0) (hv : |v| < 2 ^ (-1022 : ℤ)) :
    ulpExponent v = -1074 := by
  apply max_eq_right
  have hlog := (Int.lt_zpow_iff_log_lt (b := 2) (x := -1022) (by norm_num) (abs_pos.2 hzero)).1
    (by exact_mod_cast hv)
  omega

/-- Rounding does not double a magnitude, so it stays in range well below the end of it. -/
theorem abs_rounded_lt {v : ℚ} (hv : |v| ≤ 2 ^ (1023 : ℤ)) : |rounded v| < 2 ^ (1024 : ℤ) := by
  have hdouble : (2 : ℚ) ^ (1024 : ℤ) = 2 ^ (1023 : ℤ) + 2 ^ (1023 : ℤ) := by
    rw [← two_mul, ← zpow_one_add₀ (by norm_num)]
    norm_num
  have hone : (1 : ℚ) < 2 ^ (1023 : ℤ) := one_lt_zpow₀ (by norm_num) (by norm_num)
  have htriangle : |rounded v| ≤ |v| + |v - rounded v| := by
    have := abs_sub_abs_le_abs_sub (rounded v) v
    rw [abs_sub_comm] at this
    linarith
  rw [hdouble]
  generalize (2 : ℚ) ^ (1023 : ℤ) = bound at hv hone
  by_cases hzero : v = 0
  · rw [hzero, rounded_zero, abs_zero]
    linarith
  by_cases hnormal : 2 ^ (-1022 : ℤ) ≤ |v|
  · have herror := abs_sub_rounded_le_of_normal hnormal
    have hsmall : |v| / 2 ^ 53 ≤ |v| / 2 :=
      div_le_div_of_nonneg_left (abs_nonneg v) (by norm_num) (by norm_num)
    linarith
  · have herror := abs_sub_rounded_le v
    rw [ulpExponent_of_subnormal hzero (not_le.1 hnormal)] at herror
    have htiny : (2 : ℚ) ^ (-1074 : ℤ) ≤ 1 := zpow_le_one_of_nonpos₀ (by norm_num) (by norm_num)
    linarith

end CableCapture.Binary64
