import CableCapture.Proofs.Numeric.Places

/-!
# Lost precision

Rounding to decimal places moves a number by no more than half a unit of the last place, but for the
errors of scaling it up and down. The powers of ten that are not exact are so great that such a unit
is below those errors.
-/

namespace CableCapture.Binary64

variable {x : Float} {v s : ℚ} {places : UInt32}

/-- The error of rounding any number, subnormal ones included. -/
theorem abs_rounded_sub_le (v : ℚ) : |rounded v - v| ≤ |v| / 2 ^ 53 + 2 ^ (-1075 : ℤ) := by
  have hpos := two_zpow_pos (-1075)
  rw [abs_sub_comm]
  by_cases hzero : v = 0
  · simp [hzero, rounded_zero]
  by_cases hnormal : 2 ^ (-1022 : ℤ) ≤ |v|
  · exact (abs_sub_rounded_le_of_normal hnormal).trans (le_add_of_nonneg_right hpos.le)
  · have herror := abs_sub_rounded_le v
    rw [ulpExponent_of_subnormal hzero (not_le.1 hnormal)] at herror
    have hhalf : (2 : ℚ) ^ (-1074 : ℤ) / 2 = 2 ^ (-1075 : ℤ) := by
      rw [div_eq_iff (by norm_num), ← zpow_add_one₀ (by norm_num)]
      norm_num
    rw [hhalf] at herror
    exact herror.trans (le_add_of_nonneg_left (by positivity))

/-! ## Scales -/

theorem denotes_scaleOf (h : places.toNat ≤ 22) : Denotes (scaleOf places) (10 ^ places.toNat) := by
  have hten : Denotes 10.0 (10 : ℕ) := denotes_ofNat_small (n := 10) (by norm_num)
  rw [scaleOf_eq, min_eq_left (by omega)]
  exact exactPowers_ten.denotes_power hten h

/-- A scale is the power of ten itself, or far greater than any number of places that can be told. -/
theorem scale_cases (hs : Denotes (scaleOf places) s) : s = 10 ^ places.toNat ∨ 2 ^ 69 ≤ s := by
  rcases le_or_gt places.toNat 22 with hle | hgt
  · exact .inl (hs.unique (denotes_scaleOf hle))
  · right
    rcases large_scaleOf places with hinfinite | ⟨w, hw, hpower⟩
    · have hfinite := hs.isFinite
      rw [hinfinite.isFinite] at hfinite
      cases hfinite
    · rw [hs.unique hw]
      exact (pow_le_pow_right₀ (by norm_num) (by omega)).trans hpower

/-! ## Distances -/

/-- What is rounded last is off by an integer's half unit, and by the error of scaling up. -/
theorem abs_quotient_sub_le {error : ℚ} (hs : 0 < s)
    (hscaled : |rounded (v * s) - v * s| ≤ error) :
    |(halfUp (rounded (v * s)) : ℚ) / s - v| ≤ (1 / 2 + error) / s := by
  have hinteger : |(halfUp (rounded (v * s)) : ℚ) - rounded (v * s)| ≤ 1 / 2 := by
    rw [abs_sub_comm]
    exact abs_sub_halfUp_le _
  have hdistance : |(halfUp (rounded (v * s)) : ℚ) - v * s| ≤ 1 / 2 + error :=
    (abs_sub_le _ (rounded (v * s)) _).trans (add_le_add hinteger hscaled)
  have hquotient : (halfUp (rounded (v * s)) : ℚ) / s - v =
      ((halfUp (rounded (v * s)) : ℚ) - v * s) / s := by
    rw [sub_div, mul_div_cancel_right₀ _ hs.ne']
  rw [hquotient, abs_div, abs_of_pos hs]
  exact div_le_div_of_nonneg_right hdistance hs.le

/-- Even the least number is lost in a unit of the last place. -/
theorem least_le_unit (hs : 1 ≤ s) (hmax : s < 2 ^ (1024 : ℤ)) :
    2 ^ (-1075 : ℤ) ≤ 1 / s / 2 ^ 51 := by
  rw [div_div, le_div_iff₀ (by positivity)]
  calc (2 : ℚ) ^ (-1075 : ℤ) * (s * 2 ^ 51)
      ≤ 2 ^ (-1075 : ℤ) * (2 ^ (1024 : ℤ) * 2 ^ 51) :=
        mul_le_mul_of_nonneg_left (mul_le_mul_of_nonneg_right hmax.le (by norm_num))
          (two_zpow_pos _).le
    _ = 1 := by
      rw [← zpow_natCast, ← zpow_add₀ (by norm_num), ← zpow_add₀ (by norm_num)]
      norm_num

theorem abs_placed_sub_le (hs : 1 ≤ s) (hmax : s < 2 ^ (1024 : ℤ)) (hv : 0 ≤ v) :
    |placed s v - v| ≤ 1 / s / 2 + (v + 1 / s) / 2 ^ 49 := by
  have hpos : 0 < s := one_pos.trans_le hs
  have hunit : 0 < 1 / s := one_div_pos.2 hpos
  unfold placed
  split
  · let quotient : ℚ := halfUp (rounded (v * s)) / s
    have hscaled := abs_rounded_sub_le (v * s)
    have hrounded : |rounded quotient - quotient| ≤ |quotient| / 2 ^ 53 + 2 ^ (-1075 : ℤ) :=
      abs_rounded_sub_le quotient
    have htiny := least_le_unit hs hmax
    have hnonneg := (two_zpow_pos (-1075)).le
    rw [abs_of_nonneg (mul_nonneg hv hpos.le)] at hscaled
    generalize (2 : ℚ) ^ (-1075 : ℤ) = tiny at *
    have hquotient : |quotient - v| ≤ 1 / s / 2 + v / 2 ^ 53 + tiny * (1 / s) := by
      refine (abs_quotient_sub_le hpos hscaled).trans_eq ?_
      field_simp
      ring
    have hleast : tiny * (1 / s) ≤ tiny :=
      mul_le_of_le_one_right hnonneg ((div_le_one hpos).2 hs)
    have hmagnitude : |quotient| ≤ v + |quotient - v| := by
      have htriangle := abs_sub_abs_le_abs_sub quotient v
      rw [abs_of_nonneg hv] at htriangle
      linarith
    calc |rounded quotient - v|
        ≤ |rounded quotient - quotient| + |quotient - v| := abs_sub_le _ _ _
      _ ≤ 1 / s / 2 + (v + 1 / s) / 2 ^ 49 := by linarith
  · rw [sub_self, abs_zero]
    positivity

/-- How far a number is moved by rounding it to so many places. -/
def tolerance (places : UInt32) (v : ℚ) : ℚ := 1 / 10 ^ places.toNat / 2 + (v + 1) / 2 ^ 48

theorem abs_placed_sub_le_tolerance (hs : Denotes (scaleOf places) s) (hlarge : 1 ≤ s)
    (hv : 0 ≤ v) : |placed s v - v| ≤ tolerance places v := by
  have hmax : s < 2 ^ (1024 : ℤ) := (le_abs_self s).trans_lt hs.abs_lt
  have hdistance := abs_placed_sub_le hlarge hmax hv
  have hone : 1 / s ≤ 1 := (div_le_one (one_pos.trans_le hlarge)).2 hlarge
  unfold tolerance
  rcases scale_cases hs with rfl | hgreat
  · linarith
  · have hunit : 1 / s ≤ 1 / 2 ^ 69 := one_div_le_one_div_of_le (by norm_num) hgreat
    have hplace : (0 : ℚ) ≤ 1 / 10 ^ places.toNat := by positivity
    linarith

theorem Denotes.abs_roundTo_sub_le (hx : Denotes x v) (hv : 0 ≤ v) :
    |value (Binary64.roundTo places x) - v| ≤ tolerance places v := by
  rcases large_scaleOf places with hinfinite | ⟨s, hs, hpower⟩
  · rw [roundTo_of_infinite hinfinite hx hv, hx.value_eq, sub_self, abs_zero]
    unfold tolerance
    positivity
  · have hlarge : 1 ≤ s := (one_le_pow₀ (by norm_num)).trans hpower
    rw [(hx.roundTo hv hs hlarge).value_eq]
    exact abs_placed_sub_le_tolerance hs hlarge hv

end CableCapture.Binary64
