import CableCapture.Proofs.Numeric.Copies

/-!
# Statistics of constant signals

A signal of equal numbers has no spread, and its statistics show none if the mean comes out as that
number. But the sum and the quotient are rounded. If the mean is another number, all numbers of the
signal have the same distance from it, which then counts as their spread.
-/

namespace CableCapture

open Binary64

variable {x : Float} {v : ℚ} {a n : ℕ}

namespace Signal

theorem meanDeviation_replicate (f : Float → Float) (center x : Float) (n : ℕ) :
    meanDeviation f center (List.replicate n x) = mean (List.replicate n (f (x - center))) := by
  unfold meanDeviation
  rw [List.map_replicate]

/-- If all distances are zero, so is their mean under a function that keeps zero. -/
theorem meanDeviation_of_zero {f : Float → Float} {center : Float} (hf : f (x - center) = 0.0)
    (hpos : 0 < n) (hn : n < 2 ^ 53) : meanDeviation f center (List.replicate n x) = 0.0 := by
  rw [meanDeviation_replicate, hf, mean_replicate_zero hpos hn]

/-- The greatest and the least of equal numbers are that number. -/
theorem foldl_replicate_self {f : Float → Float → Float} {start : Float} (hstart : f start x = x)
    (hself : f x x = x) (hpos : 0 < n) : (List.replicate n x).foldl f start = x := by
  obtain ⟨n, rfl⟩ := Nat.exists_eq_succ_of_ne_zero hpos.ne'
  rw [List.replicate_succ, List.foldl_cons, hstart]
  clear hpos
  induction n with
  | zero => rfl
  | succ n ih => rw [List.replicate_succ, List.foldl_cons, hself, ih]

theorem peakToPeak_replicate (hx : Denotes x v) (hpos : 0 < n) :
    (List.replicate n x).foldl greatest (-infinity) - (List.replicate n x).foldl least infinity =
      0.0 := by
  have hgreatest : greatest x x = x := by rw [greatest_eq hx.isNaN hx.isNaN, ite_self]
  have hleast : least x x = x := by rw [least_eq hx.isNaN hx.isNaN, ite_self]
  rw [foldl_replicate_self hx.greatest_infinity hgreatest hpos,
    foldl_replicate_self hx.least_infinity hleast hpos, hx.sub_self]

end Signal

namespace Statistics

/-- The measures of spread and shape are zero. -/
structure Degenerate (s : Statistics) : Prop where
  variance : s.variance = 0.0
  stdDev : s.stdDev = 0.0
  meanAbsDeviation : s.meanAbsDeviation = 0.0
  peakToPeak : s.peakToPeak = 0.0
  skewness : s.skewness = 0.0
  kurtosis : s.kurtosis = 0.0

instance (s : Statistics) : Decidable s.Degenerate :=
  decidable_of_iff (s.variance = 0.0 ∧ s.stdDev = 0.0 ∧ s.meanAbsDeviation = 0.0 ∧
      s.peakToPeak = 0.0 ∧ s.skewness = 0.0 ∧ s.kurtosis = 0.0)
    ⟨fun ⟨hvariance, hstdDev, hdeviation, hpeak, hskewness, hkurtosis⟩ =>
      ⟨hvariance, hstdDev, hdeviation, hpeak, hskewness, hkurtosis⟩,
      fun h => ⟨h.variance, h.stdDev, h.meanAbsDeviation, h.peakToPeak, h.skewness, h.kurtosis⟩⟩

/-- How the measures of spread and shape come out of a signal. -/
structure Spreads (s : Statistics) (xs : List Float) : Prop where
  mean : s.mean = Signal.mean xs
  variance : s.variance = Signal.meanDeviation (Binary64.power · 2) s.mean xs
  stdDev : s.stdDev = s.variance.sqrt
  meanAbsDeviation : s.meanAbsDeviation = Signal.meanDeviation Float.abs s.mean xs
  peakToPeak : s.peakToPeak = xs.foldl greatest (-infinity) - xs.foldl least infinity
  skewness : ¬0.0 < s.stdDev → s.skewness = 0.0
  kurtosis : ¬0.0 < s.stdDev → s.kurtosis = 0.0

theorem spreads_compute {xs : List Float} (hne : xs ≠ []) : (compute xs).Spreads xs := by
  have hfilled : ¬xs.isEmpty = true := by simpa using hne
  unfold compute ofNumbers
  simp only [List.map_map, Function.comp_def, SignedNumber.value_ofFloat, List.map_id']
  rw [if_neg hfilled]
  exact ⟨rfl, rfl, rfl, rfl, rfl, fun h => if_neg h, fun h => if_neg h⟩

/-! ## Signals of equal numbers -/

theorem spreads_replicate (x : Float) (hpos : 0 < n) :
    (compute (List.replicate n x)).Spreads (List.replicate n x) :=
  spreads_compute (by simpa using hpos.ne')

/-- Where the distance from the mean is a zero, every measure comes out as zero. -/
theorem degenerate_of_zero (hx : Denotes x v) (hpos : 0 < n) (hn : n < 2 ^ 53)
    (hzero : Denotes (x - (compute (List.replicate n x)).mean) 0) :
    (compute (List.replicate n x)).Degenerate := by
  have h := spreads_replicate x hpos
  generalize compute (List.replicate n x) = s at h hzero
  have hsquare : Binary64.power (x - s.mean) 2 = 0.0 := by
    rw [power_two, hzero.mul_self_of_zero]
    rfl
  have hvariance : s.variance = 0.0 := by
    rw [h.variance, Signal.meanDeviation_of_zero hsquare hpos hn]
  have hstdDev : s.stdDev = 0.0 := by
    rw [h.stdDev, hvariance]
    rfl
  have hnarrow : ¬0.0 < s.stdDev := by
    rw [hstdDev, denotes_zero.lt_iff denotes_zero]
    exact lt_irrefl 0
  exact {
    variance := hvariance
    stdDev := hstdDev
    meanAbsDeviation := by
      rw [h.meanAbsDeviation, Signal.meanDeviation_of_zero hzero.abs_of_zero hpos hn]
    peakToPeak := by rw [h.peakToPeak, Signal.peakToPeak_replicate hx hpos]
    skewness := h.skewness hnarrow
    kurtosis := h.kurtosis hnarrow }

section Constant

variable (hx : Denotes x v) (hv : |v| ≤ 2 ^ a) (ha : a < 960) (hpos : 0 < n) (hn : n < 2 ^ 53)
include hx hv ha hpos hn

theorem denotes_mean_compute :
    Denotes (compute (List.replicate n x)).mean (rounded (sumOfCopies v n / n)) := by
  rw [(spreads_replicate x hpos).mean]
  exact denotes_mean_replicate hx hv ha.le hpos hn

/-- The distance of every number from the mean. -/
theorem denotes_distance :
    Denotes (x - (compute (List.replicate n x)).mean)
        (rounded (v - rounded (sumOfCopies v n / n))) ∧
      |rounded (v - rounded (sumOfCopies v n / n))| ≤ 2 ^ (a + 1) := by
  have hmean : |rounded (sumOfCopies v n / n)| ≤ 2 ^ a :=
    abs_rounded_le (abs_sumOfCopies_div_le hv hpos hn)
  have hdistance : |v - rounded (sumOfCopies v n / n)| ≤ 2 ^ (a + 1) :=
    calc |v - rounded (sumOfCopies v n / n)| ≤ |v| + |rounded (sumOfCopies v n / n)| := abs_sub _ _
      _ ≤ 2 ^ a + 2 ^ a := add_le_add hv hmean
      _ = 2 ^ (a + 1) := by ring
  refine ⟨hx.sub (denotes_mean_compute hx hv ha hpos hn) (abs_rounded_lt ?_),
    abs_rounded_le hdistance⟩
  exact abs_le_two_pow_1023 (k := a + 1) (by omega) hdistance

/-- A distance that is not zero does not get lost in the mean of the distances. -/
theorem distance_eq_zero (hzero : (compute (List.replicate n x)).meanAbsDeviation = 0.0) :
    rounded (v - rounded (sumOfCopies v n / n)) = 0 := by
  obtain ⟨hdistance, hbound⟩ := denotes_distance hx hv ha hpos hn
  generalize rounded (v - rounded (sumOfCopies v n / n)) = d at hdistance hbound
  by_contra hne
  have hdeviation := denotes_mean_replicate hdistance.abs (by rwa [abs_abs]) (by omega) hpos hn
  -- The distances are equal once more, and the mean of equal positive numbers is positive.
  have hpositive := mean_pos hdistance.abs.rounded_eq (abs_pos.2 hne) hpos hn
  rw [(spreads_replicate x hpos).meanAbsDeviation, Signal.meanDeviation_replicate] at hzero
  rw [hzero] at hdeviation
  exact hpositive.ne' (hdeviation.eq denotes_zero)

theorem degenerate_iff_mean :
    (compute (List.replicate n x)).Degenerate ↔ rounded (sumOfCopies v n / n) = v := by
  obtain ⟨hdistance, -⟩ := denotes_distance hx hv ha hpos hn
  have hmean := (denotes_mean_compute hx hv ha hpos hn).rounded_eq
  rw [eq_comm, ← rounded_sub_eq_zero hx.rounded_eq hmean]
  constructor
  · intro h
    exact distance_eq_zero hx hv ha hpos hn h.meanAbsDeviation
  · intro h
    exact degenerate_of_zero hx hpos hn (hdistance.cast h)

end Constant

/-! ## Main result -/

/-- The statistics of so many equal numbers have no spread exactly if their mean is that number again.
It is if the number is a multiple of a power of two by an integer that still fits a significand when
it is multiplied by the count. The distance from peak to peak is zero in any case. -/
theorem compute_of_constant {x : Float} (hx : isFinite x.toBits = true) (hv : |value x| ≤ 200)
    {n : ℕ} (hpos : 0 < n) (hn : n < 2 ^ 53) :
    let s := compute (List.replicate n x)
    s.peakToPeak = 0.0 ∧ isFinite s.mean.toBits = true ∧
      (s.Degenerate ↔ value s.mean = value x) ∧
      ∀ m e : ℤ, -1074 ≤ e → value x = m * 2 ^ e → n * |m| < 2 ^ 53 → s.Degenerate := by
  intro s
  have hvalue := denotes_value hx
  have hbound : |value x| ≤ 2 ^ 8 := hv.trans (by norm_num)
  have hmean : Denotes s.mean (rounded (sumOfCopies (value x) n / n)) :=
    denotes_mean_compute hvalue hbound (by norm_num) hpos hn
  have hiff : s.Degenerate ↔ rounded (sumOfCopies (value x) n / n) = value x :=
    degenerate_iff_mean hvalue hbound (by norm_num) hpos hn
  refine ⟨?_, hmean.isFinite, by rw [hiff, hmean.value_eq], ?_⟩
  · rw [(spreads_replicate x hpos).peakToPeak, Signal.peakToPeak_replicate hvalue hpos]
  · intro m e he hgrid hfits
    have hcount : (n : ℚ) ≠ 0 := by exact_mod_cast hpos.ne'
    have hrounded := hvalue.rounded_eq
    rw [hgrid] at hrounded
    rw [hiff, hgrid, sumOfCopies_of_grid he hfits, mul_div_cancel_left₀ _ hcount, hrounded]

/-- The level 40.25. -/
def quarterLevel : Float := .ofBits 0x4044200000000000

theorem compute_of_three_quarterLevels :
    |value quarterLevel| ≤ 200 ∧ (compute (List.replicate 3 quarterLevel)).Degenerate := by
  have hbound : |value quarterLevel| ≤ 200 := by decide +kernel
  obtain ⟨-, -, -, hgrid⟩ :=
    compute_of_constant (n := 3) (by decide +kernel) hbound (by decide) (by decide)
  exact ⟨hbound, hgrid 161 (-2) (by decide) (by decide +kernel) (by decide)⟩

/-- The level -45.3, as near as there is a number. -/
def roughLevel : Float := .ofBits 0xC046A66666666666

/-- A number for which the third power of its distance from the mean is rounded to zero. -/
def tinyLevel : Float := .ofBits 0x26B999999999999A

/-- Three equal levels may have a spread, so that the kurtosis is that of two equal weights. If they
are tiny, there is no kurtosis. -/
theorem constant_with_spread :
    isFinite roughLevel.toBits = true ∧ |value roughLevel| ≤ 200 ∧
      ¬(compute (List.replicate 3 roughLevel)).Degenerate ∧
      (compute (List.replicate 3 roughLevel)).kurtosis = -2.0 ∧
      isFinite tinyLevel.toBits = true ∧ |value tinyLevel| ≤ 200 ∧
      (compute (List.replicate 3 tinyLevel)).skewness.isNaN = true ∧
      (compute (List.replicate 3 tinyLevel)).kurtosis.isNaN = true := by
  decide +kernel

end Statistics

end CableCapture
