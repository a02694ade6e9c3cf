import CableCapture.Proofs.Numeric.Precision

/-!
# Extremes and means of numbers

The least and the greatest of several numbers are found by comparing from the left, starting with an
infinity that any number replaces. Quarters are added up without an error, and their mean stays between
their extremes, also when all three are rounded to decimal places.
-/

namespace CableCapture.Binary64

open Float.Model Float.Model.UnpackedFloat

variable {x y : Float} {v w : ℚ}

/-! ## Comparing with infinities -/

theorem Denotes.isNaN (hx : Denotes x v) : x.isNaN = false := by
  change x.toModel.unpack.isNaN = false
  unfold Denotes at hx
  generalize x.toModel.unpack = u at hx
  cases hx <;> rfl

theorem Infinite.isNaN {s : Sign} (hx : Infinite x s) : x.isNaN = false := by
  change x.toModel.unpack.isNaN = false
  rw [hx]
  rfl

theorem infinite_infinity : Infinite infinity .positive := by
  unfold Infinite
  rfl

theorem infinite_neg_infinity : Infinite (-infinity) .negative := by
  unfold Infinite
  rfl

theorem Denotes.lt_infinity (hx : Denotes x v) (hy : Infinite y .positive) : x < y := by
  rw [lt_iff_compare, hy]
  unfold Denotes at hx
  generalize x.toModel.unpack = u at hx
  cases hx with
  | zero s => rfl
  | finite s hm h => cases s <;> rfl

theorem Denotes.neg_infinity_lt (hx : Denotes x v) (hy : Infinite y .negative) : y < x := by
  rw [lt_iff_compare, hy]
  unfold Denotes at hx
  generalize x.toModel.unpack = u at hx
  cases hx <;> rfl

/-! ## Extremes -/

theorem least_eq (hx : x.isNaN = false) (hy : y.isNaN = false) :
    least x y = if y < x then y else x := by
  unfold least
  rw [hx, hy]
  rfl

theorem greatest_eq (hx : x.isNaN = false) (hy : y.isNaN = false) :
    greatest x y = if x < y then y else x := by
  unfold greatest
  rw [hx, hy]
  rfl

theorem Denotes.least_infinity (hx : Denotes x v) : least infinity x = x := by
  rw [least_eq infinite_infinity.isNaN hx.isNaN, if_pos (hx.lt_infinity infinite_infinity)]

theorem Denotes.greatest_infinity (hx : Denotes x v) : greatest (-infinity) x = x := by
  rw [greatest_eq infinite_neg_infinity.isNaN hx.isNaN,
    if_pos (hx.neg_infinity_lt infinite_neg_infinity)]

/-- One of the numbers, which stands in this relation to all of them. -/
structure Extreme (r : ℚ → ℚ → Prop) (xs : List Float) (x : Float) : Prop where
  mem : x ∈ xs
  related : ∀ y ∈ xs, r (value x) (value y)

section Extreme

variable {r : ℚ → ℚ → Prop} {xs ys : List Float} {f : Float → Float → Float}

/-- An extreme can stand for the numbers it was taken from. -/
theorem Extreme.append [IsTrans ℚ r] (hx : Extreme r xs x) (hy : Extreme r (x :: ys) y) :
    Extreme r (xs ++ ys) y where
  mem := by
    rcases List.mem_cons.1 hy.mem with hsame | hlater
    · rw [hsame]
      exact List.mem_append_left ys hx.mem
    · exact List.mem_append_right xs hlater
  related z hz := by
    rcases List.mem_append.1 hz with hleft | hright
    · exact IsTrans.trans _ _ _ (hy.related x List.mem_cons_self) (hx.related z hleft)
    · exact hy.related z (List.mem_cons_of_mem x hright)

/-- Of two numbers the function gives an extreme. -/
def Selects (f : Float → Float → Float) (r : ℚ → ℚ → Prop) : Prop :=
  ∀ x y, isFinite x.toBits = true → isFinite y.toBits = true → Extreme r [x, y] (f x y)

theorem Extreme.first [Std.Refl r] (h : r (value x) (value y)) : Extreme r [x, y] x where
  mem := by simp
  related := by simp [h, refl]

theorem Extreme.second [Std.Refl r] (h : r (value y) (value x)) : Extreme r [x, y] y where
  mem := by simp
  related := by simp [h, refl]

/-- Selecting from the left keeps an extreme of what has been seen. -/
theorem Selects.extreme_foldl [Std.Refl r] [IsTrans ℚ r] (h : Selects f r)
    (hx : isFinite x.toBits = true) (hxs : ∀ y ∈ xs, isFinite y.toBits = true) :
    Extreme r (x :: xs) (xs.foldl f x) := by
  induction xs generalizing x with
  | nil =>
    refine ⟨List.mem_singleton_self x, fun y hy => ?_⟩
    rw [List.mem_singleton.1 hy]
    exact refl _
  | cons y rest ih =>
    obtain ⟨hy, hrest⟩ := List.forall_mem_cons.1 hxs
    have hpair := h x y hx hy
    have hselected : isFinite (f x y).toBits = true := by
      rcases List.mem_pair.1 hpair.mem with hsame | hsame
      · rwa [hsame]
      · rwa [hsame]
    exact hpair.append (ih hselected hrest)

end Extreme

theorem selects_least : Selects least (· ≤ ·) := by
  intro x y hx hy
  have hlt := (denotes_value hy).lt_iff (denotes_value hx)
  rw [least_eq (denotes_value hx).isNaN (denotes_value hy).isNaN]
  split
  · rename_i hless
    exact .second (hlt.1 hless).le
  · rename_i hless
    exact .first (not_lt.1 (mt hlt.2 hless))

theorem selects_greatest : Selects greatest (· ≥ ·) := by
  intro x y hx hy
  have hlt := (denotes_value hx).lt_iff (denotes_value hy)
  rw [greatest_eq (denotes_value hx).isNaN (denotes_value hy).isNaN]
  split
  · rename_i hless
    exact .second (hlt.1 hless).le
  · rename_i hless
    exact .first (not_lt.1 (mt hlt.2 hless))

theorem extreme_least {xs : List Float} (hne : xs ≠ [])
    (hxs : ∀ x ∈ xs, isFinite x.toBits = true) : Extreme (· ≤ ·) xs (xs.foldl least infinity) := by
  obtain ⟨x, rest, rfl⟩ := List.exists_cons_of_ne_nil hne
  obtain ⟨hx, hrest⟩ := List.forall_mem_cons.1 hxs
  rw [List.foldl_cons, (denotes_value hx).least_infinity]
  exact selects_least.extreme_foldl hx hrest

theorem extreme_greatest {xs : List Float} (hne : xs ≠ [])
    (hxs : ∀ x ∈ xs, isFinite x.toBits = true) :
    Extreme (· ≥ ·) xs (xs.foldl greatest (-infinity)) := by
  obtain ⟨x, rest, rfl⟩ := List.exists_cons_of_ne_nil hne
  obtain ⟨hx, hrest⟩ := List.forall_mem_cons.1 hxs
  rw [List.foldl_cons, (denotes_value hx).greatest_infinity]
  exact selects_greatest.extreme_foldl hx hrest

/-! ## Means of quarters -/

/-- A number of quarters that is not above the bound. -/
def Quarters (bound : ℕ) (x : Float) : Prop := ∃ n ≤ bound, Denotes x (n / 4)

section Quarters

variable {bound : ℕ} {xs : List Float}

theorem Quarters.isFinite (hx : Quarters bound x) : Binary64.isFinite x.toBits = true := by
  obtain ⟨n, -, hn⟩ := hx
  exact hn.isFinite

theorem Quarters.value_nonneg (hx : Quarters bound x) : 0 ≤ value x := by
  obtain ⟨n, -, hn⟩ := hx
  rw [hn.value_eq]
  positivity

/-- Quarters are added up without an error, as long as their number fits a significand. -/
theorem denotes_foldl_add {k : ℕ} (hx : Denotes x (k / 4)) (hxs : ∀ y ∈ xs, Quarters bound y)
    (h : k + bound * xs.length < 2 ^ 53) :
    Denotes (xs.foldl (· + ·) x) (k / 4 + (xs.map value).sum) := by
  induction xs generalizing x k with
  | nil => exact hx.cast (by simp)
  | cons y rest ih =>
    obtain ⟨⟨n, hn, hy⟩, hrest⟩ := List.forall_mem_cons.1 hxs
    rw [List.length_cons, Nat.mul_add_one] at h
    have hsum : (k : ℚ) / 4 + n / 4 = (k + n : ℕ) / 4 := by
      push_cast
      ring
    have hexact : rounded ((k : ℚ) / 4 + n / 4) = k / 4 + n / 4 := by
      rw [hsum]
      exact rounded_quarters (by omega)
    have hstep : Denotes (x + y) ((k + n : ℕ) / 4) := by
      refine (hx.add_exact hy hexact ?_).cast hsum
      rw [hsum]
      exact abs_quarters_lt (by omega)
    rw [List.foldl_cons]
    refine (ih hstep hrest (by omega)).cast ?_
    rw [List.map_cons, List.sum_cons, hy.value_eq, ← hsum]
    ring

theorem sum_nonneg (hxs : ∀ x ∈ xs, Quarters bound x) : 0 ≤ (xs.map value).sum :=
  List.sum_nonneg (List.forall_mem_map.2 fun x hx => (hxs x hx).value_nonneg)

theorem le_rounded_mean (hne : xs ≠ []) (hv : rounded v = v) (h : ∀ x ∈ xs, v ≤ value x) :
    v ≤ rounded ((xs.map value).sum / xs.length) := by
  have hcount : (0 : ℚ) < xs.length := by exact_mod_cast List.length_pos_iff.2 hne
  have hsum := List.card_nsmul_le_sum (xs.map value) v (List.forall_mem_map.2 h)
  rw [List.length_map, nsmul_eq_mul, mul_comm] at hsum
  exact hv.symm.le.trans (rounded_mono ((le_div_iff₀ hcount).2 hsum))

theorem rounded_mean_le (hne : xs ≠ []) (hv : rounded v = v) (h : ∀ x ∈ xs, value x ≤ v) :
    rounded ((xs.map value).sum / xs.length) ≤ v := by
  have hcount : (0 : ℚ) < xs.length := by exact_mod_cast List.length_pos_iff.2 hne
  have hsum := List.sum_le_card_nsmul (xs.map value) v (List.forall_mem_map.2 h)
  rw [List.length_map, nsmul_eq_mul, mul_comm] at hsum
  exact (rounded_mono ((div_le_iff₀ hcount).2 hsum)).trans hv.le

end Quarters

/-- Some quarters, few enough to be counted and added up without an error. -/
structure Averageable (bound : ℕ) (xs : List Float) : Prop where
  ne_nil : xs ≠ []
  quarters : ∀ x ∈ xs, Quarters bound x
  length_lt : xs.length < 2 ^ 53
  sum_lt : bound * xs.length < 2 ^ 53

namespace Averageable

variable {bound : ℕ} {xs : List Float} (h : Averageable bound xs)
include h

theorem isFinite : ∀ x ∈ xs, Binary64.isFinite x.toBits = true := fun x hx =>
  (h.quarters x hx).isFinite

/-- The mean is rounded once, by the division. -/
theorem denotes_mean :
    Denotes (xs.foldl (· + ·) 0.0 / Float.ofNat xs.length)
      (rounded ((xs.map value).sum / xs.length)) := by
  have hlimit := h.sum_lt
  have hsum : Denotes (xs.foldl (· + ·) 0.0) (xs.map value).sum := by
    have hzero : Denotes 0.0 ((0 : ℕ) / 4) :=
      (denotes_ofNat_small (n := 0) (by norm_num)).cast (by norm_num)
    exact (denotes_foldl_add hzero h.quarters (by omega)).cast (by simp)
  have hcount : (1 : ℚ) ≤ xs.length := by exact_mod_cast List.length_pos_iff.2 h.ne_nil
  exact hsum.div_of_one_le (sum_nonneg h.quarters) (denotes_ofNat_small h.length_lt) hcount

theorem mean_nonneg : 0 ≤ rounded ((xs.map value).sum / xs.length) :=
  rounded_nonneg (div_nonneg (sum_nonneg h.quarters) (Nat.cast_nonneg _))

theorem extreme_least : Extreme (· ≤ ·) xs (xs.foldl least infinity) :=
  Binary64.extreme_least h.ne_nil h.isFinite

theorem extreme_greatest : Extreme (· ≥ ·) xs (xs.foldl greatest (-infinity)) :=
  Binary64.extreme_greatest h.ne_nil h.isFinite

variable {places : UInt32}

theorem roundTo_least_le_mean :
    roundTo places (xs.foldl least infinity) ≤
      roundTo places (xs.foldl (· + ·) 0.0 / Float.ofNat xs.length) := by
  have hmem := h.quarters _ h.extreme_least.mem
  have hvalue := denotes_value hmem.isFinite
  exact hvalue.roundTo_le_roundTo h.denotes_mean hmem.value_nonneg
    (le_rounded_mean h.ne_nil hvalue.rounded_eq h.extreme_least.related)

theorem roundTo_mean_le_greatest :
    roundTo places (xs.foldl (· + ·) 0.0 / Float.ofNat xs.length) ≤
      roundTo places (xs.foldl greatest (-infinity)) := by
  have hvalue := denotes_value (h.isFinite _ h.extreme_greatest.mem)
  exact h.denotes_mean.roundTo_le_roundTo hvalue h.mean_nonneg
    (rounded_mean_le h.ne_nil hvalue.rounded_eq h.extreme_greatest.related)

theorem isFinite_roundTo_of_mem (hx : x ∈ xs) :
    Binary64.isFinite (roundTo places x).toBits = true :=
  (denotes_value (h.isFinite x hx)).isFinite_roundTo (h.quarters x hx).value_nonneg

theorem abs_roundTo_sub_le_of_mem (hx : x ∈ xs) :
    |value (roundTo places x) - value x| ≤ tolerance places (value x) :=
  (denotes_value (h.isFinite x hx)).abs_roundTo_sub_le (h.quarters x hx).value_nonneg

theorem abs_roundTo_mean_sub_le :
    |value (roundTo places (xs.foldl (· + ·) 0.0 / Float.ofNat xs.length)) -
        value (xs.foldl (· + ·) 0.0 / Float.ofNat xs.length)| ≤
      tolerance places (value (xs.foldl (· + ·) 0.0 / Float.ofNat xs.length)) := by
  rw [h.denotes_mean.value_eq]
  exact h.denotes_mean.abs_roundTo_sub_le h.mean_nonneg

theorem isFinite_roundTo_mean :
    Binary64.isFinite
      (roundTo places (xs.foldl (· + ·) 0.0 / Float.ofNat xs.length)).toBits = true :=
  h.denotes_mean.isFinite_roundTo h.mean_nonneg

end Averageable

end CableCapture.Binary64
