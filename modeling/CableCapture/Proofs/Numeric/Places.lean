import CableCapture.Proofs.Numeric.Infinity

/-!
# Decimal places

A number is rounded to decimal places by scaling it, rounding to an integer and scaling back, and is
left alone where scaling leads out of range. Numbers that are not negative keep their order, even if
only the greater one of two is left alone.
-/

namespace CableCapture.Binary64

variable {x y : Float} {v w s : ℚ} {places : UInt32}

/-! ## Nearest integers -/

/-- The nearest integer, of two the greater one. -/
def halfUp (v : ℚ) : ℤ := ⌊v + 1 / 2⌋

theorem halfUp_mono (h : v ≤ w) : halfUp v ≤ halfUp w := Int.floor_mono (by linarith)

theorem halfUp_intCast (n : ℤ) : halfUp n = n := by
  unfold halfUp
  rw [Int.floor_intCast_add]
  norm_num

theorem halfUp_nonneg (hv : 0 ≤ v) : 0 ≤ halfUp v :=
  (halfUp_intCast 0).symm.le.trans (halfUp_mono (by simpa using hv))

theorem abs_sub_halfUp_le (v : ℚ) : |v - halfUp v| ≤ 1 / 2 := by
  have hlower := Int.floor_le (v + 1 / 2)
  have hupper := Int.lt_floor_add_one (v + 1 / 2)
  unfold halfUp
  rw [abs_le]
  constructor <;> linarith

theorem exists_eq_intCast (h : rounded v = v) (hv : 2 ^ 52 ≤ v) : ∃ n : ℤ, v = n := by
  have hpos : 0 < v := lt_of_lt_of_le (by norm_num) hv
  have hlog : 52 ≤ Int.log 2 v :=
    (Int.zpow_le_iff_le_log (by norm_num) hpos).1 (by exact_mod_cast hv)
  have hulp : 0 ≤ ulpExponent v := by
    rw [ulpExponent_of_pos hpos]
    omega
  refine ⟨nearestEven (v / 2 ^ ulpExponent v) * 2 ^ (ulpExponent v).toNat, ?_⟩
  push_cast
  rw [← zpow_natCast, Int.toNat_of_nonneg hulp]
  exact h.symm

/-- Only numbers below `2 ^ 52` have a fraction. -/
theorem halfUp_cases (h : rounded v = v) : halfUp v ≤ 2 ^ 52 ∨ (halfUp v : ℚ) = v := by
  rcases le_total v (2 ^ 52) with hle | hge
  · left
    have hbound := halfUp_intCast (2 ^ 52)
    push_cast at hbound
    exact (halfUp_mono hle).trans hbound.le
  · right
    obtain ⟨n, rfl⟩ := exists_eq_intCast h hge
    rw [halfUp_intCast]

theorem rounded_halfUp (h : rounded v = v) (hv : 0 ≤ v) : rounded (halfUp v) = halfUp v := by
  rcases halfUp_cases h with hle | hsame
  · apply rounded_intCast
    rw [abs_of_nonneg (halfUp_nonneg hv)]
    exact hle.trans_lt (by norm_num)
  · rw [hsame, h]

theorem halfUp_lt (h : rounded v = v) (hv : v < 2 ^ (1024 : ℤ)) :
    (halfUp v : ℚ) < 2 ^ (1024 : ℤ) := by
  rcases halfUp_cases h with hle | hsame
  · have hle : (halfUp v : ℚ) ≤ 2 ^ (52 : ℤ) := by exact_mod_cast hle
    exact hle.trans_lt (zpow_lt_zpow_right₀ (by norm_num) (by norm_num))
  · rwa [hsame]

theorem Denotes.round (hx : Denotes x v) (hv : 0 ≤ v) : Denotes (round x) (halfUp v) := by
  let a : ℚ := significand x.toBits * 2 ^ exponent x.toBits
  have ha : 0 ≤ a := mul_nonneg (Nat.cast_nonneg _) (two_zpow_pos _).le
  have hvalue : signed (signOf x.toBits) a = v := hx.value_eq
  have hmagnitude : a = v := by rw [← abs_signed (signOf x.toBits) ha, hvalue, abs_of_nonneg hv]
  have hnearest : ((nearestNat (significand x.toBits) (exponent x.toBits) : ℕ) : ℚ) = halfUp v := by
    rw [← hmagnitude]
    exact_mod_cast nearestNat_eq_floor (significand x.toBits) (exponent x.toBits)
  have hinteger : Denotes (Float.ofNat (nearestNat (significand x.toBits) (exponent x.toBits)))
      (halfUp v) := by
    have hexact := rounded_halfUp hx.rounded_eq hv
    have hrange := halfUp_lt hx.rounded_eq ((le_abs_self v).trans_lt hx.abs_lt)
    rw [← hnearest] at hexact hrange
    exact (denotes_ofNat_exact hexact hrange).cast hnearest
  unfold Binary64.round
  simp only [hx.isFinite, if_true]
  split
  · -- a negative zero
    rename_i hnegative
    have hzero : v = 0 := by
      rw [signOf, if_pos hnegative, signed, hmagnitude] at hvalue
      linarith
    have hresult := hinteger.neg
    rw [hzero] at hresult ⊢
    exact hresult.cast (by norm_num [halfUp])
  · exact hinteger

/-! ## Scaling -/

/-- The power of ten of so many places, which can be infinite. -/
def scaleOf (places : UInt32) : Float := power 10.0 (min places.toNat (2 ^ 31 - 1))

theorem scaleOf_eq (places : UInt32) :
    scaleOf places = power 10.0 (min places.toNat (2 ^ 31 - 1) : ℕ) := by
  unfold scaleOf
  congr 1
  omega

/-- Ten is more than two to the third. -/
theorem large_scaleOf (places : UInt32) :
    Large (3 * min places.toNat (2 ^ 31 - 1)) (scaleOf places) := by
  have hten : Large 3 10.0 := large_ofNat (n := 10) (by norm_num) (by norm_num)
  rw [scaleOf_eq]
  exact hten.power _

theorem roundTo_eq (places : UInt32) (x : Float) :
    roundTo places x = if isFinite (x * scaleOf places).toBits then
      Binary64.round (x * scaleOf places) / scaleOf places else x := rfl

theorem roundTo_of_infinite (hs : Infinite (scaleOf places) .positive) (hx : Denotes x v)
    (hv : 0 ≤ v) : roundTo places x = x := by
  rw [roundTo_eq, hs.isFinite_mul hx hv]
  rfl

/-- A number that is not negative, rounded under a scale. -/
def placed (s v : ℚ) : ℚ :=
  if rounded (v * s) < 2 ^ (1024 : ℤ) then rounded (halfUp (rounded (v * s)) / s) else v

theorem Denotes.roundTo (hx : Denotes x v) (hv : 0 ≤ v) (hs : Denotes (scaleOf places) s)
    (hlarge : 1 ≤ s) : Denotes (Binary64.roundTo places x) (placed s v) := by
  have hpos : 0 < s := one_pos.trans_le hlarge
  have hnonneg : 0 ≤ rounded (v * s) := rounded_nonneg (mul_nonneg hv hpos.le)
  rw [roundTo_eq, placed]
  by_cases hrange : rounded (v * s) < 2 ^ (1024 : ℤ)
  · have hscaled : Denotes (x * scaleOf places) (rounded (v * s)) :=
      hx.mul hs (by rwa [abs_of_nonneg hnonneg])
    rw [if_pos hscaled.isFinite, if_pos hrange]
    exact (hscaled.round hnonneg).div_of_one_le (by exact_mod_cast halfUp_nonneg hnonneg) hs hlarge
  · have hinfinite : Infinite (x * scaleOf places) .positive :=
      (Stands.mul hx hs).infinite (not_lt.1 hrange)
    rw [hinfinite.isFinite, if_neg hrange]
    exact hx

/-! ## Order -/

theorem placed_mono (hs : 1 ≤ s) (hv : 0 ≤ v) (h : v ≤ w) (hw : rounded w = w) :
    placed s v ≤ placed s w := by
  have hpos : 0 < s := one_pos.trans_le hs
  have hscaled : rounded (v * s) ≤ rounded (w * s) :=
    rounded_mono (mul_le_mul_of_nonneg_right h hpos.le)
  unfold placed
  by_cases hgreater : rounded (w * s) < 2 ^ (1024 : ℤ)
  · rw [if_pos (hscaled.trans_lt hgreater), if_pos hgreater]
    apply rounded_mono
    exact div_le_div_of_nonneg_right (by exact_mod_cast halfUp_mono hscaled) hpos.le
  · rw [if_neg hgreater]
    split
    · rename_i hlesser
      -- what `v` is scaled and rounded to is in range, so `w` is scaled past it
      have hinteger : (halfUp (rounded (v * s)) : ℚ) ≤ w * s := by
        by_contra hlt
        have hbound := rounded_mono (not_le.1 hlt).le
        rw [rounded_halfUp (rounded_rounded _) (rounded_nonneg (mul_nonneg hv hpos.le))] at hbound
        exact hgreater (hbound.trans_lt (halfUp_lt (rounded_rounded _) hlesser))
      calc rounded (halfUp (rounded (v * s)) / s)
          ≤ rounded w := rounded_mono ((div_le_iff₀ hpos).2 hinteger)
        _ = w := hw
    · exact h

/-- Rounding to decimal places is a function on numbers that are not negative, and keeps their
order. -/
theorem exists_roundTo (places : UInt32) : ∃ f : ℚ → ℚ,
    (∀ x v, Denotes x v → 0 ≤ v → Denotes (Binary64.roundTo places x) (f v)) ∧
      ∀ v w, 0 ≤ v → v ≤ w → rounded w = w → f v ≤ f w := by
  rcases large_scaleOf places with hinfinite | ⟨s, hs, hpower⟩
  · refine ⟨id, fun x v hx hv => ?_, fun v w _ h _ => h⟩
    rw [roundTo_of_infinite hinfinite hx hv]
    exact hx
  · have hlarge : 1 ≤ s := (one_le_pow₀ (by norm_num)).trans hpower
    exact ⟨placed s, fun x v hx hv => hx.roundTo hv hs hlarge,
      fun v w hv h hw => placed_mono hlarge hv h hw⟩

theorem Denotes.isFinite_roundTo (hx : Denotes x v) (hv : 0 ≤ v) :
    Binary64.isFinite (Binary64.roundTo places x).toBits = true := by
  obtain ⟨f, hdenotes, -⟩ := exists_roundTo places
  exact (hdenotes x v hx hv).isFinite

theorem Denotes.roundTo_le_roundTo (hx : Denotes x v) (hy : Denotes y w) (hv : 0 ≤ v)
    (h : v ≤ w) : Binary64.roundTo places x ≤ Binary64.roundTo places y := by
  obtain ⟨f, hdenotes, hmono⟩ := exists_roundTo places
  rw [(hdenotes x v hx hv).le_iff (hdenotes y w hy (hv.trans h))]
  exact hmono v w hv h hy.rounded_eq

end CableCapture.Binary64
