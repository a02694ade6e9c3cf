import CableCapture.Proofs.Numeric.Bits

/-!
# Arithmetic on numbers

Sums, products, quotients and conversions denote the rounded exact results, as long as these are in
range.
-/

namespace CableCapture.Binary64

open Float.Model Float.Model.UnpackedFloat

variable {x y : Float} {v w : ℚ}

/-! ## Operations -/

theorem Denotes.mul (hx : Denotes x v) (hy : Denotes y w)
    (hrange : |rounded (v * w)| < 2 ^ (1024 : ℤ)) : Denotes (x * y) (rounded (v * w)) :=
  (Stands.mul hx hy).denotes hrange

theorem Denotes.div (hx : Denotes x v) (hy : Denotes y w) (hw : w ≠ 0)
    (hrange : |rounded (v / w)| < 2 ^ (1024 : ℤ)) : Denotes (x / y) (rounded (v / w)) :=
  (Stands.div hx hy hw).denotes hrange

theorem Denotes.add (hx : Denotes x v) (hy : Denotes y w)
    (hrange : |rounded (v + w)| < 2 ^ (1024 : ℤ)) : Denotes (x + y) (rounded (v + w)) :=
  (Stands.add hx hy).denotes hrange

theorem Denotes.sub (hx : Denotes x v) (hy : Denotes y w)
    (hrange : |rounded (v - w)| < 2 ^ (1024 : ℤ)) : Denotes (x - y) (rounded (v - w)) :=
  (Stands.sub hx hy).denotes hrange

theorem Denotes.rounded_eq (hx : Denotes x v) : rounded v = v := Stands.rounded_eq hx

theorem Denotes.neg (hx : Denotes x v) : Denotes (-x) (-v) :=
  (Stands.neg hx).denotes (by rw [abs_neg]; exact hx.abs_lt)

/-- Exact results are not rounded. -/
theorem Denotes.mul_exact (hx : Denotes x v) (hy : Denotes y w) (hexact : rounded (v * w) = v * w)
    (hrange : |v * w| < 2 ^ (1024 : ℤ)) : Denotes (x * y) (v * w) := by
  have h := hx.mul hy (by rwa [hexact])
  rwa [hexact] at h

theorem Denotes.div_exact (hx : Denotes x v) (hy : Denotes y w) (hw : w ≠ 0)
    (hexact : rounded (v / w) = v / w) (hrange : |v / w| < 2 ^ (1024 : ℤ)) :
    Denotes (x / y) (v / w) := by
  have h := hx.div hy hw (by rwa [hexact])
  rwa [hexact] at h

theorem Denotes.add_exact (hx : Denotes x v) (hy : Denotes y w) (hexact : rounded (v + w) = v + w)
    (hrange : |v + w| < 2 ^ (1024 : ℤ)) : Denotes (x + y) (v + w) := by
  have h := hx.add hy (by rwa [hexact])
  rwa [hexact] at h

/-! ## Conversions -/

theorem Denotes.cast (hx : Denotes x v) (h : v = w) : Denotes x w := h ▸ hx

theorem stands_one : Stands (.finite .positive (2 ^ 52) (-52) (Nat.two_pow_pos 52)) 1 := by
  have h := Stands.finite .positive (m := 2 ^ 52) (e := -52) (by norm_num)
    ⟨by norm_num, by norm_num, by simp⟩
  have hvalue : signed .positive (((2 ^ 52 : ℕ) : ℚ) * 2 ^ (-52 : ℤ)) = 1 := by
    rw [signed]
    norm_num
  rwa [hvalue] at h

theorem denotes_one : Denotes (.ofBits 0x3FF0000000000000) 1 := stands_one

theorem denotes_toFloat (n : UInt64) : Denotes n.toFloat (rounded n.toNat) := by
  have hstands := stands_ofInt (n.toNat : ℤ)
  rw [Int.cast_natCast] at hstands
  refine hstands.denotes (abs_rounded_lt ?_)
  have hlt : (n.toNat : ℚ) ≤ 2 ^ (64 : ℤ) := by exact_mod_cast n.toNat_lt.le
  rw [abs_of_nonneg (Nat.cast_nonneg _)]
  exact hlt.trans (zpow_le_zpow_right₀ (by norm_num) (by norm_num))

theorem rounded_natCast {n : ℕ} (hn : n < 2 ^ 53) : rounded n = n := by
  have h := rounded_intCast (n := n) (by rw [Nat.abs_cast]; exact_mod_cast hn)
  rwa [Int.cast_natCast] at h

/-- Quarters of 53 bits are kept. -/
theorem rounded_quarters {n : ℕ} (hn : n < 2 ^ 53) : rounded (n / 4) = n / 4 := by
  have hgrid : (n : ℚ) / 4 = (n : ℤ) * 2 ^ (-2 : ℤ) := by
    norm_num
    ring
  rw [hgrid]
  exact rounded_of_grid (by rw [Nat.abs_cast]; exact_mod_cast hn) (by norm_num)

theorem abs_quarters_lt {n : ℕ} (hn : n < 2 ^ 53) : |(n : ℚ) / 4| < 2 ^ (1024 : ℤ) := by
  have hbound : (n : ℚ) < 2 ^ (53 : ℤ) := by exact_mod_cast hn
  rw [abs_of_nonneg (by positivity)]
  calc (n : ℚ) / 4 ≤ n := div_le_self (Nat.cast_nonneg n) (by norm_num)
    _ < 2 ^ (53 : ℤ) := hbound
    _ ≤ 2 ^ (1024 : ℤ) := zpow_le_zpow_right₀ (by norm_num) (by norm_num)

/-- Numbers of 53 bits are converted as words. -/
theorem ofNat_of_small {n : ℕ} (hn : n < 2 ^ 53) :
    Float.ofNat n = n.toUInt64.toFloat * .ofBits 0x3FF0000000000000 := by
  change Float.ofScientific n false 0 = _
  unfold Float.ofScientific
  rw [dif_pos ⟨hn, by norm_num⟩]
  rfl

theorem denotes_ofNat_small {n : ℕ} (hn : n < 2 ^ 53) : Denotes (Float.ofNat n) n := by
  have hexact : rounded ((n : ℚ) * 1) = n * 1 := by
    rw [mul_one]
    exact rounded_natCast hn
  have hword : (n.toUInt64.toNat : ℚ) = n := by
    rw [UInt64.toNat_ofNat_of_lt' (hn.trans (by norm_num))]
  have hleft : Denotes n.toUInt64.toFloat n := by
    have h := denotes_toFloat n.toUInt64
    rwa [hword, rounded_natCast hn] at h
  rw [ofNat_of_small hn]
  refine (hleft.mul_exact denotes_one hexact ?_).cast (mul_one _)
  rw [mul_one]
  exact hleft.abs_lt

/-- Numbers beyond 53 bits are read as decimal numbers, with a power of ten that is one. -/
theorem denotes_ofNat_large {n : ℕ} (hlarge : 2 ^ 53 ≤ n) (hn : |rounded n| < 2 ^ (1024 : ℤ)) :
    Denotes (Float.ofNat n) (rounded n) := by
  have hpos : 0 < n := lt_of_lt_of_le (by norm_num) hlarge
  have hslow : Float.ofNat n = .ofModel (.ofScientific n 0) := by
    change Float.ofScientific n false 0 = _
    unfold Float.ofScientific
    rw [dif_neg (by omega)]
    rfl
  have hround : UnpackedFloat.ofScientific Format.binary64 n 0 =
      roundWithAccuracy Format.binary64 .positive (n <<< 53 * 10 ^ 0) (-53 + 0) .exact := by
    have hbelow : ¬(0 : ℤ) < -((2 : ℤ) ^ 11 + n.log2) := by omega
    unfold UnpackedFloat.ofScientific
    rw [dif_neg hpos.ne', if_neg (by norm_num), if_neg hbelow, if_pos (le_refl 0)]
    rfl
  have hvalue : ((n <<< 53 * 10 ^ 0 : ℕ) : ℚ) * 2 ^ (-53 + 0 : ℤ) = n := by
    rw [Nat.shiftLeft_eq, pow_zero, mul_one, add_zero, zpow_neg]
    push_cast
    exact mul_inv_cancel_right₀ (by norm_num) _
  have hstands : Stands (UnpackedFloat.ofScientific Format.binary64 n 0) (rounded n) := by
    rw [hround, ← hvalue]
    refine Stands.round .positive (describes_exact _) ?_ ?_
    · have hpositive : 0 < n <<< 53 * 10 ^ 0 :=
        Nat.mul_pos (Nat.shiftLeft_pos_iff.2 hpos) (by norm_num)
      exact_mod_cast hpositive
    · rw [hvalue]
      refine le_trans ?_ ((le_max_left _ _).trans (ulpExponent_natCast hpos).ge)
      omega
  rw [hslow]
  exact hstands.denotes hn

theorem denotes_ofNat {n : ℕ} (hn : |rounded n| < 2 ^ (1024 : ℤ)) :
    Denotes (Float.ofNat n) (rounded n) := by
  by_cases hsmall : n < 2 ^ 53
  · rw [rounded_natCast hsmall]
    exact denotes_ofNat_small hsmall
  · exact denotes_ofNat_large (not_lt.1 hsmall) hn

theorem denotes_ofNat_exact {n : ℕ} (hexact : rounded n = n) (hrange : (n : ℚ) < 2 ^ (1024 : ℤ)) :
    Denotes (Float.ofNat n) n := by
  have h : Denotes (Float.ofNat n) (rounded n) := by
    apply denotes_ofNat
    rwa [hexact, abs_of_nonneg (Nat.cast_nonneg n)]
  exact h.cast hexact

theorem denotes_ofInt {n : ℤ} (hn : |(n : ℚ)| ≤ 2 ^ (1023 : ℤ)) :
    Denotes (Float.ofInt n) (rounded n) := by
  cases n with
  | ofNat n =>
    exact denotes_ofNat (abs_rounded_lt hn)
  | negSucc n =>
    have hcast : ((Int.negSucc n : ℤ) : ℚ) = -((n + 1 : ℕ) : ℚ) := by
      rw [Int.cast_negSucc]
    rw [hcast] at hn ⊢
    rw [abs_neg] at hn
    rw [rounded_neg]
    exact (denotes_ofNat (abs_rounded_lt hn)).neg

theorem denotes_ofInt_small {n : ℤ} (hn : |n| < 2 ^ 53) : Denotes (Float.ofInt n) n := by
  have hrange : |(n : ℚ)| ≤ 2 ^ (1023 : ℤ) := by
    have hlt : |(n : ℚ)| ≤ 2 ^ (53 : ℤ) := by exact_mod_cast hn.le
    exact hlt.trans (zpow_le_zpow_right₀ (by norm_num) (by norm_num))
  have h := denotes_ofInt hrange
  rwa [rounded_intCast hn] at h

/-! ## Nearest integers -/

theorem nearestNat_eq_floor (m : ℕ) (e : ℤ) :
    (nearestNat m e : ℤ) = ⌊(m : ℚ) * 2 ^ e + 1 / 2⌋ := by
  unfold nearestNat
  split
  · rename_i hnonneg
    have hinteger : (m : ℚ) * 2 ^ e = ((m * 2 ^ e.toNat : ℕ) : ℤ) := by
      push_cast
      rw [← zpow_natCast, Int.toNat_of_nonneg hnonneg]
    rw [hinteger, Int.floor_intCast_add]
    norm_num
  · rename_i hnegative
    have hpower : (2 : ℚ) ^ e = (((2 ^ (-e).toNat : ℕ) : ℚ))⁻¹ := by
      push_cast
      rw [← zpow_natCast, Int.toNat_of_nonneg (by omega), zpow_neg, inv_inv]
    have hfraction : (m : ℚ) * 2 ^ e + 1 / 2 =
        ((2 * m + 2 ^ (-e).toNat : ℕ) : ℚ) / ((2 * 2 ^ (-e).toNat : ℕ) : ℚ) := by
      have hne : ((2 ^ (-e).toNat : ℕ) : ℚ) ≠ 0 := by positivity
      rw [hpower]
      push_cast at hne ⊢
      field_simp
    rw [hfraction, Rat.floor_natCast_div_natCast, Int.natCast_ediv]

/-- The nearest integer of the magnitude, with the sign of the float. -/
theorem nearestInt_eq (hx : Denotes x v) :
    ∃ a, 0 ≤ a ∧ v = signed (signOf x.toBits) a ∧
      nearestInt x = if isNegative x.toBits then -⌊a + 1 / 2⌋ else ⌊a + 1 / 2⌋ := by
  refine ⟨significand x.toBits * 2 ^ exponent x.toBits, ?_, hx.value_eq.symm, ?_⟩
  · exact mul_nonneg (Nat.cast_nonneg _) (two_zpow_pos _).le
  · unfold nearestInt
    simp only [nearestNat_eq_floor]

theorem nearestInt_of_abs_sub_lt {n : ℤ} (hx : Denotes x v) (hn : |v - n| < 1 / 2) :
    nearestInt x = n := by
  obtain ⟨a, -, hv, hnearest⟩ := nearestInt_eq hx
  rw [abs_lt] at hn
  rw [hnearest]
  unfold signOf at hv
  split
  · rename_i hnegative
    rw [if_pos hnegative, signed] at hv
    have hfloor : ⌊a + 1 / 2⌋ = -n := by
      rw [Int.floor_eq_iff]
      push_cast
      constructor <;> linarith
    rw [hfloor, neg_neg]
  · rename_i hpositive
    rw [if_neg hpositive, signed] at hv
    rw [Int.floor_eq_iff]
    constructor <;> linarith

/-! ## Quotients multiplied back -/

theorem normal_of_le {k : ℤ} (hk : -1022 ≤ k) (hv : 2 ^ k ≤ |v|) : 2 ^ (-1022 : ℤ) ≤ |v| :=
  (zpow_le_zpow_right₀ (by norm_num) hk).trans hv

/-- Both roundings together are off by at most three times half a unit in the last place. -/
theorem abs_rounded_mul_rounded_div_sub_le {d : ℚ} (hv : 1 ≤ |v|) (hd : 1 ≤ d) (hmax : d ≤ 2 ^ 64) :
    |rounded (rounded (v / d) * d) - v| ≤ 3 * |v| / 2 ^ 53 := by
  have hpos : 0 < d := lt_of_lt_of_le one_pos hd
  have hcancel : v / d * d = v := div_mul_cancel₀ _ hpos.ne'
  have hquotient : 2 ^ (-64 : ℤ) ≤ |v / d| := by
    rw [abs_div, abs_of_pos hpos, le_div_iff₀ hpos]
    calc (2 : ℚ) ^ (-64 : ℤ) * d ≤ 2 ^ (-64 : ℤ) * 2 ^ 64 := by gcongr
      _ = 1 := by norm_num
      _ ≤ |v| := hv
  have hfirst : |v - rounded (v / d) * d| ≤ |v| / 2 ^ 53 := by
    have herror := abs_sub_rounded_le_of_normal (normal_of_le (by norm_num) hquotient)
    calc |v - rounded (v / d) * d| = |v / d - rounded (v / d)| * d := by
          conv_rhs => rw [← abs_of_pos hpos, ← abs_mul, abs_of_pos hpos, sub_mul, hcancel]
      _ ≤ |v / d| / 2 ^ 53 * d := mul_le_mul_of_nonneg_right herror hpos.le
      _ = |v| / 2 ^ 53 := by
          rw [abs_div, abs_of_pos hpos]
          field_simp
  have hupper : |rounded (v / d) * d| ≤ 2 * |v| := by
    have htriangle := abs_sub_abs_le_abs_sub (rounded (v / d) * d) v
    rw [abs_sub_comm] at htriangle
    linarith
  have hlower : 2 ^ (-1 : ℤ) ≤ |rounded (v / d) * d| := by
    have htriangle := abs_sub_abs_le_abs_sub v (rounded (v / d) * d)
    have hhalf : (2 : ℚ) ^ (-1 : ℤ) = 1 / 2 := by norm_num
    rw [hhalf]
    linarith
  have hsecond := abs_sub_rounded_le_of_normal (normal_of_le (by norm_num) hlower)
  calc |rounded (rounded (v / d) * d) - v|
      ≤ |rounded (rounded (v / d) * d) - rounded (v / d) * d| + |rounded (v / d) * d - v| :=
        abs_sub_le _ _ _
    _ = |rounded (v / d) * d - rounded (rounded (v / d) * d)| + |v - rounded (v / d) * d| := by
        rw [abs_sub_comm, abs_sub_comm v]
    _ ≤ 3 * |v| / 2 ^ 53 := by linarith

theorem abs_le_two_pow_1023 {k : ℕ} (hk : k ≤ 1023) (hv : |v| ≤ 2 ^ k) : |v| ≤ 2 ^ (1023 : ℤ) := by
  apply hv.trans
  rw [← zpow_natCast]
  exact zpow_le_zpow_right₀ (by norm_num) (by omega)

/-- An integer divided by a number and multiplied back is still the nearest one. -/
theorem nearestInt_div_mul {n : ℤ} {d : ℚ} (hx : Denotes x n) (hy : Denotes y d)
    (hn : |n| ≤ 2 ^ 50) (hd : 1 ≤ d) (hmax : d ≤ 2 ^ 64) : nearestInt (x / y * y) = n := by
  have hpos : 0 < d := lt_of_lt_of_le one_pos hd
  have hbound : |(n : ℚ)| ≤ 2 ^ 50 := by exact_mod_cast hn
  have hquotient : Denotes (x / y) (rounded (n / d)) := by
    refine hx.div hy hpos.ne' (abs_rounded_lt (abs_le_two_pow_1023 (k := 50) (by norm_num) ?_))
    rw [abs_div, abs_of_pos hpos]
    exact (div_le_self (abs_nonneg _) hd).trans hbound
  have hclose : |rounded (rounded (n / d) * d) - n| < 1 / 2 := by
    by_cases hzero : n = 0
    · rw [hzero, Int.cast_zero, zero_div, rounded_zero, zero_mul, rounded_zero]
      norm_num
    · have hone : 1 ≤ |(n : ℚ)| := by exact_mod_cast Int.one_le_abs hzero
      have herror := abs_rounded_mul_rounded_div_sub_le hone hd hmax
      linarith
  have hrange : |rounded (rounded (n / d) * d)| < 2 ^ (1024 : ℤ) := by
    have htriangle := abs_sub_abs_le_abs_sub (rounded (rounded (n / d) * d)) (n : ℚ)
    calc |rounded (rounded (n / d) * d)| ≤ 2 ^ 50 + 1 / 2 := by linarith
      _ < 2 ^ (51 : ℤ) := by norm_num
      _ ≤ 2 ^ (1024 : ℤ) := zpow_le_zpow_right₀ (by norm_num) (by norm_num)
  exact nearestInt_of_abs_sub_lt (hquotient.mul hy hrange) hclose

end CableCapture.Binary64
