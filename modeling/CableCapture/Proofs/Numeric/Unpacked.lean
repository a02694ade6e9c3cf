import CableCapture.Proofs.Numeric.Mantissa

/-!
# Operations on unpacked numbers

An unpacked number is canonical when no other mantissa and exponent stand for it. The operations
round their exact results, and what they return is canonical.
-/

namespace CableCapture.Binary64

open Float.Model Float.Model.UnpackedFloat

/-! ## Exponents -/

theorem log_eq_of_mem {v : ℚ} {k : ℤ} (hlower : 2 ^ k ≤ v) (hupper : v < 2 ^ (k + 1)) :
    Int.log 2 v = k := by
  have hpos : 0 < v := lt_of_lt_of_le (two_zpow_pos k) hlower
  have hle := (Int.zpow_le_iff_le_log (b := 2) (x := k) (by norm_num) hpos).1
    (by exact_mod_cast hlower)
  have hlt := (Int.lt_zpow_iff_log_lt (b := 2) (x := k + 1) (by norm_num) hpos).1
    (by exact_mod_cast hupper)
  omega

theorem zpow_log_le {v : ℚ} (hv : 0 < v) : 2 ^ Int.log 2 v ≤ v := by
  simpa using Int.zpow_log_le_self (by norm_num : 1 < 2) hv

theorem lt_zpow_log_add_one (v : ℚ) : v < 2 ^ (Int.log 2 v + 1) := by
  simpa using Int.lt_zpow_succ_log_self (by norm_num : 1 < 2) v

theorem ulpExponent_of_pos {v : ℚ} (hv : 0 < v) :
    ulpExponent v = max (Int.log 2 v - 52) (-1074) := by
  unfold ulpExponent
  rw [abs_of_pos hv]

theorem le_ulpExponent (v : ℚ) : -1074 ≤ ulpExponent v := le_max_right _ _

theorem targetExponent_binary64 (t : ℤ) :
    Format.binary64.targetExponent t = max (t - 53) (-1074) := by
  unfold Format.targetExponent Format.mantissaBits Format.minExponent
  rfl

/-- The exponent that rounding aims at is that of the last place. -/
theorem targetExponent_eq_ulpExponent {em : ExtendedMantissa} {r : ℚ} {e : ℤ}
    (h : Describes em r) (hr : 0 < r) (he : e ≤ ulpExponent (r * 2 ^ e)) :
    Format.binary64.targetExponent (totalExponent em.mantissa e) = ulpExponent (r * 2 ^ e) := by
  have hpos : 0 < r * 2 ^ e := mul_pos hr (two_zpow_pos e)
  rw [ulpExponent_of_pos hpos] at he ⊢
  rw [targetExponent_binary64]
  unfold totalExponent
  by_cases hzero : em.mantissa = 0
  · have hlt : r * 2 ^ e < 2 ^ e := by
      have hone : r < 1 := by
        have := h.upper
        rw [hzero] at this
        simpa using this
      nlinarith [two_zpow_pos e]
    have hlog := (Int.lt_zpow_iff_log_lt (b := 2) (x := e) (by norm_num) hpos).1
      (by exact_mod_cast hlt)
    rw [hzero, Nat.log2_zero]
    omega
  · have hlower : (2 : ℚ) ^ (em.mantissa.log2 : ℤ) ≤ em.mantissa := by
      rw [zpow_natCast]
      exact_mod_cast Nat.log2_self_le hzero
    have hupper : (em.mantissa : ℚ) + 1 ≤ 2 ^ ((em.mantissa.log2 : ℤ) + 1) := by
      have := Nat.lt_log2_self (n := em.mantissa)
      exact_mod_cast this
    have hlog : Int.log 2 (r * 2 ^ e) = em.mantissa.log2 + e := by
      apply log_eq_of_mem
      · rw [zpow_add₀ (by norm_num)]
        exact mul_le_mul_of_nonneg_right (hlower.trans h.lower) (two_zpow_pos e).le
      · rw [add_right_comm, zpow_add₀ (by norm_num)]
        exact mul_lt_mul_of_pos_right (h.upper.trans_le hupper) (two_zpow_pos e)
    rw [hlog]
    omega

/-! ## Rounding -/

/-- The only mantissa and exponent of their product, but for the largest exponent. -/
structure Canonical (m : ℕ) (e : ℤ) : Prop where
  mantissa_lt : m < 2 ^ 53
  exponent_ge : -1074 ≤ e
  normal : m < 2 ^ 52 → e = -1074

theorem scaled_lt {v : ℚ} (hv : 0 < v) : v / 2 ^ ulpExponent v < 2 ^ 53 := by
  rw [div_lt_iff₀ (two_zpow_pos _), ← zpow_natCast, ← zpow_add₀ (by norm_num)]
  refine (lt_zpow_log_add_one v).trans_le (zpow_le_zpow_right₀ (by norm_num) ?_)
  rw [ulpExponent_of_pos hv]
  push_cast
  omega

theorem le_scaled {v : ℚ} (hv : 0 < v) (hnormal : ulpExponent v ≠ -1074) :
    2 ^ 52 ≤ v / 2 ^ ulpExponent v := by
  rw [le_div_iff₀ (two_zpow_pos _), ← zpow_natCast, ← zpow_add₀ (by norm_num)]
  refine le_trans (zpow_le_zpow_right₀ (by norm_num) ?_) (zpow_log_le hv)
  rw [ulpExponent_of_pos hv] at hnormal ⊢
  push_cast
  omega

theorem nearestEven_scaled_le {v : ℚ} (hv : 0 < v) :
    nearestEven (v / 2 ^ ulpExponent v) ≤ 2 ^ 53 := by
  have hnearest := abs_le.1 (abs_sub_nearestEven_le (v / 2 ^ ulpExponent v))
  have hscaled := scaled_lt hv
  have hlt : (nearestEven (v / 2 ^ ulpExponent v) : ℚ) < 2 ^ 53 + 1 := by linarith
  norm_cast at hlt
  omega

/-- Only a subnormal number has a significand that is not full after rounding. -/
theorem ulpExponent_of_nearestEven_lt {v : ℚ} (hv : 0 < v)
    (h : nearestEven (v / 2 ^ ulpExponent v) < 2 ^ 52) : ulpExponent v = -1074 := by
  by_contra hne
  have hlower := le_scaled hv hne
  have hnearest := abs_le.1 (abs_sub_nearestEven_le (v / 2 ^ ulpExponent v))
  have hstep : (nearestEven (v / 2 ^ ulpExponent v) : ℚ) + 1 ≤ 2 ^ 52 := by exact_mod_cast h
  linarith

/-- The shift that comes before rounding. -/
theorem shiftToTargetExponent_of_describes {m : ℕ} {acc : Accuracy} {r : ℚ} {e : ℤ}
    (h : Describes (.ofMantissaAndAccuracy m acc) r) (hr : 0 < r)
    (he : e ≤ ulpExponent (r * 2 ^ e)) :
    ∃ em, Describes em (r * 2 ^ e / 2 ^ ulpExponent (r * 2 ^ e)) ∧
      shiftToTargetExponent Format.binary64 m e acc = (em, ulpExponent (r * 2 ^ e)) := by
  have hmantissa : (ExtendedMantissa.ofMantissaAndAccuracy m acc).mantissa = m := by
    cases acc with
    | exact => rfl
    | inexact position => cases position <;> rfl
  have htarget := targetExponent_eq_ulpExponent h hr he
  rw [hmantissa] at htarget
  have hshift := h.shiftRight (ulpExponent (r * 2 ^ e) - e).toNat
  have hscale : r / 2 ^ (ulpExponent (r * 2 ^ e) - e).toNat =
      r * 2 ^ e / 2 ^ ulpExponent (r * 2 ^ e) := by
    rw [← zpow_natCast, Int.toNat_of_nonneg (by omega), zpow_sub₀ (by norm_num), div_div_eq_mul_div]
  rw [hscale] at hshift
  refine ⟨_, hshift, ?_⟩
  unfold shiftToTargetExponent shiftToExponent
  rw [htarget]
  simp only [Prod.mk.injEq, true_and]
  omega

/-- Rounding can carry into one more bit, which the second shift takes back. -/
theorem shiftToTargetExponent_of_rounded {k : ℕ} {e : ℤ} (hk : k ≤ 2 ^ 53) (he : -1074 ≤ e)
    (hnormal : k < 2 ^ 52 → e = -1074) :
    ∃ m f, Canonical m f ∧ (m : ℚ) * 2 ^ f = k * 2 ^ e ∧
      shiftToTargetExponent Format.binary64 k e .exact = (⟨m, false, false⟩, f) := by
  by_cases hcarry : k = 2 ^ 53
  · subst hcarry
    refine ⟨2 ^ 52, e + 1, ⟨by norm_num, by omega, by simp⟩, ?_, ?_⟩
    · rw [zpow_add₀ (by norm_num)]
      push_cast
      ring
    · have htarget : Format.binary64.targetExponent (totalExponent (2 ^ 53) e) = e + 1 := by
        rw [targetExponent_binary64, totalExponent, Nat.log2_two_pow]
        omega
      unfold shiftToTargetExponent shiftToExponent
      have hone : (e + 1 - e).toNat = 1 := by omega
      simp only [htarget, hone]
      rfl
  · have hlt : k < 2 ^ 53 := by omega
    refine ⟨k, e, ⟨hlt, he, hnormal⟩, rfl, ?_⟩
    have hlog : k.log2 ≤ 52 := by
      by_cases hzero : k = 0
      · simp [hzero]
      · have := (Nat.log2_lt hzero).2 hlt
        omega
    have hzero : (Format.binary64.targetExponent (totalExponent k e) - e).toNat = 0 := by
      rw [targetExponent_binary64, totalExponent]
      omega
    unfold shiftToTargetExponent shiftToExponent
    simp only [hzero, Prod.mk.injEq]
    exact ⟨rfl, by omega⟩

/-- What rounding makes of a description: the rounded number, with the sign that it was given. -/
theorem roundWithAccuracy_of_describes (s : Sign) {m : ℕ} {acc : Accuracy} {r : ℚ} {e : ℤ}
    (h : Describes (.ofMantissaAndAccuracy m acc) r) (hr : 0 < r)
    (he : e ≤ ulpExponent (r * 2 ^ e)) :
    (roundWithAccuracy Format.binary64 s m e acc = .zero s ∧ rounded (r * 2 ^ e) = 0) ∨
      ∃ k f hk, roundWithAccuracy Format.binary64 s m e acc = .finite s k f hk ∧
        Canonical k f ∧ (k : ℚ) * 2 ^ f = rounded (r * 2 ^ e) := by
  have hpos : 0 < r * 2 ^ e := mul_pos hr (two_zpow_pos e)
  obtain ⟨em, hem, hfirst⟩ := shiftToTargetExponent_of_describes h hr he
  have hnearest := hem.nearestEven_eq
  have hvalue : (em.roundedMantissa : ℚ) * 2 ^ ulpExponent (r * 2 ^ e) = rounded (r * 2 ^ e) := by
    unfold rounded
    rw [hnearest, Int.cast_natCast]
  have hle : em.roundedMantissa ≤ 2 ^ 53 := by
    have hbound := nearestEven_scaled_le hpos
    rw [hnearest] at hbound
    exact_mod_cast hbound
  have hnormal : em.roundedMantissa < 2 ^ 52 → ulpExponent (r * 2 ^ e) = -1074 := by
    intro hlt
    apply ulpExponent_of_nearestEven_lt hpos
    rw [hnearest]
    exact_mod_cast hlt
  obtain ⟨k, f, hcanonical, hsame, hsecond⟩ :=
    shiftToTargetExponent_of_rounded hle (le_ulpExponent _) hnormal
  unfold roundWithAccuracy
  rw [hfirst]
  dsimp only
  rw [hsecond]
  by_cases hk : k = 0
  · left
    refine ⟨by rw [dif_pos hk], ?_⟩
    rw [← hvalue, ← hsame, hk]
    simp
  · right
    exact ⟨k, f, Nat.pos_of_ne_zero hk, by rw [dif_neg hk], hcanonical, hsame.trans hvalue⟩

/-! ## Values -/

def signed (s : Sign) (v : ℚ) : ℚ :=
  match s with
  | .negative => -v
  | .positive => v

theorem rounded_signed (s : Sign) (v : ℚ) : rounded (signed s v) = signed s (rounded v) := by
  cases s with
  | negative => exact rounded_neg v
  | positive => rfl

theorem signed_mul_signed (s t : Sign) (v w : ℚ) :
    signed s v * signed t w = signed (s * t) (v * w) := by
  cases s <;> cases t
  · exact neg_mul_neg v w
  · exact neg_mul v w
  · exact mul_neg v w
  · rfl

theorem signed_div_signed (s t : Sign) (v w : ℚ) :
    signed s v / signed t w = signed (s / t) (v / w) := by
  cases s <;> cases t
  · exact neg_div_neg_eq v w
  · exact neg_div w v
  · exact div_neg v
  · rfl

theorem neg_signed (s : Sign) (v : ℚ) : -signed s v = signed (-s) v := by
  cases s with
  | negative => exact neg_neg v
  | positive => rfl

/-- A canonical number stands for a rational one. Infinities and NaNs do not. -/
inductive Stands : UnpackedFloat → ℚ → Prop where
  | zero (s : Sign) : Stands (.zero s) 0
  | finite (s : Sign) {m : ℕ} {e : ℤ} (hm : 0 < m) (h : Canonical m e) :
    Stands (.finite s m e hm) (signed s (m * 2 ^ e))

theorem Stands.eq_zero {u : UnpackedFloat} {v : ℚ} (h : Stands u v) (hv : v = 0) :
    ∃ s, u = .zero s := by
  cases h with
  | zero s => exact ⟨s, rfl⟩
  | @finite s m e hm h =>
    have hne : (m : ℚ) * 2 ^ e ≠ 0 := (mul_pos (Nat.cast_pos.2 hm) (two_zpow_pos e)).ne'
    cases s with
    | negative => exact absurd (neg_eq_zero.1 hv) hne
    | positive => exact absurd hv hne

theorem Stands.round (s : Sign) {m : ℕ} {acc : Accuracy} {r : ℚ} {e : ℤ}
    (h : Describes (.ofMantissaAndAccuracy m acc) r) (hr : 0 < r)
    (he : e ≤ ulpExponent (r * 2 ^ e)) :
    Stands (roundWithAccuracy Format.binary64 s m e acc) (rounded (signed s (r * 2 ^ e))) := by
  rw [rounded_signed]
  rcases roundWithAccuracy_of_describes s h hr he with
    ⟨hresult, hzero⟩ | ⟨k, f, hk, hresult, hcanonical, hvalue⟩
  · rw [hresult, hzero]
    have hsigned : signed s 0 = 0 := by cases s <;> simp [signed]
    rw [hsigned]
    exact .zero s
  · rw [hresult, ← hvalue]
    exact .finite s hk hcanonical

theorem Stands.rounded_eq {u : UnpackedFloat} {v : ℚ} (h : Stands u v) : rounded v = v := by
  cases h with
  | zero s => exact rounded_zero
  | @finite s m e hm h =>
    have hgrid := rounded_of_grid (n := m) (e := e)
      (by rw [Nat.abs_cast]; exact_mod_cast h.mantissa_lt) h.exponent_ge
    rw [Int.cast_natCast] at hgrid
    rw [rounded_signed, hgrid]

theorem Stands.neg {u : UnpackedFloat} {v : ℚ} (h : Stands u v) : Stands u.neg (-v) := by
  cases h with
  | zero s =>
    rw [neg_zero]
    exact .zero (-s)
  | finite s hm h =>
    rw [neg_signed]
    exact .finite (-s) hm h

/-! ## Multiplication -/

theorem le_mul_mantissas {m k : ℕ} {e f : ℤ} (hm : 0 < m) (hk : 0 < k) (h : Canonical m e)
    (g : Canonical k f) (hexp : -1074 < e + f) : 2 ^ 52 ≤ m * k := by
  have hlarge : 2 ^ 52 ≤ m ∨ 2 ^ 52 ≤ k := by
    by_contra hsmall
    rw [not_or, not_le, not_le] at hsmall
    have he := h.normal hsmall.1
    have hf := g.normal hsmall.2
    omega
  rcases hlarge with hlarge | hlarge
  · exact hlarge.trans (Nat.le_mul_of_pos_right m hk)
  · exact hlarge.trans (Nat.le_mul_of_pos_left k hm)

/-- The product of significands has no bits below the last place of the result. -/
theorem le_ulpExponent_mul {m k : ℕ} {e f : ℤ} (hm : 0 < m) (hk : 0 < k) (h : Canonical m e)
    (g : Canonical k f) : e + f ≤ ulpExponent ((m * k : ℕ) * 2 ^ (e + f)) := by
  have hproduct : (0 : ℚ) < (m * k : ℕ) * 2 ^ (e + f) :=
    mul_pos (Nat.cast_pos.2 (Nat.mul_pos hm hk)) (two_zpow_pos _)
  rw [ulpExponent_of_pos hproduct]
  by_cases hexp : e + f ≤ -1074
  · exact hexp.trans (le_max_right _ _)
  · have hlarge : (2 : ℚ) ^ (52 : ℤ) ≤ (m * k : ℕ) := by
      exact_mod_cast le_mul_mantissas hm hk h g (by omega)
    have hlog : 52 + (e + f) ≤ Int.log 2 (((m * k : ℕ) : ℚ) * 2 ^ (e + f)) := by
      rw [← Int.zpow_le_iff_le_log (by norm_num) hproduct, Nat.cast_ofNat,
        zpow_add₀ (by norm_num)]
      exact mul_le_mul_of_nonneg_right hlarge (two_zpow_pos _).le
    refine le_trans ?_ (le_max_left _ _)
    omega

theorem Stands.mul {u w : UnpackedFloat} {v x : ℚ} (hu : Stands u v) (hw : Stands w x) :
    Stands (UnpackedFloat.mul Format.binary64 u w) (rounded (v * x)) := by
  cases hu with
  | zero s =>
    rw [zero_mul, rounded_zero]
    cases hw with
    | zero t => exact .zero _
    | finite t hk g => exact .zero _
  | @finite s m e hm h =>
    cases hw with
    | zero t =>
      rw [mul_zero, rounded_zero]
      exact .zero _
    | @finite t k f hk g =>
      have hproduct : (m : ℚ) * 2 ^ e * (k * 2 ^ f) = (m * k : ℕ) * 2 ^ (e + f) := by
        rw [zpow_add₀ (by norm_num)]
        push_cast
        ring
      have hpos : (0 : ℚ) < (m * k : ℕ) := by exact_mod_cast Nat.mul_pos hm hk
      rw [signed_mul_signed, hproduct]
      exact Stands.round (s * t) (describes_exact (m * k)) hpos (le_ulpExponent_mul hm hk h g)

/-! ## Division -/

theorem log_quotient_ge {m k : ℕ} (hm : 0 < m) (hk : 0 < k) (e f : ℤ) :
    (m.log2 + e) - (k.log2 + f) - 1 ≤ Int.log 2 ((m : ℚ) * 2 ^ e / (k * 2 ^ f)) := by
  have hm' : (0 : ℚ) < m := by exact_mod_cast hm
  have hk' : (0 : ℚ) < k := by exact_mod_cast hk
  have hdividend : 0 < (m : ℚ) * 2 ^ e := mul_pos hm' (two_zpow_pos e)
  have hdivisor : 0 < (k : ℚ) * 2 ^ f := mul_pos hk' (two_zpow_pos f)
  have hlower : (2 : ℚ) ^ (m.log2 + e) ≤ m * 2 ^ e := by
    rw [zpow_add₀ (by norm_num), zpow_natCast]
    refine mul_le_mul_of_nonneg_right ?_ (two_zpow_pos e).le
    exact_mod_cast Nat.log2_self_le hm.ne'
  have hupper : (k : ℚ) * 2 ^ f ≤ 2 ^ (k.log2 + 1 + f) := by
    rw [zpow_add₀ (by norm_num)]
    refine mul_le_mul_of_nonneg_right ?_ (two_zpow_pos f).le
    exact_mod_cast (Nat.lt_log2_self (n := k)).le
  rw [← Int.zpow_le_iff_le_log (by norm_num) (div_pos hdividend hdivisor), Nat.cast_ofNat,
    le_div_iff₀ hdivisor]
  calc (2 : ℚ) ^ ((m.log2 + e) - (k.log2 + f) - 1) * (k * 2 ^ f)
      ≤ 2 ^ ((m.log2 + e) - (k.log2 + f) - 1) * 2 ^ (k.log2 + 1 + f) :=
        mul_le_mul_of_nonneg_left hupper (two_zpow_pos _).le
    _ = 2 ^ (m.log2 + e) := by
        rw [← zpow_add₀ (by norm_num)]
        congr 1
        ring
    _ ≤ m * 2 ^ e := hlower

/-- The dividend is shifted to the left until the quotient of integers has enough bits. -/
theorem quotient_eq {m k : ℕ} {e f target : ℤ} (htarget : target ≤ e - f) :
    (m : ℚ) * 2 ^ e / (k * 2 ^ f) =
      ((m <<< (e - f - target).toNat : ℕ) : ℚ) / k * 2 ^ target := by
  have hdividend : ((m <<< (e - f - target).toNat : ℕ) : ℚ) = m * 2 ^ (e - f - target) := by
    rw [Nat.shiftLeft_eq]
    push_cast
    rw [← zpow_natCast, Int.toNat_of_nonneg (by omega)]
  have hf := (two_zpow_pos f).ne'
  have ht := (two_zpow_pos target).ne'
  rw [hdividend, zpow_sub₀ (by norm_num), zpow_sub₀ (by norm_num)]
  field_simp

theorem Stands.div {u w : UnpackedFloat} {v x : ℚ} (hu : Stands u v) (hw : Stands w x)
    (hx : x ≠ 0) : Stands (UnpackedFloat.div Format.binary64 u w) (rounded (v / x)) := by
  cases hw with
  | zero t => exact absurd rfl hx
  | @finite t k f hk g =>
    cases hu with
    | zero s =>
      rw [zero_div, rounded_zero]
      exact .zero _
    | @finite s m e hm h =>
      let total := totalExponent m e - totalExponent k f
      let target := min (e - f) (Format.binary64.targetExponent total)
      let dividend := m <<< (e - f - target).toNat
      have hcore : UnpackedFloat.div Format.binary64 (.finite s m e hm) (.finite t k f hk) =
          roundWithAccuracy Format.binary64 (s / t) (dividend / k) target
            (accuracyOfFraction (dividend % k) k) := rfl
      have hk' : (0 : ℚ) < k := by exact_mod_cast hk
      have hquotient : (m : ℚ) * 2 ^ e / (k * 2 ^ f) = (dividend : ℚ) / k * 2 ^ target :=
        quotient_eq (min_le_left _ _)
      have hpos : (0 : ℚ) < dividend / k := by
        refine div_pos ?_ hk'
        exact_mod_cast Nat.shiftLeft_pos_iff.2 hm
      rw [hcore, signed_div_signed, hquotient]
      apply Stands.round (s / t) (describes_quotient dividend hk) hpos
      rw [ulpExponent_of_pos (mul_pos hpos (two_zpow_pos _)), ← hquotient]
      have hlog := log_quotient_ge hm hk e f
      have htarget : target ≤ max (total - 53) (-1074) := by
        rw [← targetExponent_binary64]
        exact min_le_right _ _
      have htotal : total = (m.log2 + 1 + e) - (k.log2 + 1 + f) := rfl
      omega

/-! ## Conversion -/

theorem ulpExponent_natCast_mul {n : ℕ} (hn : 0 < n) (e : ℤ) :
    ulpExponent (n * 2 ^ e) = max (n.log2 + e - 52) (-1074) := by
  have hlower : (2 : ℚ) ^ (n.log2 : ℤ) ≤ n := by
    rw [zpow_natCast]
    exact_mod_cast Nat.log2_self_le hn.ne'
  have hupper : (n : ℚ) < 2 ^ ((n.log2 : ℤ) + 1) := by
    exact_mod_cast Nat.lt_log2_self (n := n)
  rw [ulpExponent_of_pos (mul_pos (Nat.cast_pos.2 hn) (two_zpow_pos e)), log_eq_of_mem]
  · rw [zpow_add₀ (by norm_num)]
    exact mul_le_mul_of_nonneg_right hlower (two_zpow_pos e).le
  · rw [add_right_comm, zpow_add₀ (by norm_num)]
    exact mul_lt_mul_of_pos_right hupper (two_zpow_pos e)

theorem ulpExponent_natCast {n : ℕ} (hn : 0 < n) :
    ulpExponent n = max ((n.log2 : ℤ) - 52) (-1074) := by
  simpa using ulpExponent_natCast_mul hn 0

theorem stands_round (s : Sign) {n : ℕ} (hn : 0 < n) (e : ℤ) :
    Stands (UnpackedFloat.round Format.binary64 s n e) (rounded (signed s (n * 2 ^ e))) := by
  let shift := (e - Format.binary64.targetExponent (totalExponent n e)).toNat
  have hround : UnpackedFloat.round Format.binary64 s n e =
      roundWithAccuracy Format.binary64 s (n <<< shift) (e - shift) .exact := rfl
  have hvalue : ((n <<< shift : ℕ) : ℚ) * 2 ^ (e - shift : ℤ) = n * 2 ^ e := by
    rw [Nat.shiftLeft_eq, zpow_sub₀ (by norm_num), zpow_natCast]
    push_cast
    field_simp
  have hpos : (0 : ℚ) < (n <<< shift : ℕ) := by
    exact_mod_cast Nat.shiftLeft_pos_iff.2 hn
  rw [hround, ← hvalue]
  apply Stands.round s (describes_exact _) hpos
  rw [hvalue, ulpExponent_natCast_mul hn]
  have htarget : Format.binary64.targetExponent (totalExponent n e) =
      max ((n.log2 : ℤ) + 1 + e - 53) (-1074) := targetExponent_binary64 _
  omega

/-- The magnitude of an integer is shifted and rounded, and the sign goes with it. -/
theorem stands_normalize (n e : ℤ) :
    Stands (UnpackedFloat.normalize Format.binary64 n e .positive) (rounded (n * 2 ^ e)) := by
  unfold UnpackedFloat.normalize
  rcases lt_trichotomy n 0 with hlt | rfl | hgt
  · rw [Int.compare_eq_lt.2 hlt]
    have hcast : (n : ℚ) * 2 ^ e = signed .negative (((-n).toNat : ℚ) * 2 ^ e) := by
      have habs : ((-n).toNat : ℤ) = -n := Int.toNat_of_nonneg (by omega)
      have habs' : ((-n).toNat : ℚ) = -n := by exact_mod_cast habs
      rw [habs', signed, neg_mul, neg_neg]
    rw [hcast]
    exact stands_round .negative (by omega) e
  · rw [Int.cast_zero, zero_mul, rounded_zero]
    exact .zero .positive
  · rw [Int.compare_eq_gt.2 hgt]
    have hcast : (n : ℚ) * 2 ^ e = signed .positive ((n.toNat : ℚ) * 2 ^ e) := by
      have habs : (n.toNat : ℤ) = n := Int.toNat_of_nonneg (by omega)
      have habs' : (n.toNat : ℚ) = n := by exact_mod_cast habs
      rw [habs', signed]
    rw [hcast]
    exact stands_round .positive (by omega) e

theorem stands_ofInt (n : ℤ) : Stands (UnpackedFloat.ofInt Format.binary64 n) (rounded n) := by
  have h := stands_normalize n 0
  rwa [zpow_zero, mul_one] at h

/-! ## Addition -/

/-- A significand is shifted to a lower exponent without a loss. -/
theorem apply_decreaseExponent (s : Sign) (m : ℕ) {e target : ℤ} (h : target ≤ e) :
    (s.apply (decreaseExponent m e target).1 : ℚ) * 2 ^ target = signed s (m * 2 ^ e) := by
  have hshift : ((decreaseExponent m e target).1 : ℚ) * 2 ^ target = m * 2 ^ e := by
    change ((m <<< (e - target).toNat : ℕ) : ℚ) * 2 ^ target = m * 2 ^ e
    rw [Nat.shiftLeft_eq]
    push_cast
    rw [mul_assoc, ← zpow_natCast, Int.toNat_of_nonneg (by omega), ← zpow_add₀ (by norm_num),
      sub_add_cancel]
  cases s with
  | negative =>
    rw [signed, ← hshift, Sign.apply]
    push_cast
    ring
  | positive =>
    rw [signed, ← hshift, Sign.apply]
    push_cast
    ring

theorem Stands.add {u w : UnpackedFloat} {v x : ℚ} (hu : Stands u v) (hw : Stands w x) :
    Stands (UnpackedFloat.add Format.binary64 u w) (rounded (v + x)) := by
  cases hu with
  | zero s =>
    cases hw with
    | zero t =>
      rw [add_zero, rounded_zero]
      cases s <;> cases t <;> exact .zero _
    | finite t hk g =>
      have hw := Stands.finite t hk g
      rw [zero_add, hw.rounded_eq]
      exact hw
  | @finite s m e hm h =>
    have hu := Stands.finite s hm h
    cases hw with
    | zero t =>
      rw [add_zero, hu.rounded_eq]
      exact hu
    | @finite t k f hk g =>
      have hsum : signed s (m * 2 ^ e) + signed t (k * 2 ^ f) =
          ((s.apply (decreaseExponent m e (min e f)).1 +
            t.apply (decreaseExponent k f (min e f)).1 : ℤ) : ℚ) * 2 ^ min e f := by
        rw [Int.cast_add, add_mul, apply_decreaseExponent s m (min_le_left e f),
          apply_decreaseExponent t k (min_le_right e f)]
      rw [hsum]
      exact stands_normalize _ _

theorem Stands.sub {u w : UnpackedFloat} {v x : ℚ} (hu : Stands u v) (hw : Stands w x) :
    Stands (UnpackedFloat.sub Format.binary64 u w) (rounded (v - x)) := by
  cases hu with
  | zero s =>
    cases hw with
    | zero t =>
      rw [sub_zero, rounded_zero]
      cases s <;> cases t <;> exact .zero _
    | finite t hk g =>
      have hw := (Stands.finite t hk g).neg
      rw [zero_sub, hw.rounded_eq]
      exact hw
  | @finite s m e hm h =>
    have hu := Stands.finite s hm h
    cases hw with
    | zero t =>
      rw [sub_zero, hu.rounded_eq]
      exact hu
    | @finite t k f hk g =>
      have hdifference : signed s (m * 2 ^ e) - signed t (k * 2 ^ f) =
          ((s.apply (decreaseExponent m e (min e f)).1 -
            t.apply (decreaseExponent k f (min e f)).1 : ℤ) : ℚ) * 2 ^ min e f := by
        rw [Int.cast_sub, sub_mul, apply_decreaseExponent s m (min_le_left e f),
          apply_decreaseExponent t k (min_le_right e f)]
      rw [hdifference]
      exact stands_normalize _ _

end CableCapture.Binary64
