import CableCapture.Proofs.Numeric.Rounding

/-!
# Mantissas with residual bits

A mantissa with its round bit and its sticky bit tells of a rational number all that rounding needs.
Shifting keeps that, so the result of an operation is the exact result rounded once.
-/

namespace CableCapture.Binary64

open Float.Model Float.Model.UnpackedFloat

/-! ## Residual bits -/

/-- The mantissa is the integer part of `r`, and the residual bits tell where between the next two
halves `r` lies. -/
structure Describes (em : ExtendedMantissa) (r : ℚ) : Prop where
  lower : (em.mantissa : ℚ) ≤ r
  upper : r < em.mantissa + 1
  round : em.roundBit = true ↔ em.mantissa + 1 / 2 ≤ r
  sticky : em.stickyBit = true ↔ r ≠ em.mantissa ∧ r ≠ em.mantissa + 1 / 2

theorem describes_exact (m : ℕ) : Describes ⟨m, false, false⟩ m where
  lower := le_refl _
  upper := lt_add_one _
  round := by simp
  sticky := by simp

theorem describes_below {m : ℕ} {r : ℚ} (hlower : m < r) (hhalf : r < m + 1 / 2) :
    Describes ⟨m, false, true⟩ r where
  lower := hlower.le
  upper := by
    simp only
    linarith
  round := by simpa using hhalf
  sticky := by
    simp only [true_iff]
    exact ⟨hlower.ne', hhalf.ne⟩

theorem describes_half {m : ℕ} {r : ℚ} (hhalf : r = m + 1 / 2) : Describes ⟨m, true, false⟩ r where
  lower := by
    simp only
    linarith
  upper := by
    simp only
    linarith
  round := by simp [hhalf]
  sticky := by simp [hhalf]

theorem describes_above {m : ℕ} {r : ℚ} (hhalf : m + 1 / 2 < r) (hupper : r < m + 1) :
    Describes ⟨m, true, true⟩ r where
  lower := by
    simp only
    linarith
  upper := hupper
  round := by simpa using hhalf.le
  sticky := by
    have hne : r ≠ m := by
      intro heq
      linarith
    simp only [true_iff]
    exact ⟨hne, hhalf.ne'⟩

theorem Describes.residue {em : ExtendedMantissa} {r : ℚ} (h : Describes em r) :
    (em.roundBit || em.stickyBit) = true ↔ r ≠ em.mantissa := by
  rw [Bool.or_eq_true, h.round, h.sticky]
  constructor
  · rintro (hround | hsticky) heq
    · linarith
    · exact hsticky.1 heq
  · intro hne
    by_cases hround : (em.mantissa : ℚ) + 1 / 2 ≤ r
    · exact .inl hround
    · exact .inr ⟨hne, fun heq => hround heq.ge⟩

/-! ## Shifts -/

theorem Describes.shiftRightOne {em : ExtendedMantissa} {r : ℚ} (h : Describes em r) :
    Describes em.shiftRightOne (r / 2) := by
  have hsplit : (em.mantissa : ℚ) = 2 * (em.mantissa / 2 : ℕ) + (em.mantissa % 2 : ℕ) := by
    exact_mod_cast (Nat.div_add_mod em.mantissa 2).symm
  have hupper := h.upper
  unfold ExtendedMantissa.shiftRightOne
  -- The lost bit says which half `r / 2` is in, the residue whether it is at the start of it.
  by_cases hexact : r = em.mantissa
  · have hresidue : (em.roundBit || em.stickyBit) = false :=
      Bool.eq_false_iff.2 (mt h.residue.1 (not_not.2 hexact))
    rw [hresidue]
    rcases Nat.mod_two_eq_zero_or_one em.mantissa with hparity | hparity
    · rw [hparity, Nat.cast_zero, add_zero] at hsplit
      have hhalf : r / 2 = (em.mantissa / 2 : ℕ) := by linarith
      rw [hparity, hhalf]
      exact describes_exact _
    · rw [hparity, Nat.cast_one] at hsplit
      rw [hparity]
      exact describes_half (by linarith)
  · have hlower : (em.mantissa : ℚ) < r := lt_of_le_of_ne h.lower (Ne.symm hexact)
    rw [h.residue.2 hexact]
    rcases Nat.mod_two_eq_zero_or_one em.mantissa with hparity | hparity
    · rw [hparity, Nat.cast_zero, add_zero] at hsplit
      rw [hparity]
      exact describes_below (by linarith) (by linarith)
    · rw [hparity, Nat.cast_one] at hsplit
      rw [hparity]
      exact describes_above (by linarith) (by linarith)

theorem Describes.shiftRight {em : ExtendedMantissa} {r : ℚ} (h : Describes em r) (k : ℕ) :
    Describes (em >>> k) (r / 2 ^ k) := by
  induction k with
  | zero =>
    rw [pow_zero, div_one]
    exact h
  | succ k ih =>
    have hstep : Describes (em >>> (k + 1)) (r / 2 ^ k / 2) := ih.shiftRightOne
    rwa [div_div, ← pow_succ] at hstep

/-! ## Rounding -/

theorem Describes.isNearestEven {em : ExtendedMantissa} {r : ℚ} (h : Describes em r) :
    IsNearestEven r em.roundedMantissa := by
  obtain ⟨lower, upper, round, sticky⟩ := h
  obtain ⟨m, roundBit, stickyBit⟩ := em
  simp only at lower upper round sticky
  unfold IsNearestEven
  cases roundBit with
  | false =>
    have hbelow : r < m + 1 / 2 := not_le.1 (mt round.2 (by decide))
    have hresult : (⟨m, false, stickyBit⟩ : ExtendedMantissa).roundedMantissa = m := by
      cases stickyBit <;> rfl
    left
    rw [hresult, Int.cast_natCast, abs_of_nonneg (by linarith)]
    linarith
  | true =>
    have habove : (m : ℚ) + 1 / 2 ≤ r := round.1 rfl
    cases stickyBit with
    | false =>
      have hhalf : r = m + 1 / 2 := by
        by_contra hne
        exact absurd (sticky.2 ⟨by intro heq; linarith, hne⟩) (by decide)
      have hresult : (⟨m, true, false⟩ : ExtendedMantissa).roundedMantissa = m + m % 2 := rfl
      right
      rw [hresult, hhalf]
      rcases Nat.mod_two_eq_zero_or_one m with hparity | hparity
      · rw [hparity]
        push_cast
        exact ⟨by rw [abs_of_nonneg (by linarith)]; ring, by omega⟩
      · rw [hparity]
        push_cast
        exact ⟨by rw [abs_of_nonpos (by linarith)]; ring, by omega⟩
    | true =>
      have hne : r ≠ m + 1 / 2 := (sticky.1 rfl).2
      have hlt : (m : ℚ) + 1 / 2 < r := lt_of_le_of_ne habove hne.symm
      have hresult : (⟨m, true, true⟩ : ExtendedMantissa).roundedMantissa = m + 1 := rfl
      left
      rw [hresult]
      push_cast
      rw [abs_of_nonpos (by linarith)]
      linarith

theorem Describes.nearestEven_eq {em : ExtendedMantissa} {r : ℚ} (h : Describes em r) :
    nearestEven r = em.roundedMantissa :=
  nearestEven_eq_iff.2 h.isNearestEven

/-! ## Quotients -/

theorem div_eq_add_fraction (n : ℕ) {d : ℕ} (hd : 0 < d) :
    (n : ℚ) / d = (n / d : ℕ) + ((n % d : ℕ) : ℚ) / d := by
  have hd' : (d : ℚ) ≠ 0 := by exact_mod_cast hd.ne'
  rw [div_eq_iff hd', add_mul, div_mul_cancel₀ _ hd']
  exact_mod_cast (Nat.div_add_mod' n d).symm

/-- The quotient of natural numbers with the accuracy that its remainder gives. -/
theorem describes_quotient (n : ℕ) {d : ℕ} (hd : 0 < d) :
    Describes (.ofMantissaAndAccuracy (n / d) (accuracyOfFraction (n % d) d)) ((n : ℚ) / d) := by
  have hd' : (0 : ℚ) < d := by exact_mod_cast hd
  rw [div_eq_add_fraction n hd]
  unfold accuracyOfFraction
  by_cases hzero : n % d = 0
  · rw [if_pos hzero, hzero, Nat.cast_zero, zero_div, add_zero]
    exact describes_exact _
  · have hpos : 0 < ((n % d : ℕ) : ℚ) / d :=
      div_pos (Nat.cast_pos.2 (Nat.pos_of_ne_zero hzero)) hd'
    have hlt : ((n % d : ℕ) : ℚ) / d < 1 := by
      rw [div_lt_one hd']
      exact_mod_cast Nat.mod_lt n hd
    rw [if_neg hzero]
    rcases lt_trichotomy (2 * (n % d)) d with hhalf | hhalf | hhalf
    · have hcast : (2 : ℚ) * (n % d : ℕ) < d := by exact_mod_cast hhalf
      have hfraction : ((n % d : ℕ) : ℚ) / d < 1 / 2 := by
        rw [div_lt_div_iff₀ hd' (by norm_num)]
        linarith
      rw [Nat.compare_eq_lt.2 hhalf]
      exact describes_below (by linarith) (by linarith)
    · have hcast : (2 : ℚ) * (n % d : ℕ) = d := by exact_mod_cast hhalf
      have hfraction : ((n % d : ℕ) : ℚ) / d = 1 / 2 := by
        rw [div_eq_div_iff hd'.ne' (by norm_num)]
        linarith
      rw [Nat.compare_eq_eq.2 hhalf, hfraction]
      exact describes_half rfl
    · have hcast : (d : ℚ) < 2 * (n % d : ℕ) := by exact_mod_cast hhalf
      have hfraction : 1 / 2 < ((n % d : ℕ) : ℚ) / d := by
        rw [div_lt_div_iff₀ (by norm_num) hd']
        linarith
      rw [Nat.compare_eq_gt.2 hhalf]
      exact describes_above (by linarith) (by linarith)

end CableCapture.Binary64
