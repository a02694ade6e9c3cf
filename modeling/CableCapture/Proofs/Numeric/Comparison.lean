import CableCapture.Proofs.Numeric.Bits

/-!
# Comparing numbers

Floats compare as what they denote. On canonical numbers of one sign the exponents decide, and the
significands only where the exponents are equal.
-/

namespace CableCapture.Binary64

open Float.Model Float.Model.UnpackedFloat

variable {m k : ℕ} {e f : ℤ}

/-- A canonical number with the greater exponent has a full significand. -/
theorem lt_of_exponent_lt (h : Canonical m e) (g : Canonical k f) (hlt : e < f) :
    (m : ℚ) * 2 ^ e < k * 2 ^ f := by
  have hfull : 2 ^ 52 ≤ k := by
    by_contra hsmall
    have hlowest := g.normal (not_le.1 hsmall)
    have hge := h.exponent_ge
    omega
  have hm : (m : ℚ) < 2 ^ 53 := by exact_mod_cast h.mantissa_lt
  have hk : (2 : ℚ) ^ 52 ≤ k := by exact_mod_cast hfull
  calc (m : ℚ) * 2 ^ e
      < 2 ^ 53 * 2 ^ e := mul_lt_mul_of_pos_right hm (two_zpow_pos e)
    _ = 2 ^ 52 * 2 ^ (e + 1) := by rw [zpow_add_one₀ (by norm_num)]; ring
    _ ≤ 2 ^ 52 * 2 ^ f :=
      mul_le_mul_of_nonneg_left (zpow_le_zpow_right₀ (by norm_num) (by omega)) (by norm_num)
    _ ≤ k * 2 ^ f := mul_le_mul_of_nonneg_right hk (two_zpow_pos f).le

theorem compares_canonical (h : Canonical m e) (g : Canonical k f) :
    ((compare e f).then (compare m k)).Compares ((m : ℚ) * 2 ^ e) (k * 2 ^ f) := by
  rcases lt_trichotomy e f with hlt | rfl | hgt
  · rw [compare_lt_iff_lt.2 hlt]
    exact lt_of_exponent_lt h g hlt
  · rw [compare_eq_iff_eq.2 rfl]
    change (compare m k).Compares ((m : ℚ) * 2 ^ e) (k * 2 ^ e)
    rcases lt_trichotomy m k with hlt | rfl | hgt
    · rw [compare_lt_iff_lt.2 hlt]
      exact mul_lt_mul_of_pos_right (Nat.cast_lt.2 hlt) (two_zpow_pos e)
    · rw [compare_eq_iff_eq.2 rfl]
      rfl
    · rw [compare_gt_iff_gt.2 hgt]
      exact mul_lt_mul_of_pos_right (Nat.cast_lt.2 hgt) (two_zpow_pos e)
  · rw [compare_gt_iff_gt.2 hgt]
    exact lt_of_exponent_lt g h hgt

theorem compares_neg {o : Ordering} {v w : ℚ} (h : o.Compares v w) : o.swap.Compares (-v) (-w) := by
  cases o with
  | lt => exact neg_lt_neg h
  | eq => exact congrArg Neg.neg h
  | gt => exact neg_lt_neg h

theorem Stands.compares {u w : UnpackedFloat} {v x : ℚ} (hu : Stands u v) (hw : Stands w x) :
    ∃ o : Ordering, u.compare w = some o ∧ o.Compares v x := by
  have hpos {m : ℕ} {e : ℤ} (hm : 0 < m) : (0 : ℚ) < m * 2 ^ e :=
    mul_pos (Nat.cast_pos.2 hm) (two_zpow_pos e)
  cases hu with
  | zero s =>
    cases hw with
    | zero t => exact ⟨.eq, by cases s <;> cases t <;> rfl, rfl⟩
    | finite t hk g =>
      cases t with
      | negative => exact ⟨.gt, rfl, neg_lt_zero.2 (hpos hk)⟩
      | positive => exact ⟨.lt, rfl, hpos hk⟩
  | finite s hm h =>
    cases hw with
    | zero t =>
      cases s with
      | negative => exact ⟨.lt, rfl, neg_lt_zero.2 (hpos hm)⟩
      | positive => exact ⟨.gt, rfl, hpos hm⟩
    | finite t hk g =>
      have hsame := compares_canonical h g
      cases s <;> cases t
      case negative.negative => exact ⟨_, rfl, compares_neg hsame⟩
      case negative.positive => exact ⟨.lt, rfl, (neg_lt_zero.2 (hpos hm)).trans (hpos hk)⟩
      case positive.negative => exact ⟨.gt, rfl, (neg_lt_zero.2 (hpos hk)).trans (hpos hm)⟩
      case positive.positive => exact ⟨_, rfl, hsame⟩

/-- Zero alone is written in two ways. -/
theorem Stands.eq_of_ne_zero {u w : UnpackedFloat} {v : ℚ} (hu : Stands u v) (hw : Stands w v)
    (hv : v ≠ 0) : u = w := by
  have hpos {m : ℕ} {e : ℤ} (hm : 0 < m) : (0 : ℚ) < m * 2 ^ e :=
    mul_pos (Nat.cast_pos.2 hm) (two_zpow_pos e)
  cases hu with
  | zero s => exact absurd rfl hv
  | @finite s m e hm h =>
    generalize hsame : signed s (m * 2 ^ e) = v at hw hv
    cases hw with
    | zero t => exact absurd rfl hv
    | @finite t k f hk g =>
      have hmagnitude : (m : ℚ) * 2 ^ e = k * 2 ^ f := by
        rw [← abs_signed s (hpos hm).le, hsame, abs_signed t (hpos hk).le]
      have hsign : s = t := by
        have := hpos (e := e) hm
        cases s <;> cases t <;> simp only [signed] at hsame <;> first | rfl | linarith
      have hboth := Ordering.then_eq_eq.1 ((compares_canonical h g).eq_eq.2 hmagnitude)
      obtain rfl := compare_eq_iff_eq.1 hboth.1
      obtain rfl := compare_eq_iff_eq.1 hboth.2
      rw [hsign]

theorem lt_iff_compare {x y : Float} :
    x < y ↔ x.toModel.unpack.compare y.toModel.unpack = some .lt := by
  have hlt : x < y ↔ (x.toModel.unpack.compare y.toModel.unpack == some .lt) = true :=
    decide_eq_true_iff
  rw [hlt, beq_iff_eq]

theorem Denotes.lt_iff {x y : Float} {v w : ℚ} (hx : Denotes x v) (hy : Denotes y w) :
    x < y ↔ v < w := by
  obtain ⟨o, hcompare, ho⟩ := Stands.compares hx hy
  rw [lt_iff_compare, hcompare, Option.some_inj]
  exact ho.eq_lt

theorem Denotes.le_iff {x y : Float} {v w : ℚ} (hx : Denotes x v) (hy : Denotes y w) :
    x ≤ y ↔ v ≤ w := by
  obtain ⟨o, hcompare, ho⟩ := Stands.compares hx hy
  have hle : x ≤ y ↔ (x.toModel.unpack.compare y.toModel.unpack).any Ordering.isLE = true :=
    decide_eq_true_iff
  rw [hle, hcompare]
  cases o with
  | lt => exact iff_of_true rfl (le_of_lt ho)
  | eq => exact iff_of_true rfl (le_of_eq ho)
  | gt => exact iff_of_false (by decide) (not_le_of_gt ho)

theorem Denotes.beq_iff {x y : Float} {v w : ℚ} (hx : Denotes x v) (hy : Denotes y w) :
    (x == y) = true ↔ v = w := by
  obtain ⟨o, hcompare, ho⟩ := Stands.compares hx hy
  have hbeq : (x == y) = (x.toModel.unpack.compare y.toModel.unpack == some .eq) := rfl
  rw [hbeq, hcompare, beq_iff_eq, Option.some_inj]
  exact ho.eq_eq

theorem Denotes.unique {x : Float} {v w : ℚ} (hx : Denotes x v) (hw : Denotes x w) : v = w :=
  (hx.beq_iff hw).1 ((hx.beq_iff hx).2 rfl)

end CableCapture.Binary64
