import CableCapture.Numeric.SignedNumber
import CableCapture.Proofs.Numeric.Comparison

/-!
# The order of bit patterns

The bit pattern of a number without a sign, read as an integer, counts the binary places above the
least number and then the significand. So the order of bit patterns is that of the numbers, as long
as none of them has a sign.
-/

namespace CableCapture.Binary64

variable {x y : Float} {v w : ℚ}

theorem toNat_of_nonnegative {bits : UInt64} (h : isNegative bits = false) :
    (bits.toNat : ℤ) = (exponent bits + 1074) * 2 ^ 52 + significand bits := by
  have hbits : bits.toNat < 2 ^ 63 := by simpa [isNegative] using h
  unfold exponent significand exponentField fractionField
  split <;> omega

theorem orderKey_ofFloat (h : isNegative x.toBits = false) :
    (SignedNumber.ofFloat x).orderKey =
      (exponent x.toBits + 1074) * 2 ^ 52 + significand x.toBits := by
  have hbits : x.toBits.toNat < 2 ^ 63 := by simpa [isNegative] using h
  unfold SignedNumber.orderKey SignedNumber.ofFloat
  simp only [h, Bool.false_eq_true, if_false]
  rw [Nat.mod_eq_of_lt hbits, toNat_of_nonnegative h]

theorem Denotes.isNegative_of_pos (hx : Denotes x v) (hv : 0 < v) :
    isNegative x.toBits = false := by
  by_contra hnegative
  have hsign : signOf x.toBits = .negative := if_pos (Bool.not_eq_false _ ▸ hnegative)
  have hvalue := hx.value_eq
  have hmagnitude : (0 : ℚ) ≤ significand x.toBits * 2 ^ exponent x.toBits :=
    mul_nonneg (Nat.cast_nonneg _) (two_zpow_pos _).le
  rw [value, hsign, signed] at hvalue
  linarith

/-- A number with the greater exponent has a full significand, which outweighs the other one. -/
theorem place_lt {m k : ℕ} {e f : ℤ} (h : Canonical m e) (g : Canonical k f) (hlt : e < f) :
    (e + 1074) * 2 ^ 52 + m < (f + 1074) * 2 ^ 52 + k := by
  have hm := h.mantissa_lt
  have he := h.exponent_ge
  have hk := g.normal
  omega

section Nonnegative

variable (hx : Denotes x v) (hy : Denotes y w) (hsx : isNegative x.toBits = false)
  (hsy : isNegative y.toBits = false)
include hx hy hsx hsy

theorem Denotes.orderKey_lt_iff :
    (SignedNumber.ofFloat x).orderKey < (SignedNumber.ofFloat y).orderKey ↔ v < w := by
  have hpositive {z : Float} (h : isNegative z.toBits = false) :
      value z = significand z.toBits * 2 ^ exponent z.toBits := by
    rw [value, signOf, h]
    rfl
  rw [orderKey_ofFloat hsx, orderKey_ofFloat hsy, ← hx.value_eq, ← hy.value_eq, hpositive hsx,
    hpositive hsy]
  have h := canonical_fields x.toBits
  have g := canonical_fields y.toBits
  generalize exponent x.toBits = e at h ⊢
  generalize exponent y.toBits = f at g ⊢
  rcases lt_trichotomy e f with hlt | rfl | hgt
  · exact iff_of_true (place_lt h g hlt) (lt_of_exponent_lt h g hlt)
  · rw [mul_lt_mul_iff_of_pos_right (two_zpow_pos e), Nat.cast_lt]
    omega
  · exact iff_of_false (place_lt g h hgt).not_gt (lt_of_exponent_lt g h hgt).not_gt

theorem Denotes.orderKey_le_iff :
    (SignedNumber.ofFloat x).orderKey ≤ (SignedNumber.ofFloat y).orderKey ↔ v ≤ w := by
  rw [← not_lt, ← not_lt, hy.orderKey_lt_iff hx hsy hsx]

end Nonnegative

end CableCapture.Binary64
