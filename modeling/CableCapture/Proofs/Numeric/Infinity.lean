import CableCapture.Proofs.Numeric.Order
import CableCapture.Proofs.Numeric.Powers

/-!
# Beyond the range

A result that is rounded to a number past the end of the range becomes an infinity. From there no
multiplication leads back to a number, so that products of numbers from one on stay above all bounds.
-/

namespace CableCapture.Binary64

open Float.Model Float.Model.UnpackedFloat

variable {x y : Float} {v w : ℚ} {s t : Sign}

/-! ## Infinities -/

def Infinite (x : Float) (s : Sign) : Prop := x.toModel.unpack = .infinity s

theorem unpack_pack_infinity (s : Sign) : (Float.Model.pack (.infinity s)).unpack = .infinity s := by
  cases s <;> rfl

theorem infinite_ofModel (s : Sign) : Infinite (.ofModel (.pack (.infinity s))) s :=
  unpack_pack_infinity s

theorem Infinite.isFinite (hx : Infinite x s) : Binary64.isFinite x.toBits = false := by
  by_contra hfinite
  have hvalue := denotes_value (Bool.not_eq_false _ ▸ hfinite)
  unfold Denotes at hvalue
  rw [hx] at hvalue
  cases hvalue

/-- A canonical number past the range has an exponent too great for its field. -/
theorem pack_of_large (s : Sign) {m : ℕ} {e : ℤ} (hm : 0 < m) (he : 972 ≤ e) :
    Float.Model.pack (.finite s m e hm) = .pack (.infinity s) := by
  have hrange : 2 ^ Format.binary64.exponentBits ≤ (e + 1075).toNat + 1 := by
    change 2 ^ 11 ≤ (e + 1075).toNat + 1
    omega
  have hpack : UnpackedFloat.pack Format.binary64 (.finite s m e hm) =
      packedInfinity Format.binary64 s := by
    unfold UnpackedFloat.pack
    simp only [biasedExponent_binary64 e, hrange, if_true]
  unfold Float.Model.pack
  congr 2

theorem Stands.exists_of_pos {u : UnpackedFloat} (h : Stands u v) (hv : 0 < v) :
    ∃ (m : ℕ) (e : ℤ) (hm : 0 < m),
      Canonical m e ∧ v = m * 2 ^ e ∧ u = .finite .positive m e hm := by
  cases h with
  | zero s => exact absurd hv (lt_irrefl 0)
  | @finite s m e hm h =>
    cases s with
    | negative =>
      have hnonneg : (0 : ℚ) ≤ m * 2 ^ e := mul_nonneg (Nat.cast_nonneg m) (two_zpow_pos e).le
      exact absurd hv (not_lt.2 (neg_nonpos.2 hnonneg))
    | positive => exact ⟨m, e, hm, h, rfl, rfl⟩

theorem Canonical.infinite (s : Sign) {m : ℕ} {e : ℤ} (hm : 0 < m) (h : Canonical m e)
    (hlarge : 2 ^ (1024 : ℤ) ≤ (m : ℚ) * 2 ^ e) :
    Infinite (.ofModel (.pack (.finite s m e hm))) s := by
  have he : 972 ≤ e := by
    by_contra hsmall
    exact absurd hlarge (not_le.2 (h.lt_of_le (by omega)))
  rw [pack_of_large s hm he]
  exact infinite_ofModel s

theorem Stands.infinite {u : UnpackedFloat} (h : Stands u v) (hv : 2 ^ (1024 : ℤ) ≤ v) :
    Infinite (.ofModel (.pack u)) .positive := by
  obtain ⟨m, e, hm, hcanonical, rfl, rfl⟩ := h.exists_of_pos ((two_zpow_pos 1024).trans_le hv)
  exact hcanonical.infinite .positive hm hv

/-! ## Products and quotients -/

/-- The product of floats whose unpacked forms are these. -/
theorem mul_of_unpack {u w : UnpackedFloat} (hx : x.toModel.unpack = u) (hy : y.toModel.unpack = w) :
    x * y = .ofModel (.pack (.mul Format.binary64 u w)) := by
  rw [← hx, ← hy]
  rfl

theorem div_of_unpack {u w : UnpackedFloat} (hx : x.toModel.unpack = u) (hy : y.toModel.unpack = w) :
    x / y = .ofModel (.pack (.div Format.binary64 u w)) := by
  rw [← hx, ← hy]
  rfl

theorem Infinite.mul (hx : Infinite x s) (hy : Infinite y t) : Infinite (x * y) (s * t) := by
  rw [mul_of_unpack hx hy]
  exact infinite_ofModel (s * t)

theorem Infinite.mul_of_pos (hx : Infinite x s) (hy : Denotes y w) (hw : 0 < w) :
    Infinite (x * y) s := by
  obtain ⟨m, e, hm, -, -, hunpack⟩ := Stands.exists_of_pos hy hw
  rw [mul_of_unpack hx hunpack]
  cases s <;> exact infinite_ofModel _

theorem Denotes.mul_infinite (hx : Denotes x v) (hv : 0 < v) (hy : Infinite y s) :
    Infinite (x * y) s := by
  obtain ⟨m, e, hm, -, -, hunpack⟩ := Stands.exists_of_pos hx hv
  rw [mul_of_unpack hunpack hy]
  cases s <;> exact infinite_ofModel _

theorem isFinite_notANumber :
    Binary64.isFinite (Float.ofModel (.pack .notANumber)).toBits = false := rfl

theorem saturate_notANumber (low high : ℤ) :
    saturate low high (.ofModel (.pack .notANumber)) = 0 := by
  rw [saturate, isFinite_notANumber]
  rfl

/-- Zero times an infinity is a NaN, so no product with an infinity is a number. -/
theorem Infinite.isFinite_mul (hy : Infinite y s) (hx : Denotes x v) (hv : 0 ≤ v) :
    Binary64.isFinite (x * y).toBits = false := by
  rcases hv.eq_or_lt with hzero | hpos
  · obtain ⟨t, hunpack⟩ := Stands.eq_zero hx hzero.symm
    rw [mul_of_unpack hunpack hy]
    exact isFinite_notANumber
  · exact (hx.mul_infinite hpos hy).isFinite

/-- Over zero a number becomes an infinity or a NaN, and neither of them times zero is a number. -/
theorem div_zero_mul_zero (x : Float) : x / 0.0 * 0.0 = .ofModel (.pack .notANumber) := by
  have hzero : (0.0 : Float).toModel.unpack = .zero .positive := rfl
  have hquotient : (x / 0.0).toModel.unpack = .notANumber ∨
      ∃ s, (x / 0.0).toModel.unpack = .infinity s := by
    rw [div_of_unpack rfl hzero]
    cases x.toModel.unpack with
    | notANumber => exact .inl rfl
    | zero s => cases s <;> exact .inl rfl
    | infinity s => exact .inr ⟨_, unpack_pack_infinity _⟩
    | finite s m e hm => exact .inr ⟨_, unpack_pack_infinity _⟩
  rcases hquotient with hnone | ⟨s, hinfinite⟩
  · rw [mul_of_unpack hnone hzero]
    rfl
  · rw [mul_of_unpack hinfinite hzero]
    rfl

/-! ## Powers -/

/-- At least this power of two, infinities included. -/
def Large (k : ℕ) (x : Float) : Prop := Infinite x .positive ∨ ∃ v, Denotes x v ∧ 2 ^ k ≤ v

theorem two_pow_le_rounded {k : ℕ} (h : 2 ^ k ≤ v) : 2 ^ k ≤ rounded v :=
  (rounded_two_pow k).symm.le.trans (rounded_mono h)

theorem Large.mul {j k : ℕ} (hx : Large j x) (hy : Large k y) : Large (j + k) (x * y) := by
  have hpos (k : ℕ) : (0 : ℚ) < 2 ^ k := by positivity
  rcases hx with hx | ⟨v, hx, hv⟩ <;> rcases hy with hy | ⟨w, hy, hw⟩
  · exact .inl (hx.mul hy)
  · exact .inl (hx.mul_of_pos hy ((hpos k).trans_le hw))
  · exact .inl (hx.mul_infinite ((hpos j).trans_le hv) hy)
  · have hproduct : 2 ^ (j + k) ≤ rounded (v * w) := by
      apply two_pow_le_rounded
      rw [pow_add]
      exact mul_le_mul hv hw (hpos k).le ((hpos j).le.trans hv)
    rcases lt_or_ge (rounded (v * w)) (2 ^ (1024 : ℤ)) with hlt | hle
    · rw [← abs_of_pos ((hpos (j + k)).trans_le hproduct)] at hlt
      exact .inr ⟨_, hx.mul hy hlt, hproduct⟩
    · exact .inl ((Stands.mul hx hy).infinite hle)

/-- Rounding does not bring a power below that of a power of two. -/
theorem large_powerTimes (n : ℕ) {r x : Float} {j k : ℕ} (hr : Large j r) (hx : Large k x) :
    Large (j + k * n) (powerTimes r x n) := by
  induction n using Nat.strong_induction_on generalizing r x j k with
  | _ n ih =>
    have hdigits : k * n = k * (n % 2) + (k + k) * (n / 2) := by
      conv_lhs => rw [← Nat.mod_add_div n 2]
      ring
    have haccumulator : Large (j + k * (n % 2)) (if n % 2 = 1 then r * x else r) := by
      split
      · rename_i hodd
        rw [hodd, Nat.mul_one]
        exact hr.mul hx
      · rename_i heven
        rwa [show n % 2 = 0 by omega, Nat.mul_zero, Nat.add_zero]
    rw [powerTimes]
    split
    · rename_i hlast
      rw [hlast, Nat.mul_zero, Nat.add_zero] at hdigits
      rwa [hdigits]
    · have hstep := ih (n / 2) (by omega) haccumulator (hx.mul hx)
      rwa [hdigits, ← Nat.add_assoc]

theorem Large.power {k : ℕ} (hx : Large k x) (n : ℕ) : Large (k * n) (Binary64.power x n) := by
  have hone : Large 0 1.0 := .inr ⟨1, denotes_one, (pow_zero 2).le⟩
  have hpower := large_powerTimes n hone hx
  rwa [Nat.zero_add, ← power_natCast] at hpower

theorem large_ofNat {k n : ℕ} (hn : 2 ^ k ≤ n) (hsmall : n < 2 ^ 53) : Large k (Float.ofNat n) :=
  .inr ⟨n, denotes_ofNat_small hsmall, by exact_mod_cast hn⟩

end CableCapture.Binary64
