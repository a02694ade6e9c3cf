import CableCapture.Proofs.Numeric.Copies

/-!
# Shares of a total

Numbers that are not negative are added up to a total that is at least each of them, however often it
was rounded on the way, because rounding keeps the order of numbers. The share of one of them in the
total is at most one.
-/

namespace CableCapture.Binary64

variable {x y : Float} {v w : ℚ} {xs : List Float} {bound : ℕ}

/-- The float is a number from zero to the bound. -/
def Bounded (bound : ℕ) (x : Float) : Prop := ∃ v, Denotes x v ∧ 0 ≤ v ∧ v ≤ bound

/-- Every partial sum is at least what it was made of, and at most so many times the bound. -/
theorem exists_foldl_add (count : ℕ) (hx : Denotes x v) (hnonneg : 0 ≤ v) (hv : v ≤ bound * count)
    (hxs : ∀ y ∈ xs, Bounded bound y) (h : bound * (count + xs.length) < 2 ^ 53) :
    ∃ s, Denotes (xs.foldl (· + ·) x) s ∧ v ≤ s ∧ (∀ y ∈ xs, value y ≤ s) ∧
      s ≤ bound * (count + xs.length) := by
  induction xs generalizing x v count with
  | nil => exact ⟨v, hx, le_refl v, by simp, by simpa using hv⟩
  | cons y rest ih =>
    obtain ⟨⟨w, hy, hw, hwb⟩, hrest⟩ := List.forall_mem_cons.1 hxs
    have hcount : count + (y :: rest).length = count + 1 + rest.length := by
      rw [List.length_cons]
      omega
    rw [hcount] at h
    have hsum : v + w ≤ (bound * (count + 1) : ℕ) := by
      push_cast
      linarith
    have hfits : bound * (count + 1) < 2 ^ 53 :=
      (Nat.mul_le_mul_left bound (Nat.le_add_right _ _)).trans_lt h
    have hupper : rounded (v + w) ≤ (bound * (count + 1) : ℕ) :=
      (rounded_mono hsum).trans (rounded_natCast hfits).le
    have hfirst : v ≤ rounded (v + w) :=
      hx.rounded_eq.symm.le.trans (rounded_mono (le_add_of_nonneg_right hw))
    have hsecond : w ≤ rounded (v + w) :=
      hy.rounded_eq.symm.le.trans (rounded_mono (le_add_of_nonneg_left hnonneg))
    have hstep : Denotes (x + y) (rounded (v + w)) := by
      refine hx.add hy ?_
      rw [abs_of_nonneg (hnonneg.trans hfirst)]
      exact hupper.trans_lt ((le_abs_self _).trans_lt (denotes_ofNat_small hfits).abs_lt)
    push_cast at hupper
    obtain ⟨s, hs, hle, hall, hbound⟩ := ih (count + 1) hstep (hnonneg.trans hfirst)
      (by push_cast; exact hupper) hrest h
    refine ⟨s, hs, hfirst.trans hle, ?_, ?_⟩
    · rw [List.forall_mem_cons, hy.value_eq]
      exact ⟨hsecond.trans hle, hall⟩
    · rw [List.length_cons]
      push_cast at hbound ⊢
      linarith

theorem exists_sum (hxs : ∀ y ∈ xs, Bounded bound y) (h : bound * xs.length < 2 ^ 53) :
    ∃ s, Denotes (sum xs) s ∧ 0 ≤ s ∧ (∀ y ∈ xs, value y ≤ s) ∧ s ≤ bound * xs.length := by
  obtain ⟨s, hs, hnonneg, hall, hbound⟩ :=
    exists_foldl_add 0 denotes_neg_zero (le_refl 0) (by simp) hxs (by simpa using h)
  exact ⟨s, hs, hnonneg, hall, by simpa using hbound⟩

/-- The quotient does not pass one, and what is not too small a share is not lost. -/
theorem Denotes.share (hx : Denotes x v) (hy : Denotes y w) (hleast : 2 ^ (-1074 : ℤ) ≤ v / w)
    (hw : 0 < w) (hle : v ≤ w) :
    ∃ s, Denotes (x / y) s ∧ 0 < s ∧ s ≤ 1 := by
  have hupper : rounded (v / w) ≤ 1 := by
    have hone := rounded_mono ((div_le_one hw).2 hle)
    rwa [← pow_zero (2 : ℚ), rounded_two_pow, pow_zero] at hone
  have hpos := rounded_pos hleast
  refine ⟨rounded (v / w), hx.div hy hw.ne' ?_, hpos, hupper⟩
  rw [abs_of_pos hpos]
  exact hupper.trans_lt (one_lt_zpow₀ (by norm_num) (by norm_num))

end CableCapture.Binary64
