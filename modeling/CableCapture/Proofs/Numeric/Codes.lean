import CableCapture.Proofs.Numeric.BitCount

/-!
# Codes of fixed-point numbers

The integer half of the codec: a code is read as the number of least magnitude that is congruent to
it, and writing takes that number back to the code.
-/

namespace CableCapture.FixedPoint

variable {f : FixedPoint}

theorem two_pow_bitCount : 2 ^ f.bitCount = 2 * 2 ^ (f.bitCount - 1) := by
  rw [← Nat.pow_succ', Nat.succ_eq_add_one, Nat.sub_add_cancel bitCount_pos]

theorem toNat_one_shiftLeft (h : f.totalBits < 64) :
    ((1 : UInt64) <<< UInt64.ofNat f.totalBits).toNat = 2 ^ f.totalBits := by
  have hword : (UInt64.ofNat f.totalBits).toNat = f.totalBits :=
    UInt64.toNat_ofNat_of_lt' (h.trans (by decide))
  have hpower : 2 ^ f.totalBits < 2 ^ 64 := Nat.pow_lt_pow_right (by decide) h
  rw [UInt64.toNat_shiftLeft, hword, Nat.mod_eq_of_lt h, Nat.shiftLeft_eq]
  change 1 * 2 ^ f.totalBits % 2 ^ 64 = _
  rw [Nat.one_mul, Nat.mod_eq_of_lt hpower]

theorem one_le_one_shiftLeft (h : f.totalBits < 64) :
    (1 : UInt64) ≤ 1 <<< UInt64.ofNat f.totalBits := by
  rw [UInt64.le_iff_toNat_le, toNat_one_shiftLeft h]
  exact Nat.two_pow_pos _

theorem toNat_mask (h : f.totalBits ≤ 64) : f.mask.toNat = 2 ^ f.totalBits - 1 := by
  unfold mask
  by_cases hfull : f.totalBits = 64
  · rw [hfull, if_pos (le_refl 64)]
    rfl
  · have hlt : f.totalBits < 64 := by omega
    rw [if_neg (by omega), UInt64.toNat_sub_of_le _ _ (one_le_one_shiftLeft hlt),
      toNat_one_shiftLeft hlt]
    rfl

theorem toNat_and_mask (h : f.totalBits ≤ 64) (word : UInt64) :
    (word &&& f.mask).toNat = word.toNat % 2 ^ f.totalBits := by
  rw [UInt64.toNat_and, toNat_mask h, Nat.and_two_pow_sub_one_eq_mod]

/-- The mask keeps the bits of a code if no bit was lost in counting them. -/
theorem toNat_code (h : f.bitCount ≤ 64) (word : UInt64) :
    (word &&& f.mask).toNat = word.toNat % 2 ^ f.bitCount := by
  rw [← totalBits_of_le h]
  exact toNat_and_mask ((totalBits_of_le h).trans_le h) word

theorem signSet_iff (h : f.bitCount ≤ 64) {code : UInt64} (hcode : code.toNat < 2 ^ f.bitCount) :
    f.signSet code = true ↔ 2 ^ (f.bitCount - 1) ≤ code.toNat := by
  have hpos := bitCount_pos (f := f)
  have hlt : f.bitCount - 1 < 64 := by omega
  have hword : (UInt64.ofNat (f.bitCount - 1)).toNat % 64 = f.bitCount - 1 := by
    rw [UInt64.toNat_ofNat_of_lt' (hlt.trans (by decide)), Nat.mod_eq_of_lt hlt]
  have hbit : ((code >>> UInt64.ofNat (f.bitCount - 1)) &&& 1).toNat =
      code.toNat / 2 ^ (f.bitCount - 1) % 2 := by
    rw [UInt64.toNat_and, UInt64.toNat_shiftRight, hword, Nat.shiftRight_eq_div_pow]
    exact Nat.and_one_is_mod _
  have hquotient : code.toNat / 2 ^ (f.bitCount - 1) < 2 := by
    rw [Nat.div_lt_iff_lt_mul (Nat.two_pow_pos _)]
    rwa [two_pow_bitCount] at hcode
  unfold signSet
  rw [totalBits_of_le h, Bool.and_eq_true, decide_eq_true_iff, beq_iff_eq, ← UInt64.toNat_inj, hbit]
  change f.bitCount ≤ 64 ∧ code.toNat / 2 ^ (f.bitCount - 1) % 2 = 1 ↔ _
  rw [Nat.mod_eq_of_lt hquotient, ← Nat.one_le_div_iff (Nat.two_pow_pos _)]
  omega

/-- Without a sign a code is the number that its bits spell. -/
theorem numerator_unsigned (h : f.bitCount ≤ 64) (raw : UInt64) :
    f.numerator raw false = raw.toNat % 2 ^ f.bitCount := by
  unfold numerator
  simp only [Bool.false_and, Bool.false_eq_true, if_false, toNat_code h, Int.natCast_emod]
  push_cast
  rfl

/-- A signed code is read in two's complement. -/
theorem numerator_eq_bmod (h : f.bitCount ≤ 64) (raw : UInt64) :
    f.numerator raw true = Int.bmod raw.toNat (2 ^ f.bitCount) := by
  have hmod : raw.toNat % 2 ^ f.bitCount < 2 ^ f.bitCount := Nat.mod_lt _ (Nat.two_pow_pos _)
  have hcode : (raw &&& f.mask).toNat < 2 ^ f.bitCount := by rwa [toNat_code h]
  have hsign := signSet_iff h hcode
  rw [toNat_code h] at hsign
  unfold numerator
  simp only [Bool.true_and, hsign, toNat_code h, totalBits_of_le h]
  rw [Int.bmod_def, ← Int.natCast_emod]
  have hpower : (2 : Int) ^ f.bitCount = (2 ^ f.bitCount : Nat) := by push_cast; rfl
  have hdouble := two_pow_bitCount (f := f)
  rw [hpower]
  generalize 2 ^ f.bitCount = p at *
  generalize raw.toNat % p = code at *
  split <;> split <;> omega

theorem le_numerator (h : f.bitCount ≤ 64) (raw : UInt64) :
    -2 ^ (f.bitCount - 1) ≤ f.numerator raw true := by
  have hle := Int.le_bmod (x := raw.toNat) (Nat.two_pow_pos f.bitCount)
  rw [numerator_eq_bmod h]
  rw [two_pow_bitCount] at hle ⊢
  push_cast at hle ⊢
  omega

theorem numerator_lt (h : f.bitCount ≤ 64) (raw : UInt64) :
    f.numerator raw true < 2 ^ (f.bitCount - 1) := by
  have hlt := Int.bmod_lt (x := raw.toNat) (Nat.two_pow_pos f.bitCount)
  rw [numerator_eq_bmod h]
  rw [two_pow_bitCount] at hlt ⊢
  push_cast at hlt ⊢
  omega

/-- The low bits of a number in two's complement. -/
theorem toNat_word (h : f.bitCount ≤ 64) (n : Int) :
    ((f.word n).toNat : Int) = n % 2 ^ f.bitCount := by
  have hbits : (Int64.ofInt n).toUInt64.toNat = (n % 2 ^ 64).toNat := BitVec.toNat_ofInt n
  have hdvd : (2 : Int) ^ f.bitCount ∣ 2 ^ 64 := pow_dvd_pow 2 h
  unfold word
  rw [toNat_code h, hbits, Int.natCast_emod, Int.toNat_of_nonneg (Int.emod_nonneg _ (by decide))]
  push_cast
  exact Int.emod_emod_of_dvd n hdvd

theorem word_numerator (h : f.bitCount ≤ 64) {raw : UInt64} (hraw : raw.toNat < 2 ^ f.bitCount) :
    f.word (f.numerator raw true) = raw := by
  rw [← UInt64.toNat_inj, ← Int.ofNat_inj, toNat_word h, numerator_eq_bmod h]
  have hcast : ((2 ^ f.bitCount : Nat) : Int) = 2 ^ f.bitCount := by push_cast; rfl
  rw [← hcast, Int.bmod_emod, ← Int.natCast_emod, Nat.mod_eq_of_lt hraw]

/-- A number in the signed range is the one of least magnitude that is congruent to it. -/
theorem bmod_eq_self {n : Int} (hlower : -2 ^ (f.bitCount - 1) ≤ n)
    (hupper : n < 2 ^ (f.bitCount - 1)) : Int.bmod n (2 ^ f.bitCount) = n := by
  have hcast : ((2 ^ (f.bitCount - 1) : Nat) : Int) = 2 ^ (f.bitCount - 1) := by push_cast; rfl
  rw [← hcast] at hlower hupper
  apply Int.bmod_eq_of_le
  · rw [two_pow_bitCount]
    omega
  · rw [two_pow_bitCount]
    omega

/-- A number in the signed range is read from its word. -/
theorem numerator_word (h : f.bitCount ≤ 64) {n : Int} (hlower : -2 ^ (f.bitCount - 1) ≤ n)
    (hupper : n < 2 ^ (f.bitCount - 1)) : f.numerator (f.word n) true = n := by
  have hpower : (2 : Int) ^ f.bitCount = (2 ^ f.bitCount : Nat) := by push_cast; rfl
  rw [numerator_eq_bmod h, toNat_word h, hpower, Int.emod_bmod, bmod_eq_self hlower hupper]

end CableCapture.FixedPoint
