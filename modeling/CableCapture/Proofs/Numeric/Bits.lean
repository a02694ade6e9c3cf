import CableCapture.Numeric.Binary64
import CableCapture.Proofs.Numeric.Unpacked

/-!
# Numbers and their bits

A float denotes the number that its unpacked form stands for. The sign, the significand and the
exponent of its bit pattern spell the same number, and a number in range survives packing.
-/

namespace CableCapture.Binary64

open Float.Model Float.Model.UnpackedFloat

/-- The float is this rational number. Infinities and NaNs denote none. -/
def Denotes (x : Float) (v : ℚ) : Prop := Stands x.toModel.unpack v

/-! ## Reading bit patterns -/

def signOf (bits : UInt64) : Sign := if isNegative bits then .negative else .positive

theorem toNat_unpackMantissa (bits : UInt64) :
    (@unpackMantissa Format.binary64 bits.toBitVec).toNat = fractionField bits := rfl

theorem toNat_unpackExponent (bits : UInt64) :
    (@unpackExponent Format.binary64 bits.toBitVec).toNat = exponentField bits := by
  change (bits.toNat >>> 52) % 2 ^ 11 = _
  rw [Nat.shiftRight_eq_div_pow]
  rfl

theorem ofBitVec_unpackSign (bits : UInt64) :
    Sign.ofBitVec (@unpackSign Format.binary64 bits.toBitVec) = signOf bits := by
  have hlt := bits.toNat_lt
  have hsign : (@unpackSign Format.binary64 bits.toBitVec).toNat = bits.toNat / 2 ^ 63 := by
    change (bits.toNat >>> 63) % 2 = _
    rw [Nat.shiftRight_eq_div_pow]
    omega
  unfold Sign.ofBitVec signOf isNegative
  by_cases hnegative : 2 ^ 63 ≤ bits.toNat
  · rw [if_neg, if_pos (by simpa using hnegative)]
    intro hzero
    rw [hzero] at hsign
    simp at hsign
    omega
  · rw [if_pos, if_neg (by simpa using hnegative)]
    apply BitVec.eq_of_toNat_eq
    rw [hsign]
    simp
    omega

theorem unpackExponent_eq_iff (bits : UInt64) (e : BitVec 11) :
    @unpackExponent Format.binary64 bits.toBitVec = e ↔ exponentField bits = e.toNat := by
  rw [← toNat_unpackExponent]
  exact BitVec.toNat_inj.symm

theorem unpackMantissa_eq_iff (bits : UInt64) (m : BitVec 52) :
    @unpackMantissa Format.binary64 bits.toBitVec = m ↔ fractionField bits = m.toNat := by
  rw [← toNat_unpackMantissa]
  exact BitVec.toNat_inj.symm

theorem toNat_one_append (m : BitVec 52) : (1#1 ++ m).toNat = 2 ^ 52 + m.toNat := by
  rw [BitVec.toNat_append, ← Nat.shiftLeft_add_eq_or_of_lt m.isLt]
  rfl

theorem unpack_special {bits : UInt64} (h : exponentField bits = 2047) :
    UnpackedFloat.unpack Format.binary64 bits.toBitVec =
      if fractionField bits = 0 then .infinity (signOf bits) else .notANumber := by
  unfold UnpackedFloat.unpack
  have hones : @unpackExponent Format.binary64 bits.toBitVec = -1#11 :=
    (unpackExponent_eq_iff bits _).2 h
  dsimp only
  rw [if_pos hones, ofBitVec_unpackSign]
  by_cases hzero : fractionField bits = 0
  · rw [if_pos hzero, if_pos ((unpackMantissa_eq_iff bits 0#52).2 hzero)]
  · rw [if_neg hzero, if_neg (mt (unpackMantissa_eq_iff bits 0#52).1 hzero)]

theorem unpack_zero {bits : UInt64} (hfinite : exponentField bits ≠ 2047)
    (hzero : significand bits = 0) :
    UnpackedFloat.unpack Format.binary64 bits.toBitVec = .zero (signOf bits) := by
  have hexponent : exponentField bits = 0 := by
    by_contra hne
    rw [significand, if_neg hne] at hzero
    omega
  rw [significand, if_pos hexponent] at hzero
  unfold UnpackedFloat.unpack
  have hones := mt (unpackExponent_eq_iff bits (-1#11)).1 hfinite
  have hnone := (unpackExponent_eq_iff bits 0#11).2 hexponent
  have hmantissa := (unpackMantissa_eq_iff bits 0#52).2 hzero
  dsimp only
  rw [if_neg hones, if_pos hnone, dif_pos hmantissa, ofBitVec_unpackSign]

theorem unpack_finite {bits : UInt64} (hfinite : exponentField bits ≠ 2047)
    (hpos : 0 < significand bits) :
    UnpackedFloat.unpack Format.binary64 bits.toBitVec =
      .finite (signOf bits) (significand bits) (exponent bits) hpos := by
  unfold UnpackedFloat.unpack
  have hones := mt (unpackExponent_eq_iff bits (-1#11)).1 hfinite
  dsimp only
  rw [if_neg hones, ofBitVec_unpackSign]
  by_cases hexponent : exponentField bits = 0
  · have hnone := (unpackExponent_eq_iff bits 0#11).2 hexponent
    have hmantissa : @unpackMantissa Format.binary64 bits.toBitVec ≠ 0#52 := by
      apply mt (unpackMantissa_eq_iff bits 0#52).1
      rw [significand, if_pos hexponent] at hpos
      exact hpos.ne'
    rw [if_pos hnone, dif_neg hmantissa]
    congr 1
    · rw [significand, if_pos hexponent]
      rfl
    · rw [toNat_unpackExponent, exponent, hexponent]
      rfl
  · have hsome := mt (unpackExponent_eq_iff bits 0#11).1 hexponent
    rw [if_neg hsome]
    congr 1
    · rw [toNat_one_append, significand, if_neg hexponent]
      rfl
    · rw [toNat_unpackExponent, exponent, max_eq_left (by omega)]
      rfl

theorem canonical_fields (bits : UInt64) : Canonical (significand bits) (exponent bits) where
  mantissa_lt := by
    unfold significand fractionField
    split <;> omega
  exponent_ge := by
    unfold exponent
    omega
  normal := by
    intro hlt
    unfold significand at hlt
    split at hlt
    · rename_i hexponent
      rw [exponent, hexponent]
      rfl
    · omega

theorem abs_signed (s : Sign) {v : ℚ} (hv : 0 ≤ v) : |signed s v| = v := by
  cases s with
  | negative => rw [signed, abs_neg, abs_of_nonneg hv]
  | positive => rw [signed, abs_of_nonneg hv]

/-- The number that the bits of a float spell. -/
def value (x : Float) : ℚ :=
  signed (signOf x.toBits) (significand x.toBits * 2 ^ exponent x.toBits)

theorem isFinite_iff {bits : UInt64} : isFinite bits = true ↔ exponentField bits ≠ 2047 := by
  have hlt : exponentField bits < 2 ^ 11 := Nat.mod_lt _ (by norm_num)
  unfold isFinite
  rw [decide_eq_true_iff]
  omega

theorem denotes_value {x : Float} (h : isFinite x.toBits = true) : Denotes x (value x) := by
  have hfinite := isFinite_iff.1 h
  unfold Denotes value
  rcases Nat.eq_zero_or_pos (significand x.toBits) with hzero | hpos
  · have hunpack : x.toModel.unpack = .zero (signOf x.toBits) := unpack_zero hfinite hzero
    have hvalue : signed (signOf x.toBits) 0 = 0 := by cases signOf x.toBits <;> simp [signed]
    rw [hunpack, hzero, Nat.cast_zero, zero_mul, hvalue]
    exact .zero _
  · have hunpack : x.toModel.unpack =
        .finite (signOf x.toBits) (significand x.toBits) (exponent x.toBits) hpos :=
      unpack_finite hfinite hpos
    rw [hunpack]
    exact .finite _ hpos (canonical_fields _)

theorem Stands.eq {u : UnpackedFloat} {v w : ℚ} (hv : Stands u v) (hw : Stands u w) : v = w := by
  cases hv with
  | zero s =>
    cases hw with
    | zero => rfl
  | finite s hm h =>
    cases hw with
    | finite => rfl

theorem Denotes.isFinite {x : Float} {v : ℚ} (h : Denotes x v) :
    Binary64.isFinite x.toBits = true := by
  rw [isFinite_iff]
  intro hspecial
  have hunpack : x.toModel.unpack = _ := unpack_special hspecial
  unfold Denotes at h
  rw [hunpack] at h
  split at h <;> cases h

theorem Denotes.value_eq {x : Float} {v : ℚ} (h : Denotes x v) : value x = v :=
  (denotes_value h.isFinite).eq h

/-- The greatest exponent that a field can hold keeps a number in range. -/
theorem Canonical.lt_of_le {m : ℕ} {e : ℤ} (h : Canonical m e) (he : e ≤ 971) :
    (m : ℚ) * 2 ^ e < 2 ^ (1024 : ℤ) := by
  have hm : (m : ℚ) < 2 ^ (53 : ℤ) := by exact_mod_cast h.mantissa_lt
  calc (m : ℚ) * 2 ^ e < 2 ^ (53 : ℤ) * 2 ^ e := mul_lt_mul_of_pos_right hm (two_zpow_pos e)
    _ = 2 ^ (53 + e) := (zpow_add₀ (by norm_num) _ _).symm
    _ ≤ 2 ^ (1024 : ℤ) := zpow_le_zpow_right₀ (by norm_num) (by omega)

theorem Denotes.abs_lt {x : Float} {v : ℚ} (h : Denotes x v) : |v| < 2 ^ (1024 : ℤ) := by
  have hfinite := isFinite_iff.1 h.isFinite
  have hfield : exponentField x.toBits < 2 ^ 11 := Nat.mod_lt _ (by norm_num)
  have hexponent : exponent x.toBits ≤ 971 := by
    unfold exponent
    omega
  have hnonneg : (0 : ℚ) ≤ significand x.toBits * 2 ^ exponent x.toBits :=
    mul_nonneg (Nat.cast_nonneg _) (two_zpow_pos _).le
  rw [← h.value_eq, value, abs_signed _ hnonneg]
  exact (canonical_fields x.toBits).lt_of_le hexponent

/-! ## Packing -/

theorem toNat_append (m n : ℕ) (a : BitVec m) (b : BitVec n) :
    (a ++ b).toNat = a.toNat * 2 ^ n + b.toNat := by
  rw [BitVec.toNat_append, ← Nat.shiftLeft_add_eq_or_of_lt b.isLt, Nat.shiftLeft_eq]

section Components

variable (s : Sign) (e : BitVec 11) (m : BitVec 52)

/-- The bit pattern of three fields. -/
def bitsOf : UInt64 := .ofBitVec (packComponents Format.binary64 s e m)

theorem toNat_bitsOf :
    (bitsOf s e m).toNat = s.toBitVec.toNat * 2 ^ 63 + e.toNat * 2 ^ 52 + m.toNat := by
  change (s.toBitVec ++ e ++ m).toNat = _
  rw [toNat_append, toNat_append]
  ring

theorem exponentField_bitsOf : exponentField (bitsOf s e m) = e.toNat := by
  have he := e.isLt
  have hm := m.isLt
  rw [exponentField, toNat_bitsOf]
  omega

theorem fractionField_bitsOf : fractionField (bitsOf s e m) = m.toNat := by
  have hm := m.isLt
  rw [fractionField, toNat_bitsOf]
  omega

theorem signOf_bitsOf : signOf (bitsOf s e m) = s := by
  have he := e.isLt
  have hm := m.isLt
  unfold signOf isNegative
  rw [toNat_bitsOf]
  cases s with
  | negative =>
    have hone : Sign.negative.toBitVec.toNat = 1 := rfl
    rw [hone, if_pos]
    rw [decide_eq_true_iff]
    omega
  | positive =>
    have hzero : Sign.positive.toBitVec.toNat = 0 := rfl
    rw [hzero, if_neg]
    rw [decide_eq_true_iff]
    omega

end Components

theorem exponent_le_of_lt {m : ℕ} {e : ℤ} (h : Canonical m e)
    (hlt : (m : ℚ) * 2 ^ e < 2 ^ (1024 : ℤ)) : e ≤ 971 := by
  by_contra hlarge
  have hnormal : 2 ^ 52 ≤ m := by
    by_contra hsmall
    have := h.normal (not_le.1 hsmall)
    omega
  have hcast : (2 : ℚ) ^ (52 : ℤ) ≤ m := by exact_mod_cast hnormal
  have hle : (2 : ℚ) ^ (1024 : ℤ) ≤ 2 ^ (52 + e) := zpow_le_zpow_right₀ (by norm_num) (by omega)
  rw [zpow_add₀ (by norm_num)] at hle
  exact absurd (hle.trans (mul_le_mul_of_nonneg_right hcast (two_zpow_pos e).le)) (not_le.2 hlt)

theorem biasedExponent_binary64 (e : ℤ) :
    (e + (Format.binary64.exponentBias : ℤ) +
      (Format.binary64.mantissaBitsWithoutImplicit : ℤ)).toNat = (e + 1075).toNat :=
  congrArg Int.toNat (add_assoc e 1023 52)

theorem pack_finite (s : Sign) {m : ℕ} {e : ℤ} (hm : 0 < m) (h : Canonical m e) (he : e ≤ 971) :
    UnpackedFloat.pack Format.binary64 (.finite s m e hm) =
      packComponents Format.binary64 s
        (if 2 ^ 52 ≤ m then .ofNat 11 (e + 1075).toNat else 0) (.ofNat 52 m) := by
  have hge := h.exponent_ge
  have hlt := h.mantissa_lt
  have hrange : ¬2 ^ Format.binary64.exponentBits ≤ (e + 1075).toNat + 1 := by
    change ¬2 ^ 11 ≤ (e + 1075).toNat + 1
    omega
  have hlog : m.log2 + 1 = Format.binary64.mantissaBits ↔ 2 ^ 52 ≤ m := by
    change m.log2 + 1 = 53 ↔ 2 ^ 52 ≤ m
    rw [← Nat.le_log2 hm.ne']
    have := (Nat.log2_lt hm.ne').2 hlt
    omega
  unfold UnpackedFloat.pack
  simp only [biasedExponent_binary64 e, hrange, if_false, hlog]
  split <;> rfl

/-- A number in range comes out of its packed form as it went in. -/
theorem unpack_pack_finite (s : Sign) {m : ℕ} {e : ℤ} (hm : 0 < m) (h : Canonical m e)
    (he : e ≤ 971) : (Float.Model.pack (.finite s m e hm)).unpack = .finite s m e hm := by
  have hge := h.exponent_ge
  have hlt := h.mantissa_lt
  let field : BitVec 11 := if 2 ^ 52 ≤ m then .ofNat 11 (e + 1075).toNat else 0
  let bits := bitsOf s field (.ofNat 52 m)
  have hbits : (Float.Model.pack (.finite s m e hm)).toBits = bits :=
    congrArg UInt64.ofBitVec (pack_finite s hm h he)
  have hfraction : fractionField bits = m % 2 ^ 52 := by
    rw [fractionField_bitsOf, BitVec.toNat_ofNat]
  have hexponentField : exponentField bits = if 2 ^ 52 ≤ m then (e + 1075).toNat else 0 := by
    rw [exponentField_bitsOf]
    dsimp only [field]
    split
    · rw [BitVec.toNat_ofNat, Nat.mod_eq_of_lt (by omega)]
    · rfl
  have hsignificand : significand bits = m := by
    rw [significand, hexponentField, hfraction]
    by_cases hnormal : 2 ^ 52 ≤ m
    · rw [if_pos hnormal, if_neg (by omega)]
      omega
    · rw [if_neg hnormal, if_pos rfl]
      omega
  have hexponent : exponent bits = e := by
    rw [exponent, hexponentField]
    split
    · omega
    · rename_i hsmall
      have := h.normal (not_le.1 hsmall)
      omega
  have hfinite : exponentField bits ≠ 2047 := by
    rw [hexponentField]
    split <;> omega
  unfold Float.Model.unpack
  rw [hbits, unpack_finite hfinite (hsignificand ▸ hm)]
  congr 1
  exact signOf_bitsOf _ _ _

theorem unpack_pack_zero (s : Sign) : (Float.Model.pack (.zero s)).unpack = .zero s := by
  cases s <;> rfl

theorem Stands.denotes {u : UnpackedFloat} {v : ℚ} (h : Stands u v) (hv : |v| < 2 ^ (1024 : ℤ)) :
    Denotes (.ofModel (.pack u)) v := by
  unfold Denotes
  cases h with
  | zero s =>
    rw [unpack_pack_zero]
    exact .zero s
  | finite s hm h =>
    rw [abs_signed s (mul_nonneg (Nat.cast_nonneg _) (two_zpow_pos _).le)] at hv
    rw [unpack_pack_finite s hm h (exponent_le_of_lt h hv)]
    exact .finite s hm h

end CableCapture.Binary64
