import CableCapture.Proofs.Numeric.FixedPoint

/-!
# Codes that survive

A code of at most 64 bits is an integer that a significand of 53 bits may be too short for. Decoding
rounds the integer once, to an integer again, and nothing else on the way there and back rounds. So
the codes that come back are those whose integer a significand holds, and the greatest code, which
saturation brings back.
-/

namespace CableCapture

namespace Binary64

/-! ## Integers that a significand holds -/

/-- The integer is one of 53 bits times a power of two. -/
def FitsSignificand (n : ℤ) : Prop := ∃ (m : ℤ) (k : ℕ), |m| < 2 ^ 53 ∧ n = m * 2 ^ k

/-- All bits behind the first 53 are zero. -/
theorem fitsSignificand_iff_dvd {n : ℤ} : FitsSignificand n ↔ 2 ^ (n.natAbs.log2 - 52) ∣ n := by
  by_cases hzero : n = 0
  · rw [hzero]
    exact ⟨fun _ => dvd_zero _, fun _ => ⟨0, 0, by norm_num, by norm_num⟩⟩
  have hpos : n.natAbs ≠ 0 := Int.natAbs_ne_zero.2 hzero
  constructor
  · rintro ⟨m, k, hm, rfl⟩
    have hsmall : m.natAbs < 2 ^ 53 := by
      rw [Int.abs_eq_natAbs] at hm
      exact_mod_cast hm
    have hlog : (m * 2 ^ k).natAbs.log2 < 53 + k := by
      rw [Nat.log2_lt hpos, Int.natAbs_mul, Int.natAbs_pow, pow_add]
      exact Nat.mul_lt_mul_of_pos_right hsmall (Nat.two_pow_pos k)
    exact dvd_mul_of_dvd_right (pow_dvd_pow 2 (by omega)) m
  · rintro ⟨m, hm⟩
    refine ⟨m, n.natAbs.log2 - 52, ?_, hm.trans (mul_comm _ _)⟩
    have hlog : n.natAbs < 2 ^ (53 + (n.natAbs.log2 - 52)) :=
      (Nat.log2_lt hpos).1 (by omega)
    generalize n.natAbs.log2 - 52 = k at hm hlog
    rw [hm, Int.natAbs_mul, Int.natAbs_pow, mul_comm, pow_add] at hlog
    rw [Int.abs_eq_natAbs]
    exact_mod_cast Nat.lt_of_mul_lt_mul_right hlog

instance : DecidablePred FitsSignificand := fun _ => decidable_of_iff _ fitsSignificand_iff_dvd.symm

theorem FitsSignificand.of_le {m : ℤ} (hm : |m| ≤ 2 ^ 53) (k : ℕ) :
    FitsSignificand (m * 2 ^ k) := by
  rcases hm.lt_or_eq with hlt | heq
  · exact ⟨m, k, hlt, rfl⟩
  · rcases abs_eq (by norm_num) |>.1 heq with rfl | rfl
    · exact ⟨2 ^ 52, k + 1, by norm_num, by ring⟩
    · exact ⟨-2 ^ 52, k + 1, by norm_num, by ring⟩

/-- Dividing by a power of two leaves such an integer exact. -/
theorem FitsSignificand.rounded_div {n : ℤ} (h : FitsSignificand n) {b : ℕ} (hb : b ≤ 1074) :
    rounded ((n : ℚ) / 2 ^ b) = n / 2 ^ b := by
  obtain ⟨m, k, hm, rfl⟩ := h
  have hgrid : ((m * 2 ^ k : ℤ) : ℚ) / 2 ^ b = m * 2 ^ (k - b : ℤ) := by
    rw [zpow_sub₀ (by norm_num), zpow_natCast, zpow_natCast]
    push_cast
    ring
  rw [hgrid]
  exact rounded_of_grid hm (by omega)

theorem FitsSignificand.rounded_eq {n : ℤ} (h : FitsSignificand n) : rounded n = n := by
  simpa using h.rounded_div (b := 0) (by norm_num)

/-! ## Rounding integers -/

/-- The rounded value of an integer is an integer that a significand holds. -/
theorem exists_rounded_intCast (n : ℤ) : ∃ z, FitsSignificand z ∧ rounded n = z := by
  by_cases hsmall : |n| < 2 ^ 53
  · exact ⟨n, ⟨n, 0, hsmall, by ring⟩, rounded_intCast hsmall⟩
  have hlarge : (2 : ℚ) ^ (53 : ℤ) ≤ |(n : ℚ)| := by exact_mod_cast not_lt.1 hsmall
  have hpos : 0 < |(n : ℚ)| := (two_zpow_pos 53).trans_le hlarge
  have hlog : 53 ≤ Int.log 2 |(n : ℚ)| :=
    (Int.zpow_le_iff_le_log (by norm_num) hpos).1 (by simpa using hlarge)
  have hulp : ulpExponent n = Int.log 2 |(n : ℚ)| - 52 := max_eq_left (by omega)
  have hmantissa : |nearestEven (n / 2 ^ ulpExponent n)| ≤ 2 ^ 53 := by
    apply abs_nearestEven_le
    have hlt : |(n : ℚ)| < ((2 : ℕ) : ℚ) ^ (Int.log 2 |(n : ℚ)| + 1) :=
      Int.lt_zpow_succ_log_self (by norm_num) _
    have hmiddle : (((2 ^ 53 : ℤ)) : ℚ) * 2 ^ (Int.log 2 |(n : ℚ)| - 52) =
        2 ^ (Int.log 2 |(n : ℚ)| + 1) := by
      have hsplit : Int.log 2 |(n : ℚ)| + 1 = 53 + (Int.log 2 |(n : ℚ)| - 52) := by ring
      rw [hsplit, zpow_add₀ (by norm_num)]
      norm_num
    rw [abs_div, abs_of_pos (two_zpow_pos _), div_le_iff₀ (two_zpow_pos _), hulp, hmiddle]
    exact_mod_cast hlt.le
  refine ⟨_, .of_le hmantissa (ulpExponent n).toNat, ?_⟩
  rw [rounded]
  push_cast
  rw [← zpow_natCast, Int.toNat_of_nonneg (by omega)]

theorem FitsSignificand.of_rounded_eq {n z : ℤ} (h : rounded n = z) : FitsSignificand z := by
  obtain ⟨y, hy, hround⟩ := exists_rounded_intCast n
  have heq : z = y := by exact_mod_cast h.symm.trans hround
  exact heq ▸ hy

theorem rounded_intCast_eq_iff {n : ℤ} : rounded n = n ↔ FitsSignificand n :=
  ⟨.of_rounded_eq, FitsSignificand.rounded_eq⟩

theorem ulpExponent_two_pow_sub_one (k : ℕ) :
    ulpExponent (2 ^ (53 + (k + 1)) - 1) = (k + 1 : ℕ) := by
  have hhalf : (2 : ℚ) ^ (53 + (k + 1)) = 2 * 2 ^ (53 + k) := by ring
  have hone : (1 : ℚ) < 2 ^ (53 + k) := one_lt_pow₀ (by norm_num) (by omega)
  have habs : |(2 : ℚ) ^ (53 + (k + 1)) - 1| = 2 ^ (53 + (k + 1)) - 1 :=
    abs_of_pos (by linarith)
  have hpos : 0 < |(2 : ℚ) ^ (53 + (k + 1)) - 1| := by linarith
  have hlog : Int.log 2 |(2 : ℚ) ^ (53 + (k + 1)) - 1| = (53 + k : ℕ) := by
    apply le_antisymm
    · apply Int.lt_add_one_iff.1
      apply (Int.lt_zpow_iff_log_lt (by norm_num) hpos).1
      rw [habs, ← Nat.cast_add_one, zpow_natCast]
      exact sub_one_lt _
    · apply (Int.zpow_le_iff_le_log (by norm_num) hpos).1
      rw [habs, zpow_natCast, Nat.cast_ofNat]
      linarith
  unfold ulpExponent
  rw [hlog]
  push_cast
  omega

/-- What is missing is at most half a place, and the neighbour above is even. -/
theorem nearestEven_two_pow_sub_one (k : ℕ) :
    nearestEven ((2 ^ (53 + (k + 1)) - 1) / 2 ^ (k + 1)) = 2 ^ 53 := by
  have hmissing : ((2 : ℚ) ^ (53 + (k + 1)) - 1) / 2 ^ (k + 1) - ((2 ^ 53 : ℤ) : ℚ) =
      -(1 / 2 ^ (k + 1)) := by
    rw [pow_add]
    push_cast
    field_simp
    ring
  have hgap : |((2 : ℚ) ^ (53 + (k + 1)) - 1) / 2 ^ (k + 1) - ((2 ^ 53 : ℤ) : ℚ)| ≤ 1 / 2 := by
    rw [hmissing, abs_neg, abs_of_pos (by positivity)]
    exact one_div_le_one_div_of_le (by norm_num) (le_self_pow₀ (by norm_num) (by omega))
  rw [nearestEven_eq_iff]
  exact hgap.lt_or_eq.imp id fun heq => ⟨heq, by norm_num⟩

/-- A row of more than 53 ones is rounded up to the next power of two. -/
theorem rounded_two_pow_sub_one {a : ℕ} (h : 54 ≤ a) : rounded (2 ^ a - 1) = 2 ^ a := by
  obtain ⟨k, rfl⟩ : ∃ k, a = 53 + (k + 1) := ⟨a - 54, by omega⟩
  rw [rounded, ulpExponent_two_pow_sub_one, zpow_natCast, nearestEven_two_pow_sub_one]
  push_cast
  ring

end Binary64

namespace FixedPoint

open Binary64

variable {f : FixedPoint}

/-! ## There and back -/

theorem abs_numerator_le (h : f.bitCount ≤ 64) (raw : UInt64) :
    |(f.numerator raw true : ℚ)| ≤ 2 ^ (f.bitCount - 1) := by
  have hlower := le_numerator h raw
  have hupper := numerator_lt h raw
  have hcode : |f.numerator raw true| ≤ 2 ^ (f.bitCount - 1) := abs_le.2 ⟨hlower, hupper.le⟩
  exact_mod_cast hcode

/-- Decoding rounds the integer of the code. The division is exact. -/
theorem denotes_decode_rounded (h : f.bitCount ≤ 64) (raw : UInt64) :
    Denotes (f.decode raw true) (rounded (f.numerator raw true) / 2 ^ f.fracBits.toNat) := by
  have hbits := fracBits_lt h
  have hinteger : Denotes (Float.ofInt (f.numerator raw true)) (rounded (f.numerator raw true)) :=
    denotes_ofInt (abs_le_two_pow_1023 (by omega) (abs_numerator_le h raw))
  obtain ⟨z, hz, hround⟩ := exists_rounded_intCast (f.numerator raw true)
  rw [hround] at hinteger ⊢
  exact denotes_div_scale h hinteger (hz.rounded_div (by omega))

/-- What is written for a decoded code: the rounded integer, or the greatest code below it. -/
theorem encode_decode_eq_word (h : f.bitCount ≤ 64) (raw : UInt64) {z : ℤ}
    (hz : rounded (f.numerator raw true) = z) :
    f.encode (f.decode raw true) = f.word (min (2 ^ (f.bitCount - 1) - 1) z) := by
  have hbound : |(z : ℚ)| ≤ 2 ^ (f.bitCount - 1) := by
    rw [← hz]
    exact abs_rounded_le (abs_numerator_le h raw)
  have hlower : -2 ^ (f.bitCount - 1) ≤ z := by
    have := (abs_le.1 hbound).1
    exact_mod_cast this
  have hrange : |(z : ℚ)| < 2 ^ (1024 : ℤ) := by
    apply hbound.trans_lt
    rw [← zpow_natCast]
    exact zpow_lt_zpow_right₀ (by norm_num) (by omega)
  have hdecode := denotes_decode_rounded h raw
  rw [hz] at hdecode
  have hmax : (-2 ^ (f.bitCount - 1) : ℤ) ≤ 2 ^ (f.bitCount - 1) - 1 := by
    have hpos : (0 : ℤ) < 2 ^ (f.bitCount - 1) := by positivity
    omega
  rw [encode_of_denotes h hdecode (FitsSignificand.of_rounded_eq hz).rounded_eq hrange,
    max_eq_right (le_min hmax hlower)]

/-- The numbers that have a code are told apart by it. -/
theorem word_inj (h : f.bitCount ≤ 64) {m n : ℤ}
    (hm : -2 ^ (f.bitCount - 1) ≤ m ∧ m < 2 ^ (f.bitCount - 1))
    (hn : -2 ^ (f.bitCount - 1) ≤ n ∧ n < 2 ^ (f.bitCount - 1)) :
    f.word m = f.word n ↔ m = n := by
  refine ⟨fun hword => ?_, congrArg f.word⟩
  have hmod : n % 2 ^ f.bitCount = m % 2 ^ f.bitCount := by
    rw [← toNat_word h, ← toNat_word h, hword]
  have hdvd : (2 : ℤ) ^ f.bitCount ∣ n - m :=
    Int.dvd_of_emod_eq_zero (Int.emod_eq_emod_iff_emod_sub_eq_zero.1 hmod)
  have hdouble : (2 : ℤ) ^ f.bitCount = 2 * 2 ^ (f.bitCount - 1) := by
    exact_mod_cast two_pow_bitCount
  have hclose : |n - m| < 2 ^ f.bitCount := by
    rw [hdouble, abs_lt]
    omega
  have hzero := Int.eq_zero_of_abs_lt_dvd hdvd hclose
  omega

/-- The greatest code stays or is rounded up, and what is rounded up is saturated. -/
theorem le_of_rounded_greatest {a : ℕ} {z : ℤ} (hz : rounded (2 ^ a - 1) = z) : 2 ^ a - 1 ≤ z := by
  rcases Nat.lt_or_ge a 54 with hshort | hlong
  · have hfits : |(2 ^ a - 1 : ℤ)| < 2 ^ 53 := by
      have hone : (1 : ℤ) ≤ 2 ^ a := one_le_pow₀ (by norm_num)
      have hpow : (2 : ℤ) ^ a ≤ 2 ^ 53 := pow_le_pow_right₀ (by norm_num) (by omega)
      rw [abs_of_nonneg (by omega)]
      omega
    have hexact := rounded_intCast hfits
    push_cast at hexact
    rw [hexact] at hz
    exact_mod_cast hz.le
  · rw [rounded_two_pow_sub_one hlong] at hz
    have heq : 2 ^ a = z := by exact_mod_cast hz
    omega

theorem encode_decode_eq_iff (h : f.bitCount ≤ 64) {raw : UInt64}
    (hraw : raw.toNat < 2 ^ f.bitCount) :
    f.encode (f.decode raw true) = raw ↔
      FitsSignificand (f.numerator raw true) ∨
        f.numerator raw true = 2 ^ (f.bitCount - 1) - 1 := by
  obtain ⟨z, -, hz⟩ := exists_rounded_intCast (f.numerator raw true)
  have hlower := le_numerator h raw
  have hupper := numerator_lt h raw
  have hbound : -2 ^ (f.bitCount - 1) ≤ z := by
    have hround := abs_rounded_le (abs_numerator_le h raw)
    rw [hz] at hround
    exact_mod_cast (abs_le.1 hround).1
  have hgreatest : f.numerator raw true = 2 ^ (f.bitCount - 1) - 1 →
      2 ^ (f.bitCount - 1) - 1 ≤ z := by
    intro htop
    rw [htop] at hz
    push_cast at hz
    exact le_of_rounded_greatest hz
  conv_lhs => rw [encode_decode_eq_word h raw hz, ← word_numerator h hraw]
  rw [word_inj h ⟨by omega, by omega⟩ ⟨hlower, hupper⟩,
    ← rounded_intCast_eq_iff, hz, Int.cast_inj]
  omega

/-! ## Formats of whole bytes -/

theorem numerator_of_lt (h : f.bitCount ≤ 64) {raw : UInt64}
    (hraw : raw.toNat < 2 ^ (f.bitCount - 1)) : f.numerator raw true = raw.toNat := by
  rw [numerator_eq_bmod h]
  apply Int.bmod_eq_of_le
  · rw [two_pow_bitCount]
    omega
  · rw [two_pow_bitCount]
    omega

/-- The first integer that a significand does not hold, two to the 53rd and one, becomes the float
of the one below it. -/
theorem ofInt_first_lost : Float.ofInt 9007199254740993 = Float.ofInt 9007199254740992 := by
  decide +kernel

section Wide

variable (h : f.bitCount ≤ 64) (hwide : 55 ≤ f.bitCount)
include h hwide

theorem two_pow_le_of_wide : 2 ^ 54 ≤ 2 ^ (f.bitCount - 1) :=
  Nat.pow_le_pow_right (by norm_num) (by omega)

theorem numerator_first_lost : f.numerator 9007199254740993 true = 9007199254740993 :=
  numerator_of_lt h (lt_of_lt_of_le (by decide) (two_pow_le_of_wide h hwide))

theorem numerator_below_first_lost : f.numerator 9007199254740992 true = 9007199254740992 :=
  numerator_of_lt h (lt_of_lt_of_le (by decide) (two_pow_le_of_wide h hwide))

/-- Two codes have one value. -/
theorem decode_first_lost :
    f.decode 9007199254740993 true = f.decode 9007199254740992 true := by
  unfold decode
  rw [numerator_first_lost h hwide, numerator_below_first_lost h hwide, ofInt_first_lost]

theorem encode_decode_first_lost :
    f.encode (f.decode 9007199254740993 true) = 9007199254740992 := by
  have hcode : (9007199254740992 : UInt64).toNat < 2 ^ f.bitCount :=
    lt_of_lt_of_le (by decide) (Nat.pow_le_pow_right (by norm_num) hwide)
  rw [decode_first_lost h hwide, encode_decode_eq_iff h hcode,
    numerator_below_first_lost h hwide]
  exact .inl ⟨1, 53, by norm_num, by norm_num⟩

end Wide

/-- What becomes of the codes of a format when they are read and written. -/
structure Recovery (f : FixedPoint) (width : ℕ) : Prop where
  decoded : ∀ raw : UInt64, raw.toNat < 2 ^ f.bitCount →
    Denotes (f.decode raw true) (rounded (f.numerator raw true) / 2 ^ f.fracBits.toNat)
  written : ∀ raw : UInt64, raw.toNat < 2 ^ f.bitCount → ∃ z : ℤ,
    rounded (f.numerator raw true) = z ∧
      f.encode (f.decode raw true) = f.word (min (2 ^ (f.bitCount - 1) - 1) z)
  /-- What comes back. -/
  back : ∀ raw : UInt64, raw.toNat < 2 ^ f.bitCount →
    (f.encode (f.decode raw true) = raw ↔
      FitsSignificand (f.numerator raw true) ∨ f.numerator raw true = 2 ^ (f.bitCount - 1) - 1)
  /-- Formats of at most six bytes lose no code. -/
  all : (∀ raw : UInt64, raw.toNat < 2 ^ f.bitCount → f.encode (f.decode raw true) = raw) ↔
    width ≤ 6
  /-- In wider ones two codes have one value. -/
  injective : Set.InjOn (f.decode · true) {raw | raw.toNat < 2 ^ f.bitCount} ↔ width ≤ 6

theorem recovery {width : ℕ} (hfills : f.FillsBytes width) : f.Recovery width := by
  obtain ⟨hbits, h⟩ := hfills
  have hall (hnarrow : width ≤ 6) (raw : UInt64) (hraw : raw.toNat < 2 ^ f.bitCount) :
      f.encode (f.decode raw true) = raw := encode_decode (by omega) hraw
  have hcode (hwide : ¬width ≤ 6) (raw : UInt64) (hraw : raw.toNat < 2 ^ 55) :
      raw.toNat < 2 ^ f.bitCount :=
    hraw.trans_le (Nat.pow_le_pow_right (by norm_num) (by omega))
  refine ⟨fun raw _ => denotes_decode_rounded h raw, fun raw _ => ?_,
    fun raw hraw => encode_decode_eq_iff h hraw, ⟨fun hevery => ?_, hall⟩,
    ⟨fun hinjective => ?_, fun hnarrow => ?_⟩⟩
  · obtain ⟨z, -, hz⟩ := exists_rounded_intCast (f.numerator raw true)
    exact ⟨z, hz, encode_decode_eq_word h raw hz⟩
  · by_contra hwide
    have hback := hevery 9007199254740993 (hcode hwide _ (by decide))
    rw [encode_decode_first_lost h (by omega)] at hback
    exact absurd hback (by decide)
  · by_contra hwide
    have hsame := hinjective (hcode hwide 9007199254740993 (by decide))
      (hcode hwide 9007199254740992 (by decide)) (decode_first_lost h (by omega))
    exact absurd hsame (by decide)
  · intro raw hraw other hother hsame
    rw [← hall hnarrow raw hraw, ← hall hnarrow other hother]
    exact congrArg f.encode hsame

/-! ## Main result -/

/-- Which codes come back, and which formats lose none: those of at most six bytes, provided that a
word of 32 bits counts their bits. Where it does not, the checked count has no value, and the width
is that of the bits past the end of the word. Such a format may lose codes whatever its width: all of
them but zero if its scale is zero. -/
theorem codes_recovered_iff {width : ℕ} (hwidth : f.byteWidth = .ok width) :
    (f.bitCount < 2 ^ 32 → f.Recovery width) ∧
    (2 ^ 32 ≤ f.bitCount →
      f.total? = none ∧ f.bitCount = 2 ^ 32 + 8 * width ∧
      (f.fracBits = 0x80000000 → ∀ raw signed, f.encode (f.decode raw signed) = 0)) :=
  ⟨fun hcount => recovery ((byteWidth_eq_ok_iff hcount).1 hwidth),
    fun hcount => ⟨total?_eq_none hcount, bitCount_of_byteWidth hcount hwidth,
      fun hfrac => encode_decode_of_scale_eq_zero (scale_eq_zero hfrac)⟩⟩

/-- Seven bytes, all of them before the point. -/
def q55_0 : FixedPoint := ⟨55, 0⟩

/-- One byte, if eight bits more than a word of 32 bits counts are taken for eight. -/
def q2147483655_2147483648 : FixedPoint := ⟨2147483655, 2147483648⟩

theorem codes_recovered_iff_seven_bytes :
    q55_0.byteWidth = .ok 7 ∧ q55_0.bitCount < 2 ^ 32 ∧
    ¬Set.InjOn (q55_0.decode · true) {raw | raw.toNat < 2 ^ q55_0.bitCount} ∧
    q55_0.encode (q55_0.decode 9007199254740994 true) = 9007199254740994 ∧
    q2147483655_2147483648.byteWidth = .ok 1 ∧
    q2147483655_2147483648.encode (q2147483655_2147483648.decode 1 true) = 0 := by
  have hwidth : q55_0.byteWidth = .ok 7 := rfl
  have hcount : q55_0.bitCount < 2 ^ 32 := by decide
  have hrecovery := (codes_recovered_iff hwidth).1 hcount
  have hwrapped : q2147483655_2147483648.byteWidth = .ok 1 := rfl
  obtain ⟨-, -, hlost⟩ := (codes_recovered_iff hwrapped).2 (by decide)
  refine ⟨hwidth, hcount, mt hrecovery.injective.1 (by norm_num), ?_, hwrapped, hlost rfl 1 true⟩
  exact (hrecovery.back 9007199254740994 (by decide)).2 (by decide +kernel)

/-- The code is not the one that its value is written with. -/
theorem code_not_recovered :
    q55_0.byteWidth = .ok 7 ∧ q55_0.bitCount < 2 ^ 32 ∧
    (9007199254740993 : UInt64).toNat < 2 ^ q55_0.bitCount ∧
    q55_0.decode 9007199254740993 true = q55_0.decode 9007199254740992 true ∧
    q55_0.encode (q55_0.decode 9007199254740993 true) = 9007199254740992 :=
  ⟨rfl, by decide, by decide, decode_first_lost (by decide) (by decide),
    encode_decode_first_lost (by decide) (by decide)⟩

end FixedPoint

end CableCapture
