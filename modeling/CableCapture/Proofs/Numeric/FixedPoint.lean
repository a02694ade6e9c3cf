import CableCapture.Proofs.Answers
import CableCapture.Proofs.Chunks
import CableCapture.Proofs.Numeric.Arithmetic
import CableCapture.Proofs.Numeric.Codes
import CableCapture.Proofs.Numeric.Infinity

/-!
# Fixed-point streams

The scale of a format is a power of two, so that division by it is exact for codes that fit a
significand. Written values are the codes that were read, and written streams the bytes. A scale of
zero loses all of them.
-/

namespace CableCapture

namespace Binary64

variable {x y : Float}

/-! ## Powers of two -/

theorem denotes_two : Denotes 2.0 2 := denotes_ofNat_small (n := 2) (by norm_num)

theorem denotes_power {n : ℕ} (hn : n ≤ 1023) : Denotes (power 2.0 n) (2 ^ n) :=
  exactPowers_two.denotes_power denotes_two hn

end Binary64

namespace FixedPoint

open Binary64

variable {f : FixedPoint}

/-! ## Components -/

theorem fracBits_lt (h : f.bitCount ≤ 64) : f.fracBits.toNat < 64 := by
  unfold bitCount at h
  omega

theorem denotes_scale (h : f.bitCount ≤ 64) : Denotes f.scale (2 ^ f.fracBits.toNat) := by
  have hbits := fracBits_lt h
  have hsigned : f.fracBits.toInt32.toInt = f.fracBits.toNat :=
    BitVec.toInt_eq_toNat_of_lt (x := f.fracBits.toBitVec) (by
      rw [UInt32.toNat_toBitVec]
      omega)
  unfold scale
  rw [hsigned]
  exact denotes_power (by omega)

/-- Division by the scale is exact wherever a float has its value. -/
theorem denotes_div_scale (h : f.bitCount ≤ 64) {x : Float} {v : ℚ} (hx : Denotes x v)
    (hexact : rounded (v / 2 ^ f.fracBits.toNat) = v / 2 ^ f.fracBits.toNat) :
    Denotes (x / f.scale) (v / 2 ^ f.fracBits.toNat) := by
  refine hx.div_exact (denotes_scale h) (by positivity) hexact ?_
  rw [abs_div, abs_of_pos (by positivity : (0 : ℚ) < 2 ^ f.fracBits.toNat)]
  exact (div_le_self (abs_nonneg _) (one_le_pow₀ (by norm_num))).trans_lt hx.abs_lt

/-- What is written for an integer over the scale: the integer, or the end of the signed range if it
lies beyond. -/
theorem encode_of_denotes (h : f.bitCount ≤ 64) {x : Float} {n : ℤ}
    (hx : Denotes x (n / 2 ^ f.fracBits.toNat)) (hexact : rounded n = n)
    (hrange : |(n : ℚ)| < 2 ^ (1024 : ℤ)) :
    f.encode x =
      f.word (max (-2 ^ (f.bitCount - 1)) (min (2 ^ (f.bitCount - 1) - 1) n)) := by
  have hcancel : (n : ℚ) / 2 ^ f.fracBits.toNat * 2 ^ f.fracBits.toNat = n :=
    div_mul_cancel₀ _ (by positivity)
  have hproduct : Denotes (x * f.scale) n := by
    have hmul := hx.mul_exact (denotes_scale h)
    rw [hcancel] at hmul
    exact hmul hexact hrange
  have hnearest : nearestInt (x * f.scale) = n := nearestInt_of_abs_sub_lt hproduct (by norm_num)
  unfold encode saturate
  simp only
  rw [if_pos hproduct.isFinite, hnearest, totalBits_of_le h, min_eq_left h]

theorem abs_numerator_lt (h : f.bitCount ≤ 53) (raw : UInt64) (signed : Bool) :
    |f.numerator raw signed| < 2 ^ 53 := by
  have hwide : f.bitCount ≤ 64 := h.trans (by norm_num)
  have hpower : (2 : ℤ) ^ f.bitCount ≤ 2 ^ 53 := pow_le_pow_right₀ (by norm_num) h
  cases signed with
  | false =>
    have hpos : (0 : ℤ) < 2 ^ f.bitCount := by positivity
    rw [numerator_unsigned hwide, abs_of_nonneg (Int.emod_nonneg _ hpos.ne')]
    exact (Int.emod_lt_of_pos _ hpos).trans_le hpower
  | true =>
    have hlower := le_numerator hwide raw
    have hupper := numerator_lt hwide raw
    have hhalf : (2 : ℤ) ^ (f.bitCount - 1) < 2 ^ f.bitCount :=
      pow_lt_pow_right₀ (by norm_num) (by have := bitCount_pos (f := f); omega)
    rw [abs_lt]
    constructor <;> linarith

/-- Codes that fit a significand are decoded without an error. -/
theorem denotes_decode (h : f.bitCount ≤ 53) (raw : UInt64) (signed : Bool) :
    Denotes (f.decode raw signed) (f.numerator raw signed / 2 ^ f.fracBits.toNat) := by
  have hwide : f.bitCount ≤ 64 := h.trans (by norm_num)
  have hbits := fracBits_lt hwide
  have hcode := abs_numerator_lt h raw signed
  have hgrid : (f.numerator raw signed : ℚ) / 2 ^ f.fracBits.toNat =
      f.numerator raw signed * 2 ^ (-f.fracBits.toNat : ℤ) := by
    rw [zpow_neg, zpow_natCast, div_eq_mul_inv]
  refine denotes_div_scale hwide (denotes_ofInt_small hcode) ?_
  rw [hgrid]
  exact rounded_of_grid hcode (by omega)

/-- The integer of a code is written again, or the end of the signed range if it lies beyond. -/
theorem encode_decode_saturated (h : f.bitCount ≤ 53) (raw : UInt64) (signed : Bool) :
    f.encode (f.decode raw signed) = f.word (max (-2 ^ (f.bitCount - 1))
      (min (2 ^ (f.bitCount - 1) - 1) (f.numerator raw signed))) := by
  have hcode := abs_numerator_lt h raw signed
  exact encode_of_denotes (h.trans (by norm_num)) (denotes_decode h raw signed)
    (rounded_intCast hcode) (denotes_ofInt_small hcode).abs_lt

theorem encode_decode (h : f.bitCount ≤ 53) {raw : UInt64} (hraw : raw.toNat < 2 ^ f.bitCount) :
    f.encode (f.decode raw true) = raw := by
  have hwide : f.bitCount ≤ 64 := h.trans (by norm_num)
  have hlower := le_numerator hwide raw
  have hupper := numerator_lt hwide raw
  rw [encode_decode_saturated h, min_eq_right (by omega), max_eq_right hlower,
    word_numerator hwide hraw]

/-! ## Scales of zero -/

/-- The exponent is read as a negative number whose power is too small for a float. -/
theorem scale_eq_zero (h : f.fracBits = 0x80000000) : f.scale = 0.0 := by
  unfold scale
  rw [h]
  decide +kernel

theorem encode_decode_of_scale_eq_zero (h : f.scale = 0.0) (raw : UInt64) (signed : Bool) :
    f.encode (f.decode raw signed) = 0 := by
  unfold encode decode
  dsimp only
  rw [h, div_zero_mul_zero, saturate_notANumber]
  exact UInt64.zero_and

/-! ## Streams -/

theorem decodeStream_eq {width : ℕ} (hwidth : f.byteWidth = .ok width) (data : List UInt8)
    (signed : Bool) :
    f.decodeStream data signed =
      if data.length % (2 * width) = 0 then
        .ok ((chunksOf (2 * width) data).map (f.decodeSample width signed))
      else .error (.lengthMismatch (.partialSample data.length (2 * width))) := by
  unfold decodeStream
  rw [hwidth]
  rfl

/-- The bytes of a component fit a word. -/
theorem toNat_ofNat_component {width : ℕ} (hwidth : f.byteWidth = .ok width) {bytes : List UInt8}
    (hlen : bytes.length = width) :
    (UInt64.ofNat (LittleEndian.toNat bytes)).toNat = LittleEndian.toNat bytes ∧
      LittleEndian.toNat bytes < 2 ^ f.totalBits := by
  obtain ⟨hbits, hwide⟩ := byteWidth_eq_ok.1 hwidth
  have hcode : LittleEndian.toNat bytes < 2 ^ f.totalBits := by
    rw [hbits, pow_mul, ← hlen]
    exact LittleEndian.toNat_lt bytes
  exact ⟨UInt64.toNat_ofNat_of_lt' (hcode.trans_le (Nat.pow_le_pow_right (by norm_num) hwide)), hcode⟩

theorem encodeBytes_decodeBytes (h : f.bitCount ≤ 53) {width : ℕ} (hwidth : f.byteWidth = .ok width)
    {bytes : List UInt8} (hlen : bytes.length = width) :
    f.encodeBytes width (f.decodeBytes bytes true) = bytes := by
  obtain ⟨hword, hcode⟩ := toNat_ofNat_component hwidth hlen
  rw [totalBits_of_le (h.trans (by norm_num))] at hcode
  unfold encodeBytes decodeBytes
  rw [encode_decode h (by rwa [hword]), hword, ← hlen, LittleEndian.ofNat_toNat]

theorem encodeSample_decodeSample (h : f.bitCount ≤ 53) {width : ℕ}
    (hwidth : f.byteWidth = .ok width) {bytes : List UInt8} (hlen : bytes.length = 2 * width) :
    f.encodeSample width (f.decodeSample width true bytes) = bytes := by
  have hre : (bytes.take width).length = width := by
    rw [List.length_take]
    omega
  have him : (bytes.drop width).length = width := by
    rw [List.length_drop]
    omega
  unfold encodeSample decodeSample
  rw [encodeBytes_decodeBytes h hwidth hre, encodeBytes_decodeBytes h hwidth him,
    List.take_append_drop]

/-- What a stream was decoded from is what its samples are written as. -/
theorem flatMap_encodeSample {width : ℕ} (hfills : f.FillsBytes width) (h : f.bitCount ≤ 53)
    {data : List UInt8} {samples : List Complex} (hread : f.decodeStream data true = .ok samples) :
    samples.flatMap (f.encodeSample width) = data := by
  have hpos := hfills.width_pos
  rw [decodeStream_eq hfills.byteWidth] at hread
  split at hread
  · rename_i hwhole
    rw [← Except.ok.inj hread]
    exact flatMap_map_chunksOf (by omega) hwhole fun _ =>
      encodeSample_decodeSample h hfills.byteWidth
  · cases hread

/-- Samples of two bytes a component. -/
theorem flatMap_encodeSample_two (hfills : f.FillsBytes 2) {data : List UInt8}
    {samples : List Complex} (hread : f.decodeStream data true = .ok samples) :
    samples.flatMap (f.encodeSample 2) = data := by
  have hbits := hfills.1
  exact flatMap_encodeSample hfills (by omega) hread

end FixedPoint

end CableCapture
