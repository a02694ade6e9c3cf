import CableCapture.Proofs.Numeric.RoundTrip
import Mathlib.Data.Int.ModEq

/-!
# Codes by checked arithmetic

The integer half of the codec in machine words, where every operation is checked: a sum or a
difference has a value only if its word holds it, and a shift only if it goes by fewer places than its
word has. For every format whose bits can be counted the checked operations have values, and these are
the ones that decoding and writing work with. Up to 64 bits that is two's complement, and nothing is
lost on the way back.
-/

namespace CableCapture

namespace Checked

/-! ## Words of 32, 64 and 128 bits -/

def sub32? (x y : UInt32) : Option UInt32 :=
  if y ≤ x then some (x - y) else none

def sub64? (x y : UInt64) : Option UInt64 :=
  if y ≤ x then some (x - y) else none

def shiftLeft64? (x : UInt64) (places : UInt32) : Option UInt64 :=
  if places < 64 then some (x <<< places.toUInt64) else none

def shiftRight64? (x : UInt64) (places : UInt32) : Option UInt64 :=
  if places < 64 then some (x >>> places.toUInt64) else none

/-- A number as a signed word of 128 bits. -/
def signed128? (n : ℤ) : Option ℤ :=
  if -2 ^ 127 ≤ n ∧ n < 2 ^ 127 then some n else none

/-- One, shifted to the left in a signed word of 128 bits. -/
def power128? (places : UInt32) : Option ℤ :=
  if places < 128 then signed128? (2 ^ places.toNat) else none

/-- Bounds that are out of order leave no number between them. -/
def clamp? (low high n : ℤ) : Option ℤ :=
  if low ≤ high then some (max low (min high n)) else none

variable {x y places : UInt32} {n : ℤ}

theorem sub32?_of_le (h : y ≤ x) : sub32? x y = some (x - y) := if_pos h

theorem sub64?_of_le {x y : UInt64} (h : y ≤ x) : sub64? x y = some (x - y) := if_pos h

theorem shiftLeft64?_of_lt (x : UInt64) (h : places < 64) :
    shiftLeft64? x places = some (x <<< places.toUInt64) := if_pos h

theorem shiftRight64?_of_lt (x : UInt64) (h : places < 64) :
    shiftRight64? x places = some (x >>> places.toUInt64) := if_pos h

theorem signed128?_of_abs_le (h : |n| < 2 ^ 127) : signed128? n = some n :=
  if_pos ⟨(abs_lt.1 h).1.le, (abs_lt.1 h).2⟩

theorem power128?_of_le (h : places.toNat ≤ 64) : power128? places = some (2 ^ places.toNat) := by
  have hplaces : places < 128 := UInt32.lt_iff_toNat_lt.2 (h.trans_lt (by decide))
  have hpower : |(2 : ℤ) ^ places.toNat| < 2 ^ 127 := by
    rw [abs_of_pos (by positivity)]
    exact pow_lt_pow_right₀ (by norm_num) (by omega)
  rw [power128?, if_pos hplaces, signed128?_of_abs_le hpower]

theorem clamp?_of_le {low high : ℤ} (h : low ≤ high) :
    clamp? low high n = some (max low (min high n)) := if_pos h

end Checked

namespace FixedPoint

open Binary64 Checked

/-! ## The codec in checked words -/

def mask? (total : UInt32) : Option UInt64 :=
  if 64 ≤ total then some (.ofNat (2 ^ 64 - 1))
  else do sub64? (← shiftLeft64? 1 total) 1

/-- The sign bit is looked at only where a word has one. -/
def signSet? (total : UInt32) (code : UInt64) : Option Bool :=
  if total ≤ 64 then do
    let bit ← shiftRight64? code (← sub32? total 1)
    return bit &&& 1 == 1
  else return false

variable (f : FixedPoint)

def numerator? (raw : UInt64) (signed : Bool) : Option ℤ := do
  let total ← f.total?
  let code := raw &&& (← mask? total)
  let signSet ← signSet? total code
  if signed && signSet then
    signed128? (code.toNat - (← power128? total))
  else
    signed128? code.toNat

def decode? (raw : UInt64) (signed : Bool) : Option Float := do
  let numerator ← f.numerator? raw signed
  return Float.ofInt numerator / f.scale

/-- The word of an integer: brought into the range, cut to 64 bits, and masked. -/
def code? (n : ℤ) : Option UInt64 := do
  let width := min (← f.total?) 64
  let high ← signed128? ((← power128? (← sub32? width 1)) - 1)
  let low ← signed128? (-(← power128? (← sub32? width 1)))
  let code ← clamp? low high n
  return (Int64.ofInt code).toUInt64 &&& (← mask? width)

/-- The nearest integer is a signed word of 128 bits before it is brought into the range. -/
def encode? (x : Float) : Option UInt64 :=
  f.code? (saturate (-2 ^ 127) (2 ^ 127 - 1) (x * f.scale))

variable {f}

theorem toUInt64_of_toNat {places : UInt32} {n : ℕ} (h : places.toNat = n) :
    places.toUInt64 = .ofNat n := by
  rw [← h, ← UInt64.toNat_inj, UInt32.toNat_toUInt64,
    UInt64.toNat_ofNat_of_lt' (places.toNat_lt.trans (by decide))]

theorem mask?_eq (hcount : f.bitCount < 2 ^ 32) {width : UInt32}
    (h : min width.toNat 64 = min f.bitCount 64) :
    mask? width = some f.mask := by
  have hwide : 64 ≤ width ↔ 64 ≤ f.bitCount := by
    rw [UInt32.le_iff_toNat_le]
    change 64 ≤ width.toNat ↔ _
    omega
  unfold mask? mask
  rw [← totalBits_of_lt hcount] at h hwide
  by_cases hfull : 64 ≤ f.totalBits
  · rw [if_pos (hwide.2 hfull), if_pos hfull]
  · rw [if_neg (mt hwide.1 hfull), if_neg hfull]
    have hbits : width.toNat = f.totalBits := by omega
    have hplaces : width < 64 := UInt32.not_le.1 (mt hwide.1 hfull)
    simp only [shiftLeft64?_of_lt 1 hplaces, toUInt64_of_toNat hbits,
      sub64?_of_le (one_le_one_shiftLeft (not_le.1 hfull)), Option.bind_eq_bind,
      Option.bind_some]

theorem signSet?_eq (hcount : f.bitCount < 2 ^ 32) {total : UInt32}
    (h : total.toNat = f.bitCount) (code : UInt64) :
    signSet? total code = some (f.signSet code) := by
  have hpos := bitCount_pos (f := f)
  have hone : 1 ≤ total := UInt32.le_iff_toNat_le.2 (by rw [h]; exact hpos)
  have hlast : (total - 1).toNat = f.bitCount - 1 := by
    rw [UInt32.toNat_sub_of_le _ _ hone, h]
    rfl
  have hnarrow : total ≤ 64 ↔ f.bitCount ≤ 64 := by
    rw [UInt32.le_iff_toNat_le, h]
    rfl
  unfold signSet? signSet
  rw [totalBits_of_lt hcount]
  by_cases hfits : f.bitCount ≤ 64
  · have hplaces : total - 1 < 64 := by
      rw [UInt32.lt_iff_toNat_lt, hlast]
      exact (Nat.sub_lt hpos one_pos).trans_le hfits
    rw [if_pos (hnarrow.2 hfits), decide_eq_true hfits, Bool.true_and]
    simp only [sub32?_of_le hone, shiftRight64?_of_lt code hplaces, toUInt64_of_toNat hlast,
      Option.bind_eq_bind, Option.bind_some, Option.pure_def]
  · rw [if_neg (mt hnarrow.1 hfits), decide_eq_false hfits, Bool.false_and]
    rfl

theorem two_pow_le_of_le_64 {k : ℕ} (h : k ≤ 64) : (2 : ℤ) ^ k ≤ 2 ^ 64 :=
  pow_le_pow_right₀ (by norm_num) h

theorem numerator?_eq (h : f.bitCount < 2 ^ 32) (raw : UInt64) (signed : Bool) :
    f.numerator? raw signed = some (f.numerator raw signed) := by
  obtain ⟨total, htotal, hbits⟩ := exists_total? h
  have hcode := (raw &&& f.mask).toNat_lt
  simp only [numerator?, htotal, mask?_eq h (congrArg (min · 64) hbits), signSet?_eq h hbits,
    Option.bind_eq_bind, Option.bind_some]
  unfold numerator
  dsimp only
  rw [totalBits_of_lt h]
  cases hsign : signed && f.signSet (raw &&& f.mask) with
  | true =>
    -- Only a format with a sign bit in the word gets as far as the shift in 128 bits.
    have hfits : f.bitCount ≤ 64 := by
      rw [signSet, totalBits_of_lt h, Bool.and_eq_true, Bool.and_eq_true] at hsign
      exact of_decide_eq_true hsign.2.1
    have hpower := two_pow_le_of_le_64 hfits
    have hpos : (0 : ℤ) < 2 ^ f.bitCount := by positivity
    simp only [if_true, power128?_of_le (hbits.trans_le hfits), hbits, Option.bind_some]
    apply signed128?_of_abs_le
    rw [abs_lt]
    omega
  | false =>
    simp only [Bool.false_eq_true, if_false]
    apply signed128?_of_abs_le
    rw [abs_lt]
    omega

theorem code?_eq (h : f.bitCount < 2 ^ 32) (n : ℤ) :
    f.code? n = some (f.word
      (max (-2 ^ (min f.bitCount 64 - 1)) (min (2 ^ (min f.bitCount 64 - 1) - 1) n))) := by
  obtain ⟨total, htotal, hbits⟩ := exists_total? h
  have hwidth : (min total 64).toNat = min f.bitCount 64 := by
    rw [UInt32.toNat_min, hbits]
    rfl
  have hpos : 1 ≤ min f.bitCount 64 := le_min bitCount_pos (by norm_num)
  have hone : 1 ≤ min total 64 := UInt32.le_iff_toNat_le.2 (hwidth ▸ hpos)
  have hlast : (min total 64 - 1).toNat = min f.bitCount 64 - 1 := by
    rw [UInt32.toNat_sub_of_le _ _ hone, hwidth]
    rfl
  have hshort : (min total 64 - 1).toNat ≤ 64 := by omega
  have hmask : mask? (min total 64) = some f.mask := mask?_eq h (by omega)
  have hpower := two_pow_le_of_le_64 hshort
  have hbound : (0 : ℤ) < 2 ^ (min total 64 - 1).toNat := by positivity
  have hhigh : |(2 : ℤ) ^ (min total 64 - 1).toNat - 1| < 2 ^ 127 := by
    rw [abs_lt]
    omega
  have hlow : |-(2 : ℤ) ^ (min total 64 - 1).toNat| < 2 ^ 127 := by
    rw [abs_lt]
    omega
  have horder : -(2 : ℤ) ^ (min total 64 - 1).toNat ≤ 2 ^ (min total 64 - 1).toNat - 1 := by
    omega
  simp only [code?, htotal, sub32?_of_le hone, power128?_of_le hshort, signed128?_of_abs_le hhigh,
    signed128?_of_abs_le hlow, clamp?_of_le horder, hmask, Option.bind_eq_bind, Option.bind_some]
  rw [hlast]
  rfl

/-- Bringing a number into a wider range first makes no difference. -/
theorem clamp_saturate {low high lower higher : ℤ} (hlower : lower ≤ low) (hlow : low ≤ 0)
    (hhigh : 0 ≤ high) (hhigher : high ≤ higher) (x : Float) :
    max low (min high (saturate lower higher x)) = saturate low high x := by
  unfold saturate
  split
  · omega
  split
  · omega
  split <;> omega

theorem encode?_eq (h : f.bitCount < 2 ^ 32) (x : Float) : f.encode? x = some (f.encode x) := by
  have hpower := two_pow_le_of_le_64 (k := min f.bitCount 64 - 1) (by omega)
  have hpos : (0 : ℤ) < 2 ^ (min f.bitCount 64 - 1) := by positivity
  rw [encode?, code?_eq h, clamp_saturate (by omega) (by omega) (by omega) (by omega), encode,
    totalBits_of_lt h]

theorem decode?_eq (h : f.bitCount < 2 ^ 32) (raw : UInt64) (signed : Bool) :
    f.decode? raw signed = some (f.decode raw signed) := by
  simp only [decode?, numerator?_eq h, Option.bind_eq_bind, Option.bind_some]
  rfl

/-! ## Two's complement -/

/-- What the integers of a word are in a format of at most 64 bits. -/
structure TwosComplement (f : FixedPoint) (raw : UInt64) : Prop where
  signed : ∀ n : ℤ, f.numerator raw true = n ↔
    n ≡ raw.toNat [ZMOD 2 ^ f.bitCount] ∧ -2 ^ (f.bitCount - 1) ≤ n ∧ n < 2 ^ (f.bitCount - 1)
  unsigned : ∀ n : ℤ, f.numerator raw false = n ↔
    n ≡ raw.toNat [ZMOD 2 ^ f.bitCount] ∧ 0 ≤ n ∧ n < 2 ^ f.bitCount
  /-- The signed integer is written as the code that it was read from. -/
  back : ∃ code, f.code? (f.numerator raw true) = some code ∧
    code.toNat = raw.toNat % 2 ^ f.bitCount
  /-- Only the conversion of the integer to a float can lose a code. -/
  recovered : Denotes (Float.ofInt (f.numerator raw true)) (f.numerator raw true) →
    (f.encode (f.decode raw true)).toNat = raw.toNat % 2 ^ f.bitCount

theorem numerator_signed_iff (h : f.bitCount ≤ 64) (raw : UInt64) (n : ℤ) :
    f.numerator raw true = n ↔ n ≡ raw.toNat [ZMOD 2 ^ f.bitCount] ∧
      -2 ^ (f.bitCount - 1) ≤ n ∧ n < 2 ^ (f.bitCount - 1) := by
  have hpower : (2 : ℤ) ^ f.bitCount = (2 ^ f.bitCount : ℕ) := by push_cast; rfl
  constructor
  · rintro rfl
    refine ⟨?_, le_numerator h raw, numerator_lt h raw⟩
    rw [numerator_eq_bmod h, Int.ModEq, hpower, Int.bmod_emod]
  · rintro ⟨hmod, hlower, hupper⟩
    rw [Int.ModEq, hpower] at hmod
    rw [numerator_eq_bmod h, ← Int.emod_bmod, ← hmod, Int.emod_bmod, bmod_eq_self hlower hupper]

theorem numerator_unsigned_iff (h : f.bitCount ≤ 64) (raw : UInt64) (n : ℤ) :
    f.numerator raw false = n ↔
      n ≡ raw.toNat [ZMOD 2 ^ f.bitCount] ∧ 0 ≤ n ∧ n < 2 ^ f.bitCount := by
  have hpos : (0 : ℤ) < 2 ^ f.bitCount := by positivity
  rw [numerator_unsigned h, Int.ModEq]
  constructor
  · rintro rfl
    exact ⟨Int.emod_emod .., Int.emod_nonneg _ hpos.ne', Int.emod_lt_of_pos _ hpos⟩
  · rintro ⟨hmod, hlower, hupper⟩
    rw [← hmod, Int.emod_eq_of_lt hlower hupper]

/-- A word is too short for the sign of a wider format. -/
theorem numerator_of_wide (hcount : f.bitCount < 2 ^ 32) (h : 64 < f.bitCount) (raw : UInt64)
    (signed : Bool) :
    f.numerator raw signed = raw.toNat := by
  have hsign (code : UInt64) : f.signSet code = false := by
    rw [signSet, totalBits_of_lt hcount, decide_eq_false (not_le.2 h), Bool.false_and]
  have hmask : (raw &&& f.mask).toNat = raw.toNat := by
    rw [mask, totalBits_of_lt hcount, if_pos h.le, UInt64.toNat_and]
    exact (Nat.and_two_pow_sub_one_eq_mod raw.toNat 64).trans (Nat.mod_eq_of_lt raw.toNat_lt)
  unfold numerator
  simp only [hsign, Bool.and_false, Bool.false_eq_true, if_false, hmask]

/-- The integer of a word has the word's bits. -/
theorem toNat_word_numerator (h : f.bitCount ≤ 64) (raw : UInt64) :
    (f.word (f.numerator raw true)).toNat = raw.toNat % 2 ^ f.bitCount := by
  have hmod : f.numerator raw true % 2 ^ f.bitCount = raw.toNat % 2 ^ f.bitCount :=
    ((numerator_signed_iff h raw _).1 rfl).1
  rw [← toNat_word h] at hmod
  exact_mod_cast hmod

theorem twosComplement (hwords : f.bitCount < 2 ^ 32) (h : f.bitCount ≤ 64) (raw : UInt64) :
    f.TwosComplement raw where
  signed := numerator_signed_iff h raw
  unsigned := numerator_unsigned_iff h raw
  back := by
    have hlower := le_numerator h raw
    have hupper := numerator_lt h raw
    refine ⟨_, code?_eq hwords _, ?_⟩
    rw [min_eq_left h, min_eq_right (by omega), max_eq_right hlower, toNat_word_numerator h]
  recovered hexact := by
    have hrounded : Denotes (Float.ofInt (f.numerator raw true)) (rounded (f.numerator raw true)) :=
      denotes_ofInt (abs_le_two_pow_1023 (by omega) (abs_numerator_le h raw))
    have hupper := numerator_lt h raw
    rw [encode_decode_eq_word h raw (hrounded.unique hexact), min_eq_right (by omega),
      toNat_word_numerator h]

/-- For every format whose bits can be counted, the checked codec has values, and they are those of
the codec. -/
theorem integers_exact (h : f.bitCount < 2 ^ 32) (raw : UInt64) :
    (∀ signed, f.numerator? raw signed = some (f.numerator raw signed) ∧
      f.decode? raw signed = some (f.decode raw signed)) ∧
    (∀ x, f.encode? x = some (f.encode x)) ∧
    (f.bitCount ≤ 64 → f.TwosComplement raw) ∧
    (64 < f.bitCount → ∀ signed, f.numerator raw signed = raw.toNat) :=
  ⟨fun signed => ⟨numerator?_eq h raw signed, decode?_eq h raw signed⟩, encode?_eq h,
    fun hfits => twosComplement h hfits raw, fun hwide => numerator_of_wide h hwide raw⟩

/-- All bits of a word are one in formats of 1, 64 and 65 bits. -/
theorem integers_exact_of_ones :
    (bitCount ⟨0, 0⟩ < 2 ^ 32 ∧ numerator ⟨0, 0⟩ 18446744073709551615 true = -1) ∧
    (bitCount ⟨31, 32⟩ < 2 ^ 32 ∧ numerator ⟨31, 32⟩ 18446744073709551615 true = -1) ∧
    (bitCount ⟨32, 32⟩ < 2 ^ 32 ∧
      numerator ⟨32, 32⟩ 18446744073709551615 true = 18446744073709551615) := by
  refine ⟨⟨by decide, ?_⟩, ⟨by decide, ?_⟩, by decide, ?_⟩
  · obtain ⟨-, -, hnarrow, -⟩ := integers_exact (f := ⟨0, 0⟩) (by decide) 18446744073709551615
    exact ((hnarrow (by decide)).signed (-1)).2 (by decide +kernel)
  · obtain ⟨-, -, hnarrow, -⟩ := integers_exact (f := ⟨31, 32⟩) (by decide) 18446744073709551615
    exact ((hnarrow (by decide)).signed (-1)).2 (by decide +kernel)
  · obtain ⟨-, -, -, hwide⟩ := integers_exact (f := ⟨32, 32⟩) (by decide) 18446744073709551615
    exact hwide (by decide) true

end FixedPoint

end CableCapture
