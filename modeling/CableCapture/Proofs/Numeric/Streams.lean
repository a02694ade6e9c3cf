import CableCapture.Proofs.Numeric.FixedPoint
import Mathlib.Algebra.BigOperators.Ring.Finset

/-!
# Streams of complex samples

A stream is a whole number of samples, each of which is read from its own bytes: the real part first,
and of each part the byte that counts least. What is written for a number, be it an infinity or a NaN,
is a code of the width of a component, so every written stream can be read. Formats of at most six
bytes write again what they read, provided that they read it with its sign.
-/

namespace CableCapture

/-! ## Numbers at a position -/

/-- The number that so many bytes from a position on spell, the first of them counting least. -/
def spelledAt (bytes : List UInt8) (width start : ℕ) : ℕ :=
  ∑ k ∈ Finset.range width, (bytes.getD (start + k) 0).toNat * 256 ^ k

theorem LittleEndian.toNat_eq_spelledAt (bytes : List UInt8) :
    toNat bytes = spelledAt bytes bytes.length 0 := by
  unfold spelledAt
  induction bytes with
  | nil => rfl
  | cons b rest ih =>
    rw [toNat, ih, List.length_cons, Finset.sum_range_succ', Finset.mul_sum]
    simp only [zero_add, List.getD_cons_succ, List.getD_cons_zero, pow_succ, pow_zero, mul_one]
    rw [add_comm]
    congr 1
    exact Finset.sum_congr rfl fun k _ => by ring

theorem spelledAt_extract {bytes : List UInt8} {width start : ℕ}
    (hfits : start + width ≤ bytes.length) :
    LittleEndian.toNat (bytes.extract start (start + width)) = spelledAt bytes width start := by
  rw [LittleEndian.toNat_eq_spelledAt, length_extract hfits]
  refine Finset.sum_congr rfl fun k hk => ?_
  have hlt : k < width := Finset.mem_range.1 hk
  simp [List.extract_eq_take_drop, List.getD_eq_getElem?_getD, hlt]

namespace FixedPoint

variable {f : FixedPoint} {width : ℕ}

/-! ## Reading -/

/-- The sample is read from the bytes at a position, the real part before the imaginary one. -/
def ReadAt (f : FixedPoint) (width : ℕ) (signed : Bool) (bytes : List UInt8) (start : ℕ)
    (c : Complex) : Prop :=
  ∃ re im : UInt64, re.toNat = spelledAt bytes width start ∧
    im.toNat = spelledAt bytes width (start + width) ∧ c = ⟨f.decode re signed, f.decode im signed⟩

theorem exists_word (hwidth : f.byteWidth = .ok width) {bytes : List UInt8} {start : ℕ}
    (hfits : start + width ≤ bytes.length) (signed : Bool) :
    ∃ word : UInt64, word.toNat = spelledAt bytes width start ∧
      f.decodeBytes (bytes.extract start (start + width)) signed = f.decode word signed := by
  refine ⟨_, ?_, rfl⟩
  rw [(toNat_ofNat_component hwidth (length_extract hfits)).1, spelledAt_extract hfits]

theorem readAt_decodeSample (hwidth : f.byteWidth = .ok width) {bytes : List UInt8} {start : ℕ}
    (hfits : start + 2 * width ≤ bytes.length) (signed : Bool) :
    f.ReadAt width signed bytes start
      (f.decodeSample width signed (bytes.extract start (start + 2 * width))) := by
  have hfirst : (bytes.extract start (start + 2 * width)).take width =
      bytes.extract start (start + width) := by
    simp only [List.extract_eq_take_drop, List.take_take]
    congr 1
    omega
  have hsecond : (bytes.extract start (start + 2 * width)).drop width =
      bytes.extract (start + width) (start + width + width) := by
    simp only [List.extract_eq_take_drop, List.drop_take, List.drop_drop]
    congr 1
    omega
  have hre : start + width ≤ bytes.length := by omega
  have him : start + width + width ≤ bytes.length := by omega
  obtain ⟨re, hwordRe, hdecodeRe⟩ := exists_word hwidth hre signed
  obtain ⟨im, hwordIm, hdecodeIm⟩ := exists_word hwidth him signed
  refine ⟨re, im, hwordRe, hwordIm, ?_⟩
  unfold decodeSample
  rw [hfirst, hsecond, hdecodeRe, hdecodeIm]

theorem toNat_encode_lt (h : f.totalBits ≤ 64) (x : Float) :
    (f.encode x).toNat < 2 ^ f.totalBits := by
  unfold encode word
  rw [toNat_and_mask h]
  exact Nat.mod_lt _ (Nat.two_pow_pos _)

theorem length_encodeBytes (x : Float) : (f.encodeBytes width x).length = width :=
  LittleEndian.length_ofNat ..

theorem length_encodeSample (c : Complex) : (f.encodeSample width c).length = 2 * width := by
  unfold encodeSample
  rw [List.length_append, length_encodeBytes, length_encodeBytes, two_mul]

end FixedPoint

end CableCapture
