import CableCapture.Bytes.Chunks
import CableCapture.Bytes.Word
import CableCapture.Fault
import CableCapture.Numeric.Complex

/-!
# Fixed-point samples

A format Q(a,b) has a sign bit, `a` integer bits and `b` fractional bits. A code is the low bits of a
64-bit word in two's complement; its value is the code over two to the `b`. Complex samples are
written component by component, each one least significant byte first.
-/

namespace CableCapture

-- Powers are those of the core library, whatever else is imported.
attribute [local instance (high)] instPowNat

structure FixedPoint where
  intBits : UInt32
  fracBits : UInt32
deriving DecidableEq, Repr

namespace FixedPoint

/-- The format of symbols, channel estimates and soft decisions. -/
def q2_13 : FixedPoint := ⟨2, 13⟩

/-- The format of pre-equalizer taps. -/
def q1_14 : FixedPoint := ⟨1, 14⟩

variable (f : FixedPoint)

/-- The sign bit and the bits before and after the point, added up in a word of 32 bits. -/
def totalBits : Nat :=
  (f.intBits + f.fracBits + 1).toNat

/-- The bytes of one component; the bits have to fill whole bytes of a 64-bit word. -/
def byteWidth : Except Fault Nat :=
  if f.totalBits % 8 = 0 ∧ f.totalBits ≤ 64 then .ok (f.totalBits / 8)
  else .error (.unalignedFormat f.intBits f.fracBits)

/-- Two to the number of fractional bits. The exponent is read as a signed 32-bit number, so from
`2 ^ 31` on it is negative. -/
def scale : Float :=
  Binary64.power 2.0 f.fracBits.toInt32.toInt

/-- The bits of a word that belong to a code. -/
def mask : UInt64 :=
  if 64 ≤ f.totalBits then .ofNat (2 ^ (64 : Nat) - 1) else (1 <<< UInt64.ofNat f.totalBits) - 1

/-- The sign bit of a code is set. Formats of more than 64 bits have no sign bit in a word. -/
def signSet (code : UInt64) : Bool :=
  f.totalBits ≤ 64 && (code >>> UInt64.ofNat (f.totalBits - 1)) &&& 1 == 1

/-- The integer that a word's code stands for. -/
def numerator (raw : UInt64) (signed : Bool) : Int :=
  let code := raw &&& f.mask
  if signed && f.signSet code then code.toNat - 2 ^ f.totalBits else code.toNat

def decode (raw : UInt64) (signed : Bool) : Float :=
  Float.ofInt (f.numerator raw signed) / f.scale

/-- The word of a signed code. -/
def word (code : Int) : UInt64 :=
  (Int64.ofInt code).toUInt64 &&& f.mask

/-- The code of the nearest value that has one: halves go away from zero, what is out of range goes
to the nearer end of it, and a NaN to zero. -/
def encode (x : Float) : UInt64 :=
  let bound : Int := 2 ^ (min f.totalBits 64 - 1)
  f.word (Binary64.saturate (-bound) (bound - 1) (x * f.scale))

-- ---------------------------------------------------------------------------
-- Streams of complex samples
-- ---------------------------------------------------------------------------

/-- The value of one component's bytes. -/
def decodeBytes (bytes : List UInt8) (signed : Bool) : Float :=
  f.decode (.ofNat (LittleEndian.toNat bytes)) signed

/-- The bytes of one component. -/
def encodeBytes (width : Nat) (x : Float) : List UInt8 :=
  LittleEndian.ofNat width (f.encode x).toNat

/-- One sample of `2 * width` bytes, the real part first. -/
def decodeSample (width : Nat) (signed : Bool) (sample : List UInt8) : Complex where
  re := f.decodeBytes (sample.take width) signed
  im := f.decodeBytes (sample.drop width) signed

def encodeSample (width : Nat) (c : Complex) : List UInt8 :=
  f.encodeBytes width c.re ++ f.encodeBytes width c.im

def decodeStream (bytes : List UInt8) (signed : Bool) : Except Fault (List Complex) := do
  let width ← f.byteWidth
  let stride := 2 * width
  if bytes.length % stride = 0 then
    return (chunksOf stride bytes).map (f.decodeSample width signed)
  else
    throw (.lengthMismatch (.partialSample bytes.length stride))

def encodeStream (samples : List Complex) : Except Fault (List UInt8) := do
  let width ← f.byteWidth
  return samples.flatMap (f.encodeSample width)

end FixedPoint

end CableCapture
