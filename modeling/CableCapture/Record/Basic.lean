import CableCapture.Header
import CableCapture.Reader

/-!
# Decoded records

What every decoded record can be asked for, and the subcarrier addressing that several kinds share.
-/

namespace CableCapture

/-- A decoded capture of one kind. -/
class CaptureRecord (α : Type) where
  preamble : α → Preamble
  channel : α → UInt8
  mac : α → MacAddress

/-- The capture time of a record. -/
def CaptureRecord.time {α : Type} [CaptureRecord α] (record : α) : UInt32 :=
  (CaptureRecord.preamble record).captureTime

/-- Where the subcarriers of an OFDM channel lie. -/
structure SubcarrierLayout where
  zeroFrequencyHz : UInt32
  firstActive : UInt16
  spacingKhz : UInt8
deriving DecidableEq, Repr

namespace SubcarrierLayout

/-- The frequency of the active subcarrier at an index, in Hz. -/
def frequency (layout : SubcarrierLayout) (index : Nat) : UInt64 :=
  let subcarrier := layout.firstActive.toUInt64 + UInt64.ofNat index
  layout.zeroFrequencyHz.toUInt64 + subcarrier * layout.spacingKhz.toUInt64 * 1000

/-- The frequencies of the first `count` active subcarriers. -/
def frequencies (layout : SubcarrierLayout) (count : Nat) : List UInt64 :=
  (List.range count).map layout.frequency

def reader : Reader SubcarrierLayout := do
  let zeroFrequencyHz ← Reader.uint32 "zero_frequency_hz"
  let firstActive ← Reader.uint16 "first_active_subcarrier"
  let spacingKhz ← Reader.uint8 "spacing_khz"
  return { zeroFrequencyHz, firstActive, spacingKhz }

def toBytes (layout : SubcarrierLayout) : List UInt8 :=
  BigEndian.ofUInt32 layout.zeroFrequencyHz ++ BigEndian.ofUInt16 layout.firstActive ++
    [layout.spacingKhz]

end SubcarrierLayout

end CableCapture
