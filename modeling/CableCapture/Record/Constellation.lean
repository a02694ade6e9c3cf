import CableCapture.Numeric.FixedPoint
import CableCapture.Record.Basic

/-!
# Constellation displays

Soft decisions of a downstream channel at one modulation order.
-/

namespace CableCapture

structure Constellation where
  preamble : Preamble
  channel : UInt8
  mac : MacAddress
  zeroFrequencyHz : UInt32
  modulationOrder : UInt16
  sampleSymbols : UInt16
  spacingKhz : UInt8
  softDecisions : List Complex
deriving DecidableEq

namespace Constellation

instance : CaptureRecord Constellation where
  preamble := preamble
  channel := channel
  mac := mac

def reader (preamble : Preamble) : Reader Constellation := do
  let channel ← Reader.uint8 "channel_id"
  let mac ← Reader.mac "mac_address"
  let zeroFrequencyHz ← Reader.uint32 "zero_frequency_hz"
  let modulationOrder ← Reader.uint16 "modulation_order"
  let sampleSymbols ← Reader.uint16 "num_sample_symbols"
  let spacingKhz ← Reader.uint8 "spacing_khz"
  let data ← Reader.declared "data_len"
  Reader.finish "constellation soft decisions"
  let softDecisions ← Reader.check (FixedPoint.q2_13.decodeStream data true)
  return { preamble, channel, mac, zeroFrequencyHz, modulationOrder, sampleSymbols, spacingKhz,
           softDecisions }

def decode (h : Header) : Except Fault Constellation := do
  let preamble ← h.expect .constellation []
  (reader preamble).decode h.payload

/-- The payload that decodes to the record. -/
def toPayload (r : Constellation) : List UInt8 :=
  [r.channel] ++ r.mac.octets ++ BigEndian.ofUInt32 r.zeroFrequencyHz ++
    BigEndian.ofUInt16 r.modulationOrder ++ BigEndian.ofUInt16 r.sampleSymbols ++
    [r.spacingKhz] ++
    declaredBytes (r.softDecisions.flatMap (FixedPoint.q2_13.encodeSample 2))

end Constellation

end CableCapture
