import CableCapture.Numeric.FixedPoint
import CableCapture.Record.Basic

/-!
# Symbol captures

The time samples of one OFDM symbol, with the settings under which they were taken.
-/

namespace CableCapture

structure SymbolCapture where
  preamble : Preamble
  channel : UInt8
  mac : MacAddress
  sampleRateHz : UInt32
  fftLength : UInt16
  triggerGroup : UInt32
  samples : List Complex
deriving DecidableEq

namespace SymbolCapture

instance : CaptureRecord SymbolCapture where
  preamble := preamble
  channel := channel
  mac := mac

def reader (preamble : Preamble) : Reader SymbolCapture := do
  let channel ← Reader.uint8 "channel_id"
  let mac ← Reader.mac "mac_address"
  let sampleRateHz ← Reader.uint32 "sample_rate_hz"
  let fftLength ← Reader.uint16 "fft_length"
  let triggerGroup ← Reader.uint32 "trigger_group_id"
  let data ← Reader.declared "data_len"
  Reader.finish "symbol capture samples"
  let samples ← Reader.check (FixedPoint.q2_13.decodeStream data true)
  return { preamble, channel, mac, sampleRateHz, fftLength, triggerGroup, samples }

def decode (h : Header) : Except Fault SymbolCapture := do
  let preamble ← h.expect .symbolCapture []
  (reader preamble).decode h.payload

/-- The payload that decodes to the record. -/
def toPayload (r : SymbolCapture) : List UInt8 :=
  [r.channel] ++ r.mac.octets ++ BigEndian.ofUInt32 r.sampleRateHz ++
    BigEndian.ofUInt16 r.fftLength ++ BigEndian.ofUInt32 r.triggerGroup ++
    declaredBytes (r.samples.flatMap (FixedPoint.q2_13.encodeSample 2))

end SymbolCapture

end CableCapture
