import CableCapture.Numeric.FixedPoint
import CableCapture.Record.Basic

/-!
# Channel estimates

One complex coefficient for each active subcarrier of a downstream channel.
-/

namespace CableCapture

structure ChannelEstimate where
  preamble : Preamble
  channel : UInt8
  mac : MacAddress
  layout : SubcarrierLayout
  coefficients : List Complex
deriving DecidableEq

namespace ChannelEstimate

instance : CaptureRecord ChannelEstimate where
  preamble := preamble
  channel := channel
  mac := mac

def reader (preamble : Preamble) : Reader ChannelEstimate := do
  let channel ← Reader.uint8 "channel_id"
  let mac ← Reader.mac "mac_address"
  let layout ← SubcarrierLayout.reader
  let data ← Reader.declared "coefficient_len"
  Reader.finish "channel estimate coefficients"
  let coefficients ← Reader.check (FixedPoint.q2_13.decodeStream data true)
  return { preamble, channel, mac, layout, coefficients }

def decode (h : Header) : Except Fault ChannelEstimate := do
  let preamble ← h.expect .channelEstimate []
  (reader preamble).decode h.payload

/-- The payload that decodes to the record. -/
def toPayload (r : ChannelEstimate) : List UInt8 :=
  [r.channel] ++ r.mac.octets ++ r.layout.toBytes ++
    declaredBytes (r.coefficients.flatMap (FixedPoint.q2_13.encodeSample 2))

def frequencies (r : ChannelEstimate) : List UInt64 :=
  r.layout.frequencies r.coefficients.length

/-- The level of every coefficient, in dB. -/
def levels [Modulus] (r : ChannelEstimate) : List Float :=
  r.coefficients.map Complex.level

end ChannelEstimate

end CableCapture
