import CableCapture.Numeric.FixedPoint
import CableCapture.Numeric.SignedNumber
import CableCapture.Record.Basic

/-!
# Pre-equalization

The equalizer taps that a modem applies before it sends, or those of its last update. Both kinds have
one layout.
-/

namespace CableCapture

structure PreEqualization where
  preamble : Preamble
  channel : UInt8
  modemMac : MacAddress
  /-- The address of the termination system at the other end of the cable. -/
  terminationMac : MacAddress
  layout : SubcarrierLayout
  taps : List Complex
deriving DecidableEq

namespace PreEqualization

instance : CaptureRecord PreEqualization where
  preamble := preamble
  channel := channel
  mac := modemMac

def reader (preamble : Preamble) : Reader PreEqualization := do
  let channel ← Reader.uint8 "channel_id"
  let modemMac ← Reader.mac "cm_mac_address"
  let terminationMac ← Reader.mac "cmts_mac_address"
  let layout ← SubcarrierLayout.reader
  let data ← Reader.declared "equalizer_len"
  Reader.finish "pre-equalizer coefficients"
  let taps ← Reader.check (FixedPoint.q1_14.decodeStream data true)
  return { preamble, channel, modemMac, terminationMac, layout, taps }

def decode (h : Header) : Except Fault PreEqualization := do
  let preamble ← h.expect .preEqualization [.preEqualizationLastUpdate]
  (reader preamble).decode h.payload

/-- The payload that decodes to the record. -/
def toPayload (r : PreEqualization) : List UInt8 :=
  [r.channel] ++ r.modemMac.octets ++ r.terminationMac.octets ++ r.layout.toBytes ++
    declaredBytes (r.taps.flatMap (FixedPoint.q1_14.encodeSample 2))

-- ---------------------------------------------------------------------------
-- Views
-- ---------------------------------------------------------------------------

def isLastUpdate (r : PreEqualization) : Bool :=
  r.preamble.kind = .preEqualizationLastUpdate

def frequencies (r : PreEqualization) : List UInt64 :=
  r.layout.frequencies r.taps.length

/-- The last index of a greatest element, and the element. -/
def lastMax : List Float → Option (Nat × Float)
  | [] => none
  | x :: xs =>
    match lastMax xs with
    | none => some (0, x)
    | some (i, y) =>
      if (SignedNumber.ofFloat x).orderKey ≤ (SignedNumber.ofFloat y).orderKey then some (i + 1, y)
      else some (0, x)

/-- The index and the energy of the strongest tap, the last one of several. -/
def mainTap (r : PreEqualization) : Option (Nat × Float) :=
  lastMax (r.taps.map Complex.normSq)

def mainTapIndex (r : PreEqualization) : Option Nat :=
  r.mainTap.map Prod.fst

/-- The energy of the main tap over the energy of all taps; there is none without energy. -/
def mainTapEnergyRatio (r : PreEqualization) : Option Float := do
  let (_, energy) ← r.mainTap
  let total := Binary64.sum (r.taps.map Complex.normSq)
  if total == 0.0 then none else some (energy / total)

/-- The energy ratio of the main tap, in dB. -/
def mainTapLevel (r : PreEqualization) : Option Float :=
  r.mainTapEnergyRatio.map fun ratio => 10.0 * ratio.log10

end PreEqualization

end CableCapture
