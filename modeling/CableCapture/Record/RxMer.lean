import CableCapture.Numeric.Binary64
import CableCapture.Record.Basic

/-!
# Receive modulation error ratios

One level for each active subcarrier of a downstream channel, in quarters of a dB from 0 to 63.5.
-/

namespace CableCapture

structure RxMer where
  preamble : Preamble
  channel : UInt8
  mac : MacAddress
  layout : SubcarrierLayout
  /-- In dB. -/
  levels : List Float
deriving DecidableEq

namespace RxMer

instance : CaptureRecord RxMer where
  preamble := preamble
  channel := channel
  mac := mac

/-- The level of a quarter-dB code, in dB; the two highest codes stand for the same level. -/
def levelOfCode (code : UInt8) : Float :=
  let level := Float.ofNat code.toNat / 4.0
  if 63.5 < level then 63.5 else level

/-- The lowest code of a level. -/
def codeOfLevel (level : Float) : UInt8 :=
  .ofNat (Binary64.nearestInt (level * 4.0)).toNat

def reader (preamble : Preamble) : Reader RxMer := do
  let channel ← Reader.uint8 "channel_id"
  let mac ← Reader.mac "mac_address"
  let layout ← SubcarrierLayout.reader
  let data ← Reader.declared "data_len"
  Reader.finish "RxMER data"
  return { preamble, channel, mac, layout, levels := data.map levelOfCode }

def decode (h : Header) : Except Fault RxMer := do
  let preamble ← h.expect .rxMer []
  (reader preamble).decode h.payload

/-- The payload that decodes to the record. -/
def toPayload (r : RxMer) : List UInt8 :=
  [r.channel] ++ r.mac.octets ++ r.layout.toBytes ++ declaredBytes (r.levels.map codeOfLevel)

-- ---------------------------------------------------------------------------
-- Views
-- ---------------------------------------------------------------------------

def frequencies (r : RxMer) : List UInt64 :=
  r.layout.frequencies r.levels.length

/-- The mean level; zero if there are no subcarriers. -/
def meanLevel (r : RxMer) : Float :=
  if r.levels.isEmpty then 0.0 else Binary64.sum r.levels / Float.ofNat r.levels.length

/-- The Shannon limit of every subcarrier, in bits for a symbol. -/
def shannonBits (r : RxMer) : List Float :=
  r.levels.map fun level => (1.0 + Float.pow 10.0 (level / 10.0)).log2

end RxMer

end CableCapture
