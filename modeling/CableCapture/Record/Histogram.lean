import CableCapture.Bytes.Chunks
import CableCapture.Record.Basic

/-!
# Downstream histograms

How long the signal dwelt in each amplitude bin and how often it entered it. A histogram belongs to a
device and to no channel.
-/

namespace CableCapture

structure Histogram where
  preamble : Preamble
  mac : MacAddress
  symmetry : UInt8
  dwellCounts : List UInt32
  hitCounts : List UInt32
deriving DecidableEq

namespace Histogram

instance : CaptureRecord Histogram where
  preamble := preamble
  channel := fun _ => 0
  mac := mac

/-- Four-byte counters that fill a block; the fault names the block. -/
def counters (block : String) (data : List UInt8) : Except Fault (List UInt32) :=
  if data.length % 4 = 0 then .ok ((chunksOf 4 data).map BigEndian.toUInt32)
  else .error (.lengthMismatch (.partialCounter block data.length 4))

def reader (preamble : Preamble) : Reader Histogram := do
  let mac ← Reader.mac "mac_address"
  let symmetry ← Reader.uint8 "symmetry"
  let dwell ← Reader.declared "dwell_count_len"
  let hits ← Reader.declared "hit_count_len"
  Reader.finish "histogram hit counts"
  let dwellCounts ← Reader.check (counters "dwell counts" dwell)
  let hitCounts ← Reader.check (counters "hit counts" hits)
  return { preamble, mac, symmetry, dwellCounts, hitCounts }

def decode (h : Header) : Except Fault Histogram := do
  let preamble ← h.expect .histogram []
  (reader preamble).decode h.payload

/-- The payload that decodes to the record. -/
def toPayload (r : Histogram) : List UInt8 :=
  r.mac.octets ++ [r.symmetry] ++ declaredBytes (r.dwellCounts.flatMap BigEndian.ofUInt32) ++
    declaredBytes (r.hitCounts.flatMap BigEndian.ofUInt32)

def totalHits (r : Histogram) : UInt64 :=
  r.hitCounts.foldl (fun total hits => total + hits.toUInt64) 0

end Histogram

end CableCapture
