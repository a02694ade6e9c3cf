import CableCapture.Bytes.Chunks
import CableCapture.Numeric.Binary64
import CableCapture.Record.Basic

/-!
# Spectrum analyses

Amplitudes over a range of frequencies, in segments of equally many bins around equally spaced
centres; the last segment may be shorter.
-/

namespace CableCapture

structure Spectrum where
  preamble : Preamble
  channel : UInt8
  mac : MacAddress
  firstCenterHz : UInt32
  lastCenterHz : UInt32
  spanHz : UInt32
  binsPerSegment : UInt16
  noiseBandwidth : UInt16
  windowFunction : UInt16
  /-- Amplitudes in dB by segment. -/
  segments : List (List Float)
deriving DecidableEq

namespace Spectrum

instance : CaptureRecord Spectrum where
  preamble := preamble
  channel := channel
  mac := mac

/-- The amplitude of a signed code of hundredths of a dB, in dB. -/
def amplitudeOfCode (code : Int16) : Float :=
  Float.ofInt code.toInt / 100.0

def codeOfAmplitude (amplitude : Float) : Int16 :=
  .ofInt (Binary64.nearestInt (amplitude * 100.0))

/-- Segments of two-byte codes. -/
def segmentsOf (binsPerSegment : UInt16) (data : List UInt8) :
    Except Fault (List (List Float)) :=
  if data.length % 2 ≠ 0 then .error (.lengthMismatch (.partialBin data.length))
  else if data.isEmpty then .ok []
  else if binsPerSegment = 0 then .error (.lengthMismatch .noBins)
  else
    let amplitudes := (chunksOf 2 data).map fun code => amplitudeOfCode (BigEndian.toInt16 code)
    .ok (chunksOf binsPerSegment.toNat amplitudes)

def reader (preamble : Preamble) : Reader Spectrum := do
  let channel ← Reader.uint8 "channel_id"
  let mac ← Reader.mac "mac_address"
  let firstCenterHz ← Reader.uint32 "first_segment_center_hz"
  let lastCenterHz ← Reader.uint32 "last_segment_center_hz"
  let spanHz ← Reader.uint32 "segment_span_hz"
  let binsPerSegment ← Reader.uint16 "bins_per_segment"
  let noiseBandwidth ← Reader.uint16 "noise_bandwidth"
  let windowFunction ← Reader.uint16 "window_function"
  let data ← Reader.declared "data_len"
  Reader.finish "spectrum amplitudes"
  let segments ← Reader.check (segmentsOf binsPerSegment data)
  return { preamble, channel, mac, firstCenterHz, lastCenterHz, spanHz, binsPerSegment,
           noiseBandwidth, windowFunction, segments }

def decode (h : Header) : Except Fault Spectrum := do
  let preamble ← h.expect .spectrum []
  (reader preamble).decode h.payload

-- ---------------------------------------------------------------------------
-- Views
-- ---------------------------------------------------------------------------

/-- All amplitudes in the order of the wire. -/
def amplitudes (r : Spectrum) : List Float :=
  r.segments.flatten

/-- The payload that decodes to the record. -/
def toPayload (r : Spectrum) : List UInt8 :=
  [r.channel] ++ r.mac.octets ++ BigEndian.ofUInt32 r.firstCenterHz ++
    BigEndian.ofUInt32 r.lastCenterHz ++ BigEndian.ofUInt32 r.spanHz ++
    BigEndian.ofUInt16 r.binsPerSegment ++ BigEndian.ofUInt16 r.noiseBandwidth ++
    BigEndian.ofUInt16 r.windowFunction ++
    declaredBytes (r.amplitudes.flatMap fun a => BigEndian.ofInt16 (codeOfAmplitude a))

/-- The centre of every segment, evenly from the first to the last one. -/
def centers (r : Spectrum) : List Float :=
  let n := r.segments.length
  let first := Float.ofNat r.firstCenterHz.toNat
  if n ≤ 1 then List.replicate n first
  else
    let step := (Float.ofNat r.lastCenterHz.toNat - first) / Float.ofNat (n - 1)
    (List.range n).map fun k => first + Float.ofNat k * step

/-- The frequency of every bin, in the order of `amplitudes`. -/
def frequencies (r : Spectrum) : List Float :=
  let span := Float.ofNat r.spanHz.toNat
  let binWidth := span / Float.ofNat (max r.binsPerSegment.toNat 1)
  (r.centers.zip r.segments).flatMap fun (center, segment) =>
    let start := center - span / 2.0
    (List.range segment.length).map fun j => start + Float.ofNat j * binWidth

end Spectrum

end CableCapture
