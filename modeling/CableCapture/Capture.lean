import CableCapture.Record.ChannelEstimate
import CableCapture.Record.Constellation
import CableCapture.Record.FecSummary
import CableCapture.Record.Histogram
import CableCapture.Record.ModulationProfile
import CableCapture.Record.PreEqualization
import CableCapture.Record.RxMer
import CableCapture.Record.Spectrum
import CableCapture.Record.SymbolCapture

/-!
# Captures

A decoded capture of any kind. The kind in the header chooses the decoder. Decoding accounts for every
byte of the payload; identifying a capture reads only the channel and the address in front of it.
-/

namespace CableCapture

inductive Capture where
  | symbolCapture (record : SymbolCapture)
  | channelEstimate (record : ChannelEstimate)
  | constellation (record : Constellation)
  | rxMer (record : RxMer)
  | histogram (record : Histogram)
  | preEqualization (record : PreEqualization)
  | fecSummary (record : FecSummary)
  | spectrum (record : Spectrum)
  | modulationProfile (record : ModulationProfiles)
deriving DecidableEq

namespace Capture

def preamble : Capture → Preamble
  | symbolCapture r => r.preamble
  | channelEstimate r => r.preamble
  | constellation r => r.preamble
  | rxMer r => r.preamble
  | histogram r => r.preamble
  | preEqualization r => r.preamble
  | fecSummary r => r.preamble
  | spectrum r => r.preamble
  | modulationProfile r => r.preamble

/-- The channel of a capture; a histogram is filed under channel 0. -/
def channel : Capture → UInt8
  | symbolCapture r => r.channel
  | channelEstimate r => r.channel
  | constellation r => r.channel
  | rxMer r => r.channel
  | histogram _ => 0
  | preEqualization r => r.channel
  | fecSummary r => r.channel
  | spectrum r => r.channel
  | modulationProfile r => r.channel

/-- The address of the modem that took the capture. -/
def mac : Capture → MacAddress
  | symbolCapture r => r.mac
  | channelEstimate r => r.mac
  | constellation r => r.mac
  | rxMer r => r.mac
  | histogram r => r.mac
  | preEqualization r => r.modemMac
  | fecSummary r => r.mac
  | spectrum r => r.mac
  | modulationProfile r => r.mac

instance : CaptureRecord Capture where
  preamble := preamble
  channel := channel
  mac := mac

def kind (c : Capture) : CaptureKind := c.preamble.kind

def time (c : Capture) : UInt32 := c.preamble.captureTime

/-- The complex samples of a capture that holds any. -/
def samples? : Capture → Option (List Complex)
  | symbolCapture r => some r.samples
  | channelEstimate r => some r.coefficients
  | constellation r => some r.softDecisions
  | preEqualization r => some r.taps
  | _ => none

-- ---------------------------------------------------------------------------
-- Decoding
-- ---------------------------------------------------------------------------

/-- The capture of a header and its payload. -/
def decode (h : Header) : Except Fault Capture := do
  match ← h.kind with
  | .symbolCapture => return symbolCapture (← SymbolCapture.decode h)
  | .channelEstimate => return channelEstimate (← ChannelEstimate.decode h)
  | .constellation => return constellation (← Constellation.decode h)
  | .rxMer => return rxMer (← RxMer.decode h)
  | .histogram => return histogram (← Histogram.decode h)
  | .preEqualization | .preEqualizationLastUpdate =>
    return preEqualization (← PreEqualization.decode h)
  | .fecSummary => return fecSummary (← FecSummary.decode h)
  | .spectrum => return spectrum (← Spectrum.decode h)
  | .modulationProfile => return modulationProfile (← ModulationProfiles.decode h)
  | .latencyReport => throw (.noDecoder .latencyReport)

/-- The capture in the bytes of a file. -/
def ofBytes (bytes : List UInt8) : Except Fault Capture := do
  decode (← Header.parse bytes)

-- ---------------------------------------------------------------------------
-- Encoding
-- ---------------------------------------------------------------------------

def toPayload : Capture → List UInt8
  | symbolCapture r => r.toPayload
  | channelEstimate r => r.toPayload
  | constellation r => r.toPayload
  | rxMer r => r.toPayload
  | histogram r => r.toPayload
  | preEqualization r => r.toPayload
  | fecSummary r => r.toPayload
  | spectrum r => r.toPayload
  | modulationProfile r => r.toPayload

/-- The header under which a capture of a kind is written. -/
def versionOf : CaptureKind → UInt8
  | .symbolCapture => 1
  | .channelEstimate => 2
  | .constellation => 3
  | .rxMer => 4
  | .histogram => 5
  | .preEqualization => 6
  | .preEqualizationLastUpdate => 7
  | .fecSummary => 8
  | .spectrum => 9
  | .modulationProfile => 10
  | .latencyReport => 1

/-- The header and the payload of a capture. -/
def toHeader (c : Capture) : Header :=
  let version := versionOf c.kind
  { tag := "PNN", version, major := c.preamble.major, minor := c.preamble.minor
    captureTime := c.time, layout := .ofVersion version, payload := c.toPayload }

/-- The file that decodes to the capture. -/
def toBytes (c : Capture) : List UInt8 :=
  c.toHeader.toBytes

end Capture

-- ---------------------------------------------------------------------------
-- Identification
-- ---------------------------------------------------------------------------

/-- What places a capture in an index. -/
structure Identity where
  kind : CaptureKind
  channel : UInt8
  mac : MacAddress
  captureTime : UInt32
deriving DecidableEq, Repr

namespace Identity

/-- The channel and the address in front of a payload. -/
def reader (kind : CaptureKind) : Reader (UInt8 × MacAddress) :=
  match kind with
  | .histogram => do
    let mac ← Reader.mac "mac_address"
    return (0, mac)
  | .latencyReport => throw (.noDecoder kind)
  | _ => do
    let channel ← Reader.uint8 "channel_id"
    let mac ← Reader.mac "mac_address"
    return (channel, mac)

/-- The identity of a header and its payload. -/
def ofHeader (h : Header) : Except Fault Identity := do
  let kind ← h.kind
  let (channel, mac) ← (reader kind).decode h.payload
  return { kind, channel, mac, captureTime := h.captureTime }

end Identity

end CableCapture
