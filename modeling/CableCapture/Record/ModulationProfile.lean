import CableCapture.Record.Basic

/-!
# Modulation profiles

Which modulation each subcarrier of a downstream channel uses, by profile. A profile is a list of
schemes: a range of subcarriers of one modulation, or one that alternates between two.
-/

namespace CableCapture

-- ---------------------------------------------------------------------------
-- Schemes
-- ---------------------------------------------------------------------------

inductive ModulationScheme where
  | range (modulation : UInt8) (subcarriers : UInt16)
  | skip (mainModulation skipModulation : UInt8) (subcarriers : UInt16)
deriving DecidableEq, Repr

namespace ModulationScheme

def subcarriers : ModulationScheme → UInt16
  | range _ subcarriers => subcarriers
  | skip _ _ subcarriers => subcarriers

def rangeReader : Reader ModulationScheme := do
  let modulation ← Reader.uint8 "range.modulation"
  let subcarriers ← Reader.uint16 "range.num_subcarriers"
  return range modulation subcarriers

def skipReader : Reader ModulationScheme := do
  let mainModulation ← Reader.uint8 "skip.main_modulation"
  let skipModulation ← Reader.uint8 "skip.skip_modulation"
  let subcarriers ← Reader.uint16 "skip.num_subcarriers"
  return skip mainModulation skipModulation subcarriers

/-- The rest of a scheme after its type byte. -/
def bodyReader (type : UInt8) : Reader ModulationScheme :=
  if type = 0 then rangeReader
  else if type = 1 then skipReader
  else throw (.corrupted (.unknownScheme type))

def reader : Reader ModulationScheme := do
  let type ← Reader.uint8 "scheme_type"
  bodyReader type

def toBytes : ModulationScheme → List UInt8
  | range modulation subcarriers => [0, modulation] ++ BigEndian.ofUInt16 subcarriers
  | skip mainModulation skipModulation subcarriers =>
    [1, mainModulation, skipModulation] ++ BigEndian.ofUInt16 subcarriers

theorem shrinks_rangeReader : rangeReader.Shrinks :=
  Reader.Shrinks.bind (Reader.Shrinks.uint8 _) fun _ =>
    Reader.Shrinks.bind (Reader.Shrinks.uint16 _) fun _ => Reader.Shrinks.pure _

theorem shrinks_skipReader : skipReader.Shrinks :=
  Reader.Shrinks.bind (Reader.Shrinks.uint8 _) fun _ =>
    Reader.Shrinks.bind (Reader.Shrinks.uint8 _) fun _ =>
      Reader.Shrinks.bind (Reader.Shrinks.uint16 _) fun _ => Reader.Shrinks.pure _

theorem shrinks_bodyReader (type : UInt8) : (bodyReader type).Shrinks := by
  by_cases range : type = 0
  · rw [bodyReader, if_pos range]
    exact shrinks_rangeReader
  · by_cases skip : type = 1
    · rw [bodyReader, if_neg range, if_pos skip]
      exact shrinks_skipReader
    · rw [bodyReader, if_neg range, if_neg skip]
      exact Reader.Shrinks.throw _

theorem consumes_reader : reader.Consumes :=
  Reader.Consumes.bind (Reader.Consumes.uint8 _) shrinks_bodyReader

end ModulationScheme

-- ---------------------------------------------------------------------------
-- Profiles
-- ---------------------------------------------------------------------------

structure ModulationProfile where
  profile : UInt8
  schemes : List ModulationScheme
deriving DecidableEq, Repr

namespace ModulationProfile

/-- Schemes that fill their bytes. -/
def schemesOf (bytes : List UInt8) : Except Fault (List ModulationScheme) :=
  Reader.untilEnd ModulationScheme.reader ModulationScheme.consumes_reader bytes

def reader : Reader ModulationProfile := do
  let profile ← Reader.uint8 "profile_id"
  let size ← Reader.uint16 "profile_len"
  let body ← Reader.take "profile_len" size.toNat
  let schemes ← Reader.check (schemesOf body)
  return { profile, schemes }

theorem consumes_reader : reader.Consumes :=
  Reader.Consumes.bind (Reader.Consumes.uint8 _) fun _ =>
    Reader.Shrinks.bind (Reader.Shrinks.uint16 _) fun _ =>
      Reader.Shrinks.bind (Reader.Shrinks.take _ _) fun _ =>
        Reader.Shrinks.bind (Reader.Shrinks.check _) fun _ => Reader.Shrinks.pure _

def toBytes (p : ModulationProfile) : List UInt8 :=
  let body := p.schemes.flatMap ModulationScheme.toBytes
  [p.profile] ++ BigEndian.ofNat 2 body.length ++ body

def totalSubcarriers (p : ModulationProfile) : UInt32 :=
  p.schemes.foldl (fun total scheme => total + scheme.subcarriers.toUInt32) 0

end ModulationProfile

-- ---------------------------------------------------------------------------
-- Records
-- ---------------------------------------------------------------------------

structure ModulationProfiles where
  preamble : Preamble
  channel : UInt8
  mac : MacAddress
  layout : SubcarrierLayout
  profiles : List ModulationProfile
deriving DecidableEq

namespace ModulationProfiles

instance : CaptureRecord ModulationProfiles where
  preamble := preamble
  channel := channel
  mac := mac

/-- Profiles that fill their bytes. -/
def profilesOf (bytes : List UInt8) : Except Fault (List ModulationProfile) :=
  Reader.untilEnd ModulationProfile.reader ModulationProfile.consumes_reader bytes

def reader (preamble : Preamble) : Reader ModulationProfiles := do
  let channel ← Reader.uint8 "channel_id"
  let mac ← Reader.mac "mac_address"
  let layout ← SubcarrierLayout.reader
  let data ← Reader.declared "data_len"
  Reader.finish "modulation profile data"
  let profiles ← Reader.check (profilesOf data)
  return { preamble, channel, mac, layout, profiles }

def decode (h : Header) : Except Fault ModulationProfiles := do
  let preamble ← h.expect .modulationProfile []
  (reader preamble).decode h.payload

/-- The payload that decodes to the record. -/
def toPayload (r : ModulationProfiles) : List UInt8 :=
  [r.channel] ++ r.mac.octets ++ r.layout.toBytes ++
    declaredBytes (r.profiles.flatMap ModulationProfile.toBytes)

end ModulationProfiles

end CableCapture
