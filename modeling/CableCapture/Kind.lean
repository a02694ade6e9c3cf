import CableCapture.Text.Blank

/-!
# Kinds of captures

Every kind of capture that a modem can produce, with its code (a three or four letter tag and a
decimal version) and its name. Kinds are ordered as in the code table.
-/

namespace CableCapture

inductive CaptureKind where
  | symbolCapture
  | channelEstimate
  | constellation
  | rxMer
  | histogram
  | preEqualization
  | preEqualizationLastUpdate
  | fecSummary
  | spectrum
  | modulationProfile
  | latencyReport
deriving DecidableEq, Repr, Inhabited

namespace CaptureKind

/-- The code table. -/
def all : List CaptureKind :=
  [symbolCapture, channelEstimate, constellation, rxMer, histogram, preEqualization,
    preEqualizationLastUpdate, fecSummary, spectrum, modulationProfile, latencyReport]

def code : CaptureKind → String
  | symbolCapture => "PNN1"
  | channelEstimate => "PNN2"
  | constellation => "PNN3"
  | rxMer => "PNN4"
  | histogram => "PNN5"
  | preEqualization => "PNN6"
  | preEqualizationLastUpdate => "PNN7"
  | fecSummary => "PNN8"
  | spectrum => "PNN9"
  | modulationProfile => "PNN10"
  | latencyReport => "LLD01"

def name : CaptureKind → String
  | symbolCapture => "SYMBOL_CAPTURE"
  | channelEstimate => "OFDM_CHANNEL_ESTIMATE_COEFFICIENT"
  | constellation => "DOWNSTREAM_CONSTELLATION_DISPLAY"
  | rxMer => "RECEIVE_MODULATION_ERROR_RATIO"
  | histogram => "DOWNSTREAM_HISTOGRAM"
  | preEqualization => "UPSTREAM_PRE_EQUALIZER_COEFFICIENTS"
  | preEqualizationLastUpdate => "UPSTREAM_PRE_EQUALIZER_COEFFICIENTS_LAST_UPDATE"
  | fecSummary => "OFDM_FEC_SUMMARY"
  | spectrum => "SPECTRUM_ANALYSIS"
  | modulationProfile => "OFDM_MODULATION_PROFILE"
  | latencyReport => "LATENCY_REPORT"

/-- The place in the code table. -/
def rank (kind : CaptureKind) : Nat := kind.ctorIdx

theorem getElem?_all_rank (kind : CaptureKind) : all[kind.rank]? = some kind := by
  cases kind <;> rfl

theorem rank_injective {a b : CaptureKind} (h : a.rank = b.rank) : a = b := by
  have := getElem?_all_rank b
  rw [← h, getElem?_all_rank a] at this
  exact Option.some.inj this

/-- The name with the code behind it. -/
def display (kind : CaptureKind) : String :=
  kind.name ++ " (" ++ kind.code ++ ")"

def ofCode? (code : String) : Option CaptureKind :=
  all.find? fun kind => kind.code == code

-- ---------------------------------------------------------------------------
-- Tags and versions
-- ---------------------------------------------------------------------------

/-- What may pad a tag at its end: space, tab, line feed, form feed, carriage return and NUL. -/
def isPadding (c : Char) : Bool :=
  c = ' ' || c = '\t' || c = '\n' || c = '\x0C' || c = '\r' || c = '\x00'

/-- The code that a tag and a version number spell. -/
def lookupKey (tag : String) (version : UInt8) : String :=
  .ofList (trimEnd isPadding tag.toList ++ Nat.toDigits 10 version.toNat)

/-- The kind of a tag and a version number; a combination outside the code table has none. -/
def resolve? (tag : String) (version : UInt8) : Option CaptureKind :=
  ofCode? (lookupKey tag version)

theorem ofCode?_code (kind : CaptureKind) : ofCode? kind.code = some kind := by
  cases kind <;> decide

end CaptureKind

end CableCapture
