import CableCapture.Record.Basic
import Std.Data.ExtTreeMap

/-!
# Summaries of error correction

Codeword counters of a downstream channel: for each profile a list of counter sets, one for each
interval of the summary's period. Totals add the counters of all sets of a profile.
-/

namespace CableCapture

/-- What a summary covers. -/
inductive FecPeriod where
  | tenMinutes
  | twentyFourHours
  | other (code : UInt8)
deriving DecidableEq, Repr

namespace FecPeriod

def ofCode (code : UInt8) : FecPeriod :=
  if code = 2 then tenMinutes else if code = 3 then twentyFourHours else other code

def code : FecPeriod → UInt8
  | tenMinutes => 2
  | twentyFourHours => 3
  | other code => code

@[simp] theorem code_ofCode (c : UInt8) : (ofCode c).code = c := by
  unfold ofCode
  split
  · simp_all [code]
  · split <;> simp_all [code]

end FecPeriod

-- ---------------------------------------------------------------------------
-- Counters
-- ---------------------------------------------------------------------------

/-- Counters of one interval, which starts at the timestamp. -/
structure CodewordSet where
  timestamp : UInt32
  total : UInt32
  corrected : UInt32
  uncorrectable : UInt32
deriving DecidableEq, Repr

/-- Added counters. -/
structure CodewordCounts where
  total : UInt64
  corrected : UInt64
  uncorrectable : UInt64
deriving DecidableEq, Repr

namespace CodewordCounts

def zero : CodewordCounts := ⟨0, 0, 0⟩

def add (a b : CodewordCounts) : CodewordCounts :=
  ⟨a.total + b.total, a.corrected + b.corrected, a.uncorrectable + b.uncorrectable⟩

/-- The share of codewords that could not be corrected; zero if there are no codewords. -/
def uncorrectableRatio (c : CodewordCounts) : Float :=
  if c.total = 0 then 0.0 else Float.ofNat c.uncorrectable.toNat / Float.ofNat c.total.toNat

end CodewordCounts

namespace CodewordSet

def counts (s : CodewordSet) : CodewordCounts :=
  ⟨s.total.toUInt64, s.corrected.toUInt64, s.uncorrectable.toUInt64⟩

def reader : Reader CodewordSet := do
  let timestamp ← Reader.uint32 "codeword_set.timestamp"
  let total ← Reader.uint32 "codeword_set.total_codewords"
  let corrected ← Reader.uint32 "codeword_set.corrected"
  let uncorrectable ← Reader.uint32 "codeword_set.uncorrectable"
  return { timestamp, total, corrected, uncorrectable }

def toBytes (s : CodewordSet) : List UInt8 :=
  BigEndian.ofUInt32 s.timestamp ++ BigEndian.ofUInt32 s.total ++
    BigEndian.ofUInt32 s.corrected ++ BigEndian.ofUInt32 s.uncorrectable

end CodewordSet

-- ---------------------------------------------------------------------------
-- Profiles
-- ---------------------------------------------------------------------------

structure FecProfile where
  profile : UInt8
  sets : List CodewordSet
deriving DecidableEq, Repr

namespace FecProfile

def reader : Reader FecProfile := do
  let profile ← Reader.uint8 "profile_id"
  let count ← Reader.uint16 "num_sets"
  let sets ← Reader.times CodewordSet.reader count.toNat
  return { profile, sets }

def toBytes (p : FecProfile) : List UInt8 :=
  [p.profile] ++ BigEndian.ofNat 2 p.sets.length ++ p.sets.flatMap CodewordSet.toBytes

end FecProfile

/-- Added counters by profile, in ascending order of profiles. -/
abbrev FecTotals := Std.ExtTreeMap UInt8 CodewordCounts

namespace FecTotals

/-- Adds counters to those of a profile, which is listed from then on. -/
def add (totals : FecTotals) (profile : UInt8) (counts : CodewordCounts) : FecTotals :=
  totals.alter profile fun old => some ((old.getD .zero).add counts)

/-- Adds all sets of a profile. -/
def addProfile (totals : FecTotals) (p : FecProfile) : FecTotals :=
  p.sets.foldl (fun totals s => totals.add p.profile s.counts) (totals.add p.profile .zero)

def ofProfiles (profiles : List FecProfile) : FecTotals :=
  profiles.foldl addProfile ∅

def merge (totals other : FecTotals) : FecTotals :=
  other.foldl add totals

end FecTotals

-- ---------------------------------------------------------------------------
-- Records
-- ---------------------------------------------------------------------------

structure FecSummary where
  preamble : Preamble
  channel : UInt8
  mac : MacAddress
  period : FecPeriod
  profiles : List FecProfile
deriving DecidableEq

namespace FecSummary

instance : CaptureRecord FecSummary where
  preamble := preamble
  channel := channel
  mac := mac

def reader (preamble : Preamble) : Reader FecSummary := do
  let channel ← Reader.uint8 "channel_id"
  let mac ← Reader.mac "mac_address"
  let period ← Reader.uint8 "summary_type"
  let count ← Reader.uint8 "num_profiles"
  let profiles ← Reader.times FecProfile.reader count.toNat
  Reader.finish "FEC summary profiles"
  return { preamble, channel, mac, period := .ofCode period, profiles }

def decode (h : Header) : Except Fault FecSummary := do
  let preamble ← h.expect .fecSummary []
  (reader preamble).decode h.payload

/-- The payload that decodes to the record. -/
def toPayload (r : FecSummary) : List UInt8 :=
  [r.channel] ++ r.mac.octets ++ [r.period.code] ++ BigEndian.ofNat 1 r.profiles.length ++
    r.profiles.flatMap FecProfile.toBytes

def totals (r : FecSummary) : FecTotals :=
  .ofProfiles r.profiles

end FecSummary

end CableCapture
