import CableCapture.Numeric.Shortest
import CableCapture.Report
import CableCapture.Text.Json

/-!
# The text of reports

A report as JSON. Numbers have their shortest decimals; what is not finite is null.
-/

namespace CableCapture

namespace ReportText

open JsonValue

def fields (entries : List (String × JsonValue)) : JsonValue :=
  object (entries.map fun (name, value) => (name.toList.map Char.toNat, value))

def float (x : Float) : JsonValue :=
  match Shortest.text? x with
  | some digits => number digits
  | none => null

def floats (xs : List Float) : JsonValue :=
  array (xs.map float)

def optionalText : Option String → JsonValue
  | some s => ofString s
  | none => null

def statistics (s : Statistics) : JsonValue :=
  fields
    [("mean", float s.mean), ("median", float s.median), ("std_dev", float s.stdDev),
     ("variance", float s.variance), ("power", float s.power),
     ("peak_to_peak", float s.peakToPeak), ("mean_abs_deviation", float s.meanAbsDeviation),
     ("skewness", float s.skewness), ("kurtosis", float s.kurtosis),
     ("crest_factor", float s.crestFactor), ("zero_crossing_rate", float s.zeroCrossingRate),
     ("zero_crossings", ofNat s.zeroCrossings)]

def envelope (e : Envelope) : JsonValue :=
  fields
    [("channel_id", ofNat e.channel.toNat), ("capture_count", ofNat e.captureCount),
     ("min", floats e.least.values), ("avg", floats e.average.values),
     ("max", floats e.greatest.values), ("min_stats", statistics e.least.statistics),
     ("avg_stats", statistics e.average.statistics),
     ("max_stats", statistics e.greatest.statistics)]

def summaryRow (r : CaptureIndex.SummaryRow) : JsonValue :=
  fields
    [("mac_address", ofString r.mac.display), ("channel_id", ofNat r.channel.toNat),
     ("capture_count", ofNat r.captureCount),
     ("file_types", array (r.kinds.map fun kind => ofString kind.name)),
     ("first_capture", optionalText r.firstCapture), ("last_capture", optionalText r.lastCapture)]

def profileTotals (profile : UInt8) (c : CodewordCounts) : JsonValue :=
  fields
    [("profile_id", ofNat profile.toNat), ("total_codewords", ofNat c.total.toNat),
     ("corrected", ofNat c.corrected.toNat), ("uncorrectable", ofNat c.uncorrectable.toNat)]

def fecRow (r : FecRow) : JsonValue :=
  fields
    [("mac_address", ofString r.mac.display), ("channel_id", ofNat r.channel.toNat),
     ("profiles", array (r.totals.toList.map fun (profile, c) => profileTotals profile c))]

/-- A report with the time when it was made. -/
def report [Calendar] (time : UInt32) (r : Report) : JsonValue :=
  fields
    [("generated_at", ofString (Calendar.rfc3339 time)), ("capture_count", ofNat r.captureCount),
     ("channels", array (r.channels.map summaryRow)), ("rxmer", array (r.rxMer.map envelope)),
     ("fec", array (r.fec.map fecRow))]

end ReportText

end CableCapture
