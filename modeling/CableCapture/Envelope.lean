import CableCapture.Fault
import CableCapture.Numeric.Statistics

/-!
# Envelopes

The least, the average and the greatest value at every place of several series, rounded to a number
of decimal places, each with its statistics.
-/

namespace CableCapture

/-- A series with its statistics. -/
structure Trace where
  values : List Float
  statistics : Statistics
deriving DecidableEq

namespace Trace

/-- The trace of numbers with signs. -/
def ofNumbers (numbers : List SignedNumber) : Trace :=
  { values := numbers.map SignedNumber.value, statistics := .ofNumbers numbers }

def ofValues (values : List Float) : Trace :=
  { values, statistics := .compute values }

end Trace

structure Envelope where
  channel : UInt8
  captureCount : Nat
  least : Trace
  average : Trace
  greatest : Trace
deriving DecidableEq

namespace Envelope

/-- Combines series place by place from the left, starting from the same value everywhere. -/
def combine {α : Type} (f : α → α → α) (start : α) (width : Nat) (series : List (List α)) :
    List α :=
  series.foldl (List.zipWith f) (List.replicate width start)

/-- The average of every place. -/
def averages (width : Nat) (places : UInt32) (series : List (List SignedNumber)) :
    List SignedNumber :=
  let count := Float.ofNat series.length
  let sums := combine SignedNumber.add (.ofFloat 0.0) width series
  sums.map (SignedNumber.map fun sum => Binary64.roundTo places (sum / count))

/-- The envelope of series of one length, rounded to so many places. NaNs show in the average alone. -/
def ofNumbers (channel : UInt8) (places : UInt32) (series : List (List SignedNumber)) :
    Except Fault Envelope :=
  let width := (series.headD []).length
  match series.find? fun numbers => numbers.length ≠ width with
  | some other => .error (.lengthMismatch (.unequalSeries channel width other.length))
  | none =>
    let values := series.map (List.map SignedNumber.value)
    let extremes := fun f start => (combine f start width values).map (Binary64.roundTo places)
    .ok
      { channel
        captureCount := series.length
        least := .ofValues (extremes Binary64.least Binary64.infinity)
        average := .ofNumbers (averages width places series)
        greatest := .ofValues (extremes Binary64.greatest (-Binary64.infinity)) }

/-- The envelope of series of numbers. -/
def compute (channel : UInt8) (places : UInt32) (series : List (List Float)) :
    Except Fault Envelope :=
  ofNumbers channel places (series.map (List.map SignedNumber.ofFloat))

end Envelope

end CableCapture
