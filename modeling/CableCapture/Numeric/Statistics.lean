import CableCapture.Numeric.SignedNumber

/-!
# Statistics of a signal

Population statistics of a list of numbers; the kurtosis of a normal distribution is zero. Empty and
constant signals give zeros. Numbers are taken with their signs, because the median orders NaNs by them;
nothing else depends on the sign of a NaN.
-/

namespace CableCapture

open Binary64

-- ---------------------------------------------------------------------------
-- Features of a signal
-- ---------------------------------------------------------------------------

namespace Signal

def mean (xs : List Float) : Float :=
  sum xs / Float.ofNat xs.length

/-- The mean of a function of the distances from `center`. -/
def meanDeviation (f : Float → Float) (center : Float) (xs : List Float) : Float :=
  mean (xs.map fun x => f (x - center))

/-- Where neighbours differ in being at least zero. -/
def zeroCrossings (xs : List Float) : Nat :=
  (xs.zip xs.tail).countP fun (x, y) => (0.0 ≤ x : Bool) != (0.0 ≤ y : Bool)

/-- The middle one of the ordered numbers, or the mean of the two middle ones. -/
def median (numbers : List SignedNumber) : Float :=
  let sorted := (numbers.mergeSort fun a b => a.orderKey ≤ b.orderKey).map SignedNumber.value
  let middle := sorted.length / 2
  if sorted.isEmpty then 0.0
  else if sorted.length % 2 = 0 then (sorted.getD (middle - 1) 0.0 + sorted.getD middle 0.0) / 2.0
  else sorted.getD middle 0.0

end Signal

-- ---------------------------------------------------------------------------
-- All statistics together
-- ---------------------------------------------------------------------------

structure Statistics where
  mean : Float
  median : Float
  stdDev : Float
  variance : Float
  /-- The mean of the squares. -/
  power : Float
  peakToPeak : Float
  /-- The mean distance from the mean. -/
  meanAbsDeviation : Float
  skewness : Float
  kurtosis : Float
  /-- The greatest magnitude over the root of the power. -/
  crestFactor : Float
  zeroCrossingRate : Float
  zeroCrossings : Nat
deriving DecidableEq, Inhabited

namespace Statistics

/-- The statistics of an empty signal. -/
def zero : Statistics where
  mean := 0.0
  median := 0.0
  stdDev := 0.0
  variance := 0.0
  power := 0.0
  peakToPeak := 0.0
  meanAbsDeviation := 0.0
  skewness := 0.0
  kurtosis := 0.0
  crestFactor := 0.0
  zeroCrossingRate := 0.0
  zeroCrossings := 0

/-- The statistics of numbers with signs. -/
def ofNumbers (numbers : List SignedNumber) : Statistics :=
  let xs := numbers.map SignedNumber.value
  if xs.isEmpty then zero
  else
    let center := Signal.mean xs
    let variance := Signal.meanDeviation (Binary64.power · 2) center xs
    let stdDev := variance.sqrt
    let power := Signal.mean (xs.map fun x => x * x)
    let rms := power.sqrt
    let peak := xs.foldl (fun acc x => greatest acc x.abs) 0.0
    let crossings := Signal.zeroCrossings xs
    let spread := 0.0 < stdDev
    { mean := center
      median := Signal.median numbers
      stdDev
      variance
      power
      peakToPeak := xs.foldl greatest (-infinity) - xs.foldl least infinity
      meanAbsDeviation := Signal.meanDeviation Float.abs center xs
      skewness :=
        if spread then Signal.meanDeviation (Binary64.power · 3) center xs / Binary64.power stdDev 3
        else 0.0
      kurtosis :=
        if spread then
          Signal.meanDeviation (Binary64.power · 4) center xs / Binary64.power variance 2 - 3.0
        else 0.0
      crestFactor := if 0.0 < rms then peak / rms else 0.0
      zeroCrossingRate :=
        if 1 < xs.length then Float.ofNat crossings / Float.ofNat (xs.length - 1) else 0.0
      zeroCrossings := crossings }

/-- The statistics of numbers. -/
def compute (xs : List Float) : Statistics :=
  ofNumbers (xs.map SignedNumber.ofFloat)

end Statistics

end CableCapture
