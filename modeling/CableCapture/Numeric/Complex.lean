import CableCapture.Numeric.Binary64

/-!
# Complex samples

Samples in rectangular form, with their views as magnitude, level in decibels and phase.
-/

namespace CableCapture

structure Complex where
  re : Float
  im : Float
deriving DecidableEq, Inhabited

/-- What the library takes for the magnitude of a sample. -/
class Modulus where
  norm : Complex → Float

namespace Complex

/-- The squared magnitude, which is the energy of the sample. -/
def normSq (c : Complex) : Float :=
  c.re * c.re + c.im * c.im

def norm [Modulus] (c : Complex) : Float :=
  Modulus.norm c

/-- The angle in radians. -/
def phase (c : Complex) : Float :=
  Float.atan2 c.im c.re

end Complex

/-- The level that stands for a magnitude of zero. -/
def levelFloor : Float := -200.0

/-- A magnitude in decibels, at least `levelFloor`. -/
def levelOf (magnitude : Float) : Float :=
  if 0.0 < magnitude then Binary64.greatest (20.0 * magnitude.log10) levelFloor else levelFloor

/-- The level of a sample. -/
def Complex.level [Modulus] (c : Complex) : Float :=
  levelOf c.norm

end CableCapture
