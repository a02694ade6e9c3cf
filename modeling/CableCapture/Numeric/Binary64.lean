/-!
# Binary64 numbers

Exact views of 64-bit floating-point numbers. A finite number is a significand times a power of two,
so rounding to an integer is done on natural numbers, halves going away from zero. Powers, sums and
extrema fix the order in which their operations are carried out.
-/

namespace CableCapture.Binary64

-- Powers are those of the core library, whatever else is imported.
attribute [local instance (high)] instPowNat

-- ---------------------------------------------------------------------------
-- Bit fields
-- ---------------------------------------------------------------------------

/-- The sign bit is set. -/
def isNegative (bits : UInt64) : Bool :=
  2 ^ (63 : Nat) ≤ bits.toNat

def exponentField (bits : UInt64) : Nat :=
  bits.toNat / 2 ^ (52 : Nat) % 2 ^ (11 : Nat)

def fractionField (bits : UInt64) : Nat :=
  bits.toNat % 2 ^ (52 : Nat)

/-- Neither infinite nor a NaN. -/
def isFinite (bits : UInt64) : Bool :=
  exponentField bits < 2047

/-- The integer part of the form `significand * 2 ^ exponent` of a finite magnitude. -/
def significand (bits : UInt64) : Nat :=
  if exponentField bits = 0 then fractionField bits else 2 ^ (52 : Nat) + fractionField bits

def exponent (bits : UInt64) : Int :=
  max (exponentField bits) 1 - 1075

-- ---------------------------------------------------------------------------
-- Rounding
-- ---------------------------------------------------------------------------

/-- The natural number nearest to `m * 2 ^ e`; a half goes up. -/
def nearestNat (m : Nat) (e : Int) : Nat :=
  if 0 ≤ e then m * 2 ^ e.toNat
  else (2 * m + 2 ^ (-e).toNat) / (2 * 2 ^ (-e).toNat)

/-- The integer nearest to a finite number; a half goes away from zero. -/
def nearestInt (x : Float) : Int :=
  let bits := x.toBits
  let n := nearestNat (significand bits) (exponent bits)
  if isNegative bits then -n else n

/-- The nearest integer as a number that keeps the sign of `x`, so of a zero too. What is not
finite stays. -/
def round (x : Float) : Float :=
  let bits := x.toBits
  if isFinite bits then
    let n := Float.ofNat (nearestNat (significand bits) (exponent bits))
    if isNegative bits then -n else n
  else x

/-- The nearest integer within bounds. An infinity goes to the bound on its side, a NaN to zero. -/
def saturate (low high : Int) (x : Float) : Int :=
  if isFinite x.toBits then max low (min high (nearestInt x))
  else if x.isNaN then 0
  else if isNegative x.toBits then low else high

-- ---------------------------------------------------------------------------
-- Powers, sums and extrema
-- ---------------------------------------------------------------------------

/-- `r * x ^ n` by repeated squaring, from the lowest binary digit of `n`. -/
def powerTimes (r x : Float) (n : Nat) : Float :=
  let r := if n % 2 = 1 then r * x else r
  if n / 2 = 0 then r else powerTimes r (x * x) (n / 2)
termination_by n

/-- An integer power by repeated squaring; a negative one is the reciprocal of the positive one. -/
def power (x : Float) (n : Int) : Float :=
  let r := powerTimes 1.0 x n.natAbs
  if n < 0 then 1.0 / r else r

/-- The sum from the left. The empty sum is negative zero, which changes no other sum. -/
def sum (xs : List Float) : Float :=
  xs.foldl (· + ·) (-0.0)

/-- The lesser of two numbers, or the other one if one is a NaN. -/
def least (x y : Float) : Float :=
  if x.isNaN then y else if y.isNaN then x else if y < x then y else x

/-- The greater of two numbers, or the other one if one is a NaN. -/
def greatest (x y : Float) : Float :=
  if x.isNaN then y else if y.isNaN then x else if x < y then y else x

def infinity : Float := 1.0 / 0.0

/-- Rounds to so many decimal places. Where the scaled value leaves the range of numbers, the value
stays as it is. -/
def roundTo (places : UInt32) (x : Float) : Float :=
  let scale := power 10.0 (min places.toNat (2 ^ (31 : Nat) - 1))
  let scaled := x * scale
  if isFinite scaled.toBits then round scaled / scale else x

end CableCapture.Binary64
