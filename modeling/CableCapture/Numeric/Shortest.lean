import CableCapture.Numeric.Binary64

/-!
# Shortest decimal text of numbers

A positive number is the only one to which all decimals in an interval around it are rounded. Its
shortest decimal is a point of the coarsest decimal grid that has a point in the interval, and of those
the nearest one. The text is positional for exponents between -5 and 16 and always has a point or an
exponent.
-/

namespace CableCapture.Shortest

-- Powers are those of the core library, whatever else is imported.
attribute [local instance (high)] instPowNat

/-- A magnitude `m * 2 ^ e` with the bounds of the interval that is rounded to it, all three as
multiples of `2 ^ e`. The bounds belong to the interval if the significand is even. -/
structure Interval where
  low : Nat
  value : Nat
  high : Nat
  exponent : Int
  closed : Bool

/-- The interval of a positive finite number. Below a power of two the numbers lie closer together. -/
def Interval.ofBits (bits : UInt64) : Interval :=
  let m := Binary64.significand bits
  let narrow := m = 2 ^ (52 : Nat) ∧ 1 < Binary64.exponentField bits
  { low := if narrow then 4 * m - 1 else 4 * m - 2
    value := 4 * m
    high := 4 * m + 2
    exponent := Binary64.exponent bits - 2
    closed := m % 2 = 0 }

/-- The nearest multiple of `10 ^ k` in an interval, of two equally near ones the even one. -/
def Interval.point? (i : Interval) (k : Int) : Option Nat :=
  let num := 2 ^ i.exponent.toNat * 10 ^ (-k).toNat
  let den := 2 ^ (-i.exponent).toNat * 10 ^ k.toNat
  let inside := fun (d : Nat) =>
    if i.closed then i.low * num ≤ d * den ∧ d * den ≤ i.high * num
    else i.low * num < d * den ∧ d * den < i.high * num
  let below := i.value * num / den
  let above := below + 1
  let middle := (below + above) * den
  let isAboveNearer := middle < 2 * i.value * num ∨ middle = 2 * i.value * num ∧ below % 2 = 1
  if inside below then
    if inside above ∧ isAboveNearer then some above else some below
  else if inside above then some above
  else none

/-- The digits and the exponent of the shortest decimal. The search starts with a grid coarser than
the number; seventeen digits always suffice. -/
def decimal (bits : UInt64) : Nat × Int :=
  let i := Interval.ofBits bits
  let start := (i.value.log2 + i.exponent + 1) * 30103 / 100000 + 2
  ((List.range 24).findSome? fun (step : Nat) =>
    (i.point? (start - step)).map fun d => (d, start - (step : Int))).getD (0, 0)

/-- The text of digits times a power of ten. -/
def layout (digits : List Char) (exponent : Int) : List Char :=
  let point := digits.length + exponent
  if 0 ≤ exponent ∧ point ≤ 16 then
    digits ++ List.replicate exponent.toNat '0' ++ ['.', '0']
  else if 0 < point ∧ point ≤ 16 then
    digits.take point.toNat ++ ['.'] ++ digits.drop point.toNat
  else if -5 < point ∧ point ≤ 0 then
    ['0', '.'] ++ List.replicate (-point).toNat '0' ++ digits
  else
    let fraction := if digits.length = 1 then [] else '.' :: digits.drop 1
    let power := point - 1
    let sign := if power < 0 then ['-'] else []
    digits.take 1 ++ fraction ++ ['e'] ++ sign ++ Nat.toDigits 10 power.natAbs

/-- The text of a finite number; other values have none. -/
def text? (x : Float) : Option (List Char) :=
  let bits := x.toBits
  if Binary64.isFinite bits then
    let sign := if Binary64.isNegative bits then ['-'] else []
    if Binary64.significand bits = 0 then some (sign ++ ['0', '.', '0'])
    else
      let (digits, exponent) := decimal bits
      some (sign ++ layout (Nat.toDigits 10 digits) exponent)
  else none

end CableCapture.Shortest
