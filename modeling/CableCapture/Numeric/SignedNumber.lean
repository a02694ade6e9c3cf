import CableCapture.Numeric.Binary64

/-!
# Numbers with signs

There is one NaN among numbers, but its bit patterns have two signs, which an order of bit patterns
tells apart. A number is kept here together with its sign. A NaN keeps its sign in a calculation, the
first one of two prevails, and the sum of opposite infinities is a negative NaN.
-/

namespace CableCapture

-- Powers are those of the core library, whatever else is imported.
attribute [local instance (high)] instPowNat

structure SignedNumber where
  value : Float
  /-- The sign bit is set. -/
  isNegative : Bool
deriving DecidableEq

namespace SignedNumber

/-- A number with its own sign; a NaN counts as positive. -/
def ofFloat (x : Float) : SignedNumber :=
  ⟨x, Binary64.isNegative x.toBits⟩

/-- The number with a bit pattern. -/
def ofBits (bits : UInt64) : SignedNumber :=
  ⟨Float.ofBits bits, Binary64.isNegative bits⟩

/-- Negative numbers before positive ones, each by magnitude; a NaN is further out than the infinity
of its sign. -/
def orderKey (a : SignedNumber) : Int :=
  let magnitude : Int := (a.value.toBits.toNat % 2 ^ (63 : Nat) : Nat)
  if a.isNegative then -1 - magnitude else magnitude

/-- A function that leaves every NaN a NaN, and gives none for another number. -/
def map (f : Float → Float) (a : SignedNumber) : SignedNumber :=
  if a.value.isNaN then ⟨f a.value, a.isNegative⟩ else ofFloat (f a.value)

def add (a b : SignedNumber) : SignedNumber :=
  let sum := a.value + b.value
  if a.value.isNaN then ⟨sum, a.isNegative⟩
  else if b.value.isNaN then ⟨sum, b.isNegative⟩
  else if sum.isNaN then ⟨sum, true⟩
  else ofFloat sum

@[simp] theorem value_ofFloat (x : Float) : (ofFloat x).value = x := rfl

@[simp] theorem value_map (f : Float → Float) (a : SignedNumber) :
    (a.map f).value = f a.value := by
  unfold map
  split <;> rfl

@[simp] theorem value_add (a b : SignedNumber) : (a.add b).value = a.value + b.value := by
  simp only [add]
  split
  · rfl
  · split
    · rfl
    · split <;> rfl

end SignedNumber

end CableCapture
