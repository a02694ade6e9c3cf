import CableCapture.Text.Blank
import CableCapture.Text.Hex

/-!
# Hardware addresses

A 48-bit hardware address is six octets, written as colon-separated pairs of lower-case digits.
Reading accepts any placing of colons and hyphens. Addresses are ordered octet by octet.
-/

namespace CableCapture

structure MacAddress where
  octets : List UInt8
  length_octets : octets.length = 6
deriving DecidableEq, Repr

namespace MacAddress

/-- The address that a modem writes when the field was never filled in. -/
def unset : MacAddress := ⟨List.replicate 6 0, rfl⟩

instance : Inhabited MacAddress := ⟨unset⟩

def isUnset (m : MacAddress) : Bool := m = unset

/-- The address of six octets; other byte strings have none. -/
def ofOctets? (octets : List UInt8) : Option MacAddress :=
  if h : octets.length = 6 then some ⟨octets, h⟩ else none

theorem ofOctets?_octets (m : MacAddress) : ofOctets? m.octets = some m := by
  simp [ofOctets?, m.length_octets]

-- ---------------------------------------------------------------------------
-- Text
-- ---------------------------------------------------------------------------

/-- Six pairs of lower-case digits with colons between them. -/
def display (m : MacAddress) : String :=
  .ofList ([':'].intercalate (m.octets.map Hex.ofByte))

/-- What a text holds between its outer blanks, less colons and hyphens. -/
def digitsOf (text : String) : List Char :=
  (trimBlanks text.toList).filter fun c => c ≠ ':' && c ≠ '-'

/-- The address that a text spells with twelve digits. -/
def ofText? (text : String) : Option MacAddress :=
  (Hex.toBytes? (digitsOf text)).bind ofOctets?

-- ---------------------------------------------------------------------------
-- Order
-- ---------------------------------------------------------------------------

instance : Ord MacAddress := ⟨compareOn octets⟩

instance : Std.TransOrd MacAddress := inferInstanceAs (Std.TransCmp (compareOn octets))

instance : Std.LawfulEqOrd MacAddress where
  eq_of_compare {a b} h := by
    have : a.octets = b.octets := Std.LawfulEqOrd.eq_of_compare (α := List UInt8) h
    cases a
    cases b
    simp_all

end MacAddress

end CableCapture
