/-!
# Back references

Compressed data refers to bytes already produced by their distance from the end. A reference may
overlap what it produces, and what lies before the start of the output counts as zero bytes.
-/

namespace CableCapture

/-- Appends `length` bytes, each one equal to the byte `distance` places before it. -/
def copyBack (distance : Nat) : (length : Nat) → ByteArray → ByteArray
  | 0, out => out
  | length + 1, out =>
    let byte := if distance ≤ out.size then (out[out.size - distance]?).getD 0 else 0
    copyBack distance length (out.push byte)

/-- Appends the bytes of a list. -/
def appendBytes (out : ByteArray) (bytes : List UInt8) : ByteArray :=
  bytes.foldl ByteArray.push out

end CableCapture
