/-!
# Reading bytes as UTF-8

Well-formed sequences become their characters. Where no character fits, the longest run of bytes
that starts one, or else a single byte, becomes one replacement character.
-/

namespace CableCapture.Utf8

/-- A least and a greatest byte. -/
abbrev Range := UInt8 × UInt8

def Range.Holds (r : Range) (b : UInt8) : Prop := r.1 ≤ b ∧ b ≤ r.2

instance (r : Range) (b : UInt8) : Decidable (r.Holds b) := inferInstanceAs (Decidable (_ ∧ _))

def Range.tail : Range := (0x80, 0xBF)

/-- Where the bytes after a lead byte must lie, or nothing if no character starts with it. -/
def tailRanges (lead : UInt8) : Option (List Range) :=
  if lead ≤ 0x7F then some []
  else if 0xC2 ≤ lead ∧ lead ≤ 0xDF then some [.tail]
  else if lead = 0xE0 then some [(0xA0, 0xBF), .tail]
  else if lead = 0xED then some [(0x80, 0x9F), .tail]
  else if 0xE1 ≤ lead ∧ lead ≤ 0xEF then some [.tail, .tail]
  else if lead = 0xF0 then some [(0x90, 0xBF), .tail, .tail]
  else if lead = 0xF4 then some [(0x80, 0x8F), .tail, .tail]
  else if 0xF1 ≤ lead ∧ lead ≤ 0xF3 then some [.tail, .tail, .tail]
  else none

/-- The longest start of the bytes that lies in the ranges, one byte for one range. -/
def tailRun : List Range → List UInt8 → List UInt8
  | r :: ranges, b :: rest => if r.Holds b then b :: tailRun ranges rest else []
  | _, _ => []

/-- The character of a lead byte and its complete tail: the lead gives what its length marker
leaves over, every other byte gives six bits. -/
def character (lead : UInt8) (tail : List UInt8) : Char :=
  let marker := match tail.length with
    | 0 => 0
    | 1 => 0xC0
    | 2 => 0xE0
    | _ => 0xF0
  Char.ofNat (tail.foldl (fun n b => n * 64 + (b.toNat - 0x80)) (lead.toNat - marker))

def replacement : Char := '\uFFFD'

/-- The characters of a byte string. -/
def decode : List UInt8 → List Char
  | [] => []
  | lead :: rest =>
    match tailRanges lead with
    | none => replacement :: decode rest
    | some ranges =>
      let tail := tailRun ranges rest
      let c := if tail.length = ranges.length then character lead tail else replacement
      c :: decode (rest.drop tail.length)
termination_by bytes => bytes.length

def encode (cs : List Char) : List UInt8 :=
  cs.flatMap String.utf8EncodeChar

/-- The bytes of a text. -/
def ofString (s : String) : List UInt8 :=
  encode s.toList

end CableCapture.Utf8
