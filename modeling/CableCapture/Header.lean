import CableCapture.Bytes.Word
import CableCapture.Fault
import CableCapture.Text.Utf8

/-!
# Capture headers

A capture starts with a three-byte tag, a version, and a major and a minor version. The version byte
alone selects the layout: version 8 stops there, every other version goes on with a big-endian
capture time. All that follows is the payload.
-/

namespace CableCapture

inductive HeaderLayout where
  /-- Six bytes without a capture time. -/
  | compact
  /-- Ten bytes that end in the capture time. -/
  | standard
deriving DecidableEq, Repr

namespace HeaderLayout

def ofVersion (version : UInt8) : HeaderLayout :=
  if version = 8 then compact else standard

def size : HeaderLayout → Nat
  | compact => 6
  | standard => 10

end HeaderLayout

structure Header where
  tag : String
  version : UInt8
  major : UInt8
  minor : UInt8
  /-- Seconds since 1970; zero if the layout has no room for it. -/
  captureTime : UInt32
  layout : HeaderLayout
  payload : List UInt8
deriving DecidableEq, Repr

namespace Header

-- ---------------------------------------------------------------------------
-- Wire form
-- ---------------------------------------------------------------------------

/-- The header at the front of a byte string. A string too short to hold the version byte needs
four bytes, a longer one the size of its layout. -/
def parse (bytes : List UInt8) : Except Fault Header :=
  match bytes with
  | t₀ :: t₁ :: t₂ :: version :: rest =>
    let tag := String.ofList (Utf8.decode [t₀, t₁, t₂])
    match HeaderLayout.ofVersion version, rest with
    | .compact, major :: minor :: payload =>
      .ok { tag, version, major, minor, captureTime := 0, layout := .compact, payload }
    | .standard, major :: minor :: c₀ :: c₁ :: c₂ :: c₃ :: payload =>
      let captureTime := BigEndian.toUInt32 [c₀, c₁, c₂, c₃]
      .ok { tag, version, major, minor, captureTime, layout := .standard, payload }
    | layout, _ => .error (.truncatedHeader layout.size bytes.length)
  | _ => .error (.truncatedHeader 4 bytes.length)

/-- Three bytes for a tag: what is longer is cut, what is shorter is filled up with spaces. -/
def tagBytes (tag : String) : List UInt8 :=
  (Utf8.ofString tag ++ List.replicate 3 0x20).take 3

/-- The wire form. The layout is the one that the version selects, so version 8 drops the capture
time. -/
def toBytes (h : Header) : List UInt8 :=
  let time := match HeaderLayout.ofVersion h.version with
    | .compact => []
    | .standard => BigEndian.ofUInt32 h.captureTime
  tagBytes h.tag ++ [h.version, h.major, h.minor] ++ time ++ h.payload

-- ---------------------------------------------------------------------------
-- Kind
-- ---------------------------------------------------------------------------

def kind? (h : Header) : Option CaptureKind :=
  CaptureKind.resolve? h.tag h.version

/-- The kind of the capture; an unknown one is a fault. -/
def kind (h : Header) : Except Fault CaptureKind :=
  match h.kind? with
  | some kind => .ok kind
  | none => .error (.unknownType h.tag h.version)

end Header

/-- What every decoded record keeps of its header. -/
structure Preamble where
  kind : CaptureKind
  major : UInt8
  minor : UInt8
  captureTime : UInt32
deriving DecidableEq, Repr

namespace Header

def preamble (h : Header) (kind : CaptureKind) : Preamble :=
  { kind, major := h.major, minor := h.minor, captureTime := h.captureTime }

/-- The preamble of a header whose kind is among the accepted ones. The fault names the first of
them. -/
def expect (h : Header) (first : CaptureKind) (others : List CaptureKind) :
    Except Fault Preamble := do
  let found ← h.kind
  if found ∈ first :: others then
    return h.preamble found
  else
    throw (.wrongType first found)

end Header

end CableCapture
