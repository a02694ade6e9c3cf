import CableCapture.Kind
import CableCapture.MacAddress

/-!
# Faults

Everything that can be wrong with a capture or with a question about captures, one constructor for
each cause. `Fault.message` is the only place where a fault is put into words.
-/

namespace CableCapture

/-- A length that contradicts another one. -/
inductive LengthFault where
  /-- Bytes are left after the last field. -/
  | trailing (count : Nat) (context : String)
  | partialSample (size stride : Nat)
  | partialBin (size : Nat)
  /-- Spectrum data is present although a segment holds no bins. -/
  | noBins
  | partialCounter (field : String) (size width : Nat)
  /-- Two captures of one channel differ in the number of values. -/
  | unequalSeries (channel : UInt8) (first other : Nat)
deriving DecidableEq, Repr

inductive Corruption where
  | unknownScheme (code : UInt8)
  /-- The file's address field was never filled in. -/
  | unsetMac (fileName : String)
deriving DecidableEq, Repr

inductive Fault where
  | truncatedHeader (needed available : Nat)
  | unknownType (tag : String) (version : UInt8)
  /-- The kind is known, but its payload has no binary layout. -/
  | noDecoder (kind : CaptureKind)
  | wrongType (expected found : CaptureKind)
  | truncatedPayload (field : String) (needed available : Nat)
  | lengthMismatch (cause : LengthFault)
  | macMismatch (held offered : MacAddress)
  | unalignedFormat (intBits fracBits : UInt32)
  | corrupted (cause : Corruption)
  | channelNotFound (channel : UInt8)
  | invalidMac (text : String)
deriving DecidableEq, Repr

/-- Numbers in messages are decimal. -/
private def decimal (n : Nat) : String := .ofList (Nat.toDigits 10 n)

def LengthFault.message : LengthFault → String
  | trailing count context => decimal count ++ " trailing bytes after " ++ context
  | partialSample size stride =>
    decimal size ++ " bytes is not a whole number of " ++ decimal stride ++ "-byte complex samples"
  | partialBin size =>
    "spectrum data of " ++ decimal size ++ " bytes is not a whole number of i16 bins"
  | noBins => "spectrum data present but bins_per_segment is 0"
  | partialCounter field size width =>
    field ++ " of " ++ decimal size ++ " bytes is not a multiple of " ++ decimal width
  | unequalSeries channel first other =>
    "channel " ++ decimal channel.toNat ++ " captures carry " ++ decimal first ++ " and " ++
      decimal other ++ " values"

def Corruption.message : Corruption → String
  | unknownScheme code => "unknown modulation scheme type " ++ decimal code.toNat
  | unsetMac fileName => fileName ++ " carries no MAC address"

def Fault.message : Fault → String
  | truncatedHeader needed available =>
    "Truncated header: need " ++ decimal needed ++ " bytes, got " ++ decimal available
  | unknownType tag version => "Unsupported file type: " ++ tag ++ decimal version.toNat
  | noDecoder kind => "Unsupported file type: " ++ kind.code ++ ": no binary decoder"
  | wrongType expected found =>
    "Wrong file type for decoder: expected " ++ expected.display ++ ", got " ++ found.display
  | truncatedPayload field needed available =>
    "Truncated payload: " ++ field ++ " needs " ++ decimal needed ++ " bytes, " ++
      decimal available ++ " available"
  | lengthMismatch cause => "Length mismatch: " ++ cause.message
  | macMismatch held offered =>
    "MAC address mismatch: aggregator holds " ++ held.display ++ ", capture has " ++
      offered.display
  | unalignedFormat intBits fracBits =>
    "Invalid fixed-point format Q(" ++ decimal intBits.toNat ++ "," ++ decimal fracBits.toNat ++
      "): total bits must be byte aligned and at most 64"
  | corrupted cause => "Corrupted data: " ++ cause.message
  | channelNotFound channel => "Channel not found: " ++ decimal channel.toNat
  | invalidMac text => "Invalid MAC address: " ++ text

/-- The address that a text spells; other texts are a fault. -/
def MacAddress.ofText (text : String) : Except Fault MacAddress :=
  match ofText? text with
  | some mac => .ok mac
  | none => .error (.invalidMac text)

end CableCapture
