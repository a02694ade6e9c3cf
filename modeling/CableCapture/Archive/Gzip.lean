import CableCapture.Archive.Checksum
import CableCapture.Archive.Inflate
import CableCapture.Archive.Input

/-!
# Gzip and zlib files

Deflated data between a header and checksums. Of a gzip file only the first member is read, and what
follows the data of either format is ignored.
-/

namespace CableCapture

-- Powers are those of the core library, whatever else is imported.
attribute [local instance (high)] instPowNat

-- ---------------------------------------------------------------------------
-- Gzip
-- ---------------------------------------------------------------------------

namespace Gzip

/-- The longest name or comment in a header. -/
def maxTextLength : Nat := 65535

/-- A zero-terminated text, if a header has one. -/
def text (present : Bool) : Input Unit := do
  if present then
    let name ← Input.toZero
    Input.require (name.length ≤ maxTextLength)

/-- Identification, method, flags, time and system, then what the flags announce: an extra field, a
name, a comment and the low half of the header's checksum. Unknown flags are refused. -/
def header : Input Unit := do
  let whole ← get
  let fixed ← Input.take 10
  let flag := fun (n : Nat) => (fixed.getD 3 0).toNat / 2 ^ n % 2 == 1
  Input.require (fixed.take 3 = [0x1F, 0x8B, 8])
  Input.require (!(flag 5 || flag 6 || flag 7))
  if flag 2 then
    let size ← Input.number 2
    let _ ← Input.take size
  text (flag 3)
  text (flag 4)
  if flag 1 then
    let covered := whole.take (whole.length - (← get).length)
    let sum ← Input.number 2
    Input.require (sum = (Checksum.crc32 covered).toNat % 65536)

/-- The data of the first member, whose checksum and size have to agree. -/
def member : Input (List UInt8) := do
  header
  let (data, rest) ← Inflate.run (← get)
  set rest
  let sum ← Input.number 4
  let size ← Input.number 4
  Input.require (sum = (Checksum.crc32 data).toNat)
  Input.require (size = data.length % 2 ^ (32 : Nat))
  return data

def decompress (bytes : List UInt8) : Option (List UInt8) :=
  member.run' bytes

end Gzip

-- ---------------------------------------------------------------------------
-- Zlib
-- ---------------------------------------------------------------------------

namespace Zlib

/-- A method byte and a flag byte that make a multiple of 31 together, without a preset dictionary
and with a window of at most 32 KiB. -/
def header : Input Unit := do
  let fixed ← Input.take 2
  let method := (fixed.getD 0 0).toNat
  let flags := (fixed.getD 1 0).toNat
  Input.require ((method * 256 + flags) % 31 = 0)
  Input.require (flags / 32 % 2 = 0)
  Input.require (method % 16 = 8)
  Input.require (method / 16 ≤ 7)

/-- The data, which has to agree with its checksum. -/
def stream : Input (List UInt8) := do
  header
  let (data, rest) ← Inflate.run (← get)
  set rest
  let sum := BigEndian.toNat (← Input.take 4)
  Input.require (sum = (Checksum.adler32 data).toNat)
  return data

def decompress (bytes : List UInt8) : Option (List UInt8) :=
  stream.run' bytes

end Zlib

end CableCapture
