import CableCapture.Archive.Checksum
import CableCapture.Archive.History

/-!
# LZ4 files

A frame of blocks that are stored or compressed by literal runs and back references. Only the first
frame is read. Where the input ends early, the output so far is the answer; what is present has to be
right.
-/

namespace CableCapture.Lz4

-- Powers are those of the core library, whatever else is imported.
attribute [local instance (high)] instPowNat

-- ---------------------------------------------------------------------------
-- Compressed blocks
-- ---------------------------------------------------------------------------

/-- The bytes of a block and the output it may add. -/
structure Block where
  data : ByteArray
  /-- The size of the output before the block. -/
  start : Nat
  /-- Where back references may reach. -/
  historyStart : Nat
  capacity : Nat

namespace Block

/-- A length goes on in the next byte while bytes are 255; after each one at least `reserve` bytes
have to be left. -/
def lengthFrom (b : Block) (reserve : Nat) (length position : Nat) : Option (Nat × Nat) :=
  if position < b.data.size then
    let byte := ((b.data[position]?).getD 0).toNat
    if b.data.size < position + 1 + reserve then none
    else if byte = 255 then lengthFrom b reserve (length + byte) (position + 1)
    else some (length + byte, position + 1)
  else none
termination_by b.data.size - position

/-- The length in half a token, with its continuation. -/
def fieldLength (b : Block) (reserve field position : Nat) : Option (Nat × Nat) :=
  if field = 15 then b.lengthFrom reserve 15 position else some (field, position)

/-- Literals from `position` on may be followed by a back reference. A short run is held to the rules
for the end of a block only in its last 16 bytes. -/
def continuesAfter (b : Block) (length position produced : Nat) : Bool :=
  (length < 15 && position + 17 ≤ b.data.size && produced + 32 ≤ b.capacity) ||
    (position + length + 8 ≤ b.data.size && produced + length + 12 ≤ b.capacity)

/-- The sequences of a block from a position on. The last one is a run of literals that ends with the
block, and the last five bytes of a full output are literals. -/
def sequences (b : Block) (position : Nat) (out : ByteArray) : Option ByteArray := do
  let token := (← b.data[position]?).toNat
  let (literals, next) ← b.fieldLength 0 (token / 16) (position + 1)
  let literalsEnd := next + literals
  let produced := out.size - b.start
  if b.continuesAfter literals next produced then
    let out := appendBytes out (b.data.extract next literalsEnd).toList
    let low := ((b.data[literalsEnd]?).getD 0).toNat
    let high := ((b.data[literalsEnd + 1]?).getD 0).toNat
    let distance := low + 256 * high
    let (field, following) ← b.fieldLength 4 (token % 16) (literalsEnd + 2)
    let length := field + 4
    if distance ≤ out.size - b.historyStart ∧ out.size - b.start + length + 5 ≤ b.capacity then
      let out := copyBack distance length out
      if b.data.size - following < b.data.size - position then b.sequences following out else none
    else none
  else if literalsEnd = b.data.size ∧ produced + literals ≤ b.capacity then
    return appendBytes out (b.data.extract next literalsEnd).toList
  else none
termination_by b.data.size - position

end Block

-- ---------------------------------------------------------------------------
-- Frames
-- ---------------------------------------------------------------------------

/-- What a frame header says. -/
structure Frame where
  linkedBlocks : Bool
  blockChecksums : Bool
  contentSize : Nat
  contentChecksum : Bool
  maxBlockSize : Nat

/-- What the front of the input is. -/
inductive Start where
  /-- The header is not all there, or the frame holds no data. -/
  | noData
  | frame (frame : Frame) (rest : List UInt8)

/-- Reads a frame header; the flags are judged before the rest of the header is there. -/
def start (bytes : List UInt8) : Option Start := do
  if bytes.length < 7 then return .noData
  let magic := LittleEndian.toNat (bytes.take 4)
  if magic / 16 = 0x184D2A5 then return .noData
  if magic ≠ 0x184D2204 then failure
  let flags := (bytes.getD 4 0).toNat
  let flag := fun (n : Nat) => flags / 2 ^ n % 2 == 1
  if flags / 64 ≠ 1 ∨ flag 1 then failure
  let size := 7 + (if flag 3 then 8 else 0) + (if flag 0 then 4 else 0)
  if bytes.length < size then return .noData
  let descriptor := (bytes.getD 5 0).toNat
  if descriptor / 128 = 1 ∨ descriptor % 16 ≠ 0 ∨ descriptor / 16 < 4 then failure
  let sum := (Checksum.xx32 ((bytes.take (size - 1)).drop 4)).toNat / 256 % 256
  if (bytes.getD (size - 1) 0).toNat ≠ sum then failure
  let frame : Frame :=
    { linkedBlocks := !flag 5
      blockChecksums := flag 4
      contentSize := if flag 3 then LittleEndian.toNat ((bytes.drop 6).take 8) else 0
      contentChecksum := flag 2
      maxBlockSize := 2 ^ (8 + 2 * (descriptor / 16)) }
  return .frame frame (bytes.drop size)

/-- The checksum at the front of the bytes agrees, or is not all there. -/
def agrees (data bytes : List UInt8) : Bool :=
  bytes.length < 4 || LittleEndian.toNat (bytes.take 4) == (Checksum.xx32 data).toNat

/-- The end of a frame: a stated size and a checksum have to agree with the output. -/
def finish (f : Frame) (out : ByteArray) (bytes : List UInt8) : Option ByteArray :=
  if f.contentSize ≠ 0 ∧ f.contentSize ≠ out.size then none
  else if f.contentChecksum ∧ !agrees out.toList bytes then none
  else some out

/-- Blocks up to the end mark or the end of the input. -/
def blocks (f : Frame) (out : ByteArray) (bytes : List UInt8) : Option ByteArray :=
  if bytes.length < 4 then some out
  else
    let word := LittleEndian.toNat (bytes.take 4)
    let size := word % 2 ^ (31 : Nat)
    let body := bytes.drop 4
    let data := body.take size
    let suffix := body.drop size
    let sumSize := if f.blockChecksums then 4 else 0
    if word = 0 then finish f out body
    else if f.maxBlockSize < size then none
    else if 2 ^ (31 : Nat) ≤ word then
      let out := appendBytes out data
      if body.length < size + sumSize then some out
      else if f.blockChecksums ∧ !agrees data suffix then none
      else blocks f out (suffix.drop sumSize)
    else if body.length < size + sumSize then some out
    else if f.blockChecksums ∧ !agrees data suffix then none
    else
      let block : Block :=
        { data := ⟨data.toArray⟩
          start := out.size
          historyStart := if f.linkedBlocks then 0 else out.size
          capacity := f.maxBlockSize }
      match block.sequences 0 out with
      | none => none
      | some out => blocks f out (suffix.drop sumSize)
termination_by bytes.length
decreasing_by
  · rw [List.length_drop, List.length_drop, List.length_drop]
    omega
  · rw [List.length_drop, List.length_drop, List.length_drop]
    omega

def decompress (bytes : List UInt8) : Option (List UInt8) := do
  match ← start bytes with
  | .noData => return []
  | .frame f rest => return (← blocks f .empty rest).toList

end CableCapture.Lz4
