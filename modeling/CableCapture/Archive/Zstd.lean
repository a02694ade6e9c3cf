import CableCapture.Archive.Checksum
import CableCapture.Archive.Input

/-!
# Zstandard files

At least one frame, frame after frame up to the end; skippable frames add nothing. Blocks hold stored
bytes or one repeated byte. Entropy-coded data and frames that need a dictionary are refused.
-/

namespace CableCapture.Zstd

-- Powers and sums are those of the core library, whatever else is imported.
attribute [local instance (high)] instPowNat Zero.ofOfNat0

/-- What a frame header says. -/
structure Frame where
  checksum : Bool
  contentSize : Option Nat
  window : Nat

namespace Frame

/-- A frame that announces a small size is decoded in one piece and needs no window. -/
def isSmall (f : Frame) : Bool :=
  f.contentSize.any (· ≤ 8192)

/-- The greatest window that is accepted. -/
def maxWindow (f : Frame) : Nat :=
  if f.isSmall then 2 ^ (32 : Nat) - 1 else 2 ^ (27 : Nat) + 1

def maxBlockSize (f : Frame) : Nat :=
  if f.isSmall then 8192 else min f.window (2 ^ (17 : Nat))

/-- The window size in a descriptor byte: a power of two and eighths of it. -/
def windowOf (descriptor : Nat) : Nat :=
  let base := 2 ^ (10 + descriptor / 8)
  base + base / 8 * (descriptor % 8)

/-- The header of a frame behind its magic number. -/
def header : Input Frame := do
  let descriptor ← Input.number 1
  let flag := fun (n : Nat) => descriptor / 2 ^ n % 2 == 1
  let single := flag 5
  Input.require (!flag 3)
  let window ← if single then pure 0 else windowOf <$> Input.number 1
  let dictionary ← Input.number ([0, 1, 2, 4].getD (descriptor % 4) 0)
  Input.require (dictionary = 0)
  let contentSize ← match descriptor / 64 with
    | 0 => if single then some <$> Input.number 1 else pure none
    | 1 => (fun n => some (n + 256)) <$> Input.number 2
    | 2 => some <$> Input.number 4
    | _ => some <$> Input.number 8
  let f : Frame :=
    { checksum := flag 2
      contentSize
      window := if single then contentSize.getD 0 else window }
  Input.require (f.window ≤ f.maxWindow)
  return f

end Frame

structure Block where
  isLast : Bool
  /-- Nothing comes behind the header. -/
  isBare : Bool
  data : List UInt8

/-- One block. An entropy-coded one is taken only if it is bare and the frame is not small. -/
def block (f : Frame) : Input Block := do
  let word ← Input.number 3
  let isLast := word % 2 == 1
  let type := word / 2 % 4
  let size := word / 8
  Input.require (size ≤ f.maxBlockSize)
  match type with
  | 0 => return { isLast, isBare := size = 0, data := ← Input.take size }
  | 1 => return { isLast, isBare := false, data := .replicate size (.ofNat (← Input.number 1)) }
  | 2 =>
    Input.require (size = 0 && !f.isSmall)
    return { isLast, isBare := true, data := [] }
  | _ => failure

/-- The blocks up to the last one. -/
def blocks (f : Frame) (bytes : List UInt8) : Option (List Block × List UInt8) :=
  match (block f).run bytes with
  | none => none
  | some (b, rest) =>
    if b.isLast then some ([b], rest)
    else if rest.length < bytes.length then do
      let (others, rest) ← blocks f rest
      return (b :: others, rest)
    else none
termination_by bytes.length

/-- The blocks have the announced size. If the last one is bare, they may fall short of it, unless the
frame is small. -/
def Frame.admits (f : Frame) (bs : List Block) : Bool :=
  let size := (bs.map fun b => b.data.length).sum
  match f.contentSize with
  | none => true
  | some announced =>
    size = announced || (!f.isSmall && bs.getLast?.any Block.isBare && size ≤ announced)

/-- One frame. An announced size and a checksum have to agree with the data. -/
def frame : Input (List UInt8) := do
  let magic ← Input.number 4
  if magic / 16 = 0x184D2A5 then
    let size ← Input.number 4
    let _ ← Input.take size
    return []
  else
    Input.require (magic = 0xFD2FB528)
    let f ← Frame.header
    let (bs, rest) ← blocks f (← get)
    set rest
    Input.require (f.admits bs)
    let data := bs.flatMap Block.data
    if f.checksum then
      let sum ← Input.number 4
      Input.require (sum = (Checksum.xx64 data).toNat % 2 ^ (32 : Nat))
    return data

/-- The data of one frame or more. -/
def frames (bytes : List UInt8) : Option (List (List UInt8)) :=
  match frame.run bytes with
  | none => none
  | some (data, []) => some [data]
  | some (data, rest) =>
    if rest.length < bytes.length then do
      let others ← frames rest
      return data :: others
    else none
termination_by bytes.length

def decompress (bytes : List UInt8) : Option (List UInt8) := do
  return (← frames bytes).flatten

end CableCapture.Zstd
