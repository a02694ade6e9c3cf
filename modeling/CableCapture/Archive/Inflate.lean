import CableCapture.Archive.History
import CableCapture.Bytes.Word

/-!
# Deflated data

Blocks of stored bytes, or of literals and back references under a fixed or a transmitted code. Codes
are binary trees built from the lengths of their words; decoding walks down a tree bit by bit.
-/

namespace CableCapture.Inflate

-- Powers and sums are those of the core library, whatever else is imported.
attribute [local instance (high)] instPowNat Zero.ofOfNat0

-- ---------------------------------------------------------------------------
-- Bits
-- ---------------------------------------------------------------------------

/-- Bytes with a position counted in bits, the lowest bit of a byte first. -/
structure BitSource where
  data : ByteArray
  position : Nat

namespace BitSource

def left (s : BitSource) : Nat := 8 * s.data.size - s.position

end BitSource

/-- Reads bits and fails where they end. -/
abbrev BitReader (α : Type) := StateT BitSource Option α

def bit : BitReader Nat := do
  let s ← get
  let byte ← (s.data[s.position / 8]?).map UInt8.toNat
  set { s with position := s.position + 1 }
  return byte / 2 ^ (s.position % 8) % 2

/-- A number of `n` bits, the lowest one first. -/
def bits : (n : Nat) → BitReader Nat
  | 0 => return 0
  | n + 1 => do
    let low ← bit
    let high ← bits n
    return low + 2 * high

/-- Goes on to the next full byte. -/
def align : BitReader Unit :=
  modify fun s => { s with position := (s.position + 7) / 8 * 8 }

/-- Bytes from an aligned position. -/
def takeBytes (n : Nat) : BitReader (List UInt8) := do
  let s ← get
  let start := s.position / 8
  if start + n ≤ s.data.size then
    set { s with position := s.position + 8 * n }
    return (s.data.extract start (start + n)).toList
  else
    failure

-- ---------------------------------------------------------------------------
-- Codes
-- ---------------------------------------------------------------------------

/-- A code; a zero bit goes left. -/
inductive CodeTree where
  | empty
  | leaf (symbol : Nat)
  | node (zero one : CodeTree)

namespace CodeTree

/-- Adds a word, given as its bits from the root. -/
def insert (symbol : Nat) : List Bool → CodeTree → CodeTree
  | [], _ => leaf symbol
  | false :: word, node zero one => node (insert symbol word zero) one
  | true :: word, node zero one => node zero (insert symbol word one)
  | false :: word, _ => node (insert symbol word empty) empty
  | true :: word, _ => node empty (insert symbol word empty)

/-- The bits of a number, the highest one first. -/
def wordOf : (length value : Nat) → List Bool
  | 0, _ => []
  | length + 1, value => (value / 2 ^ length % 2 == 1) :: wordOf length value

/-- The canonical code of word lengths by symbol, where zero stands for no word: shorter words come
before longer ones, and words of one length are consecutive numbers in the order of their symbols. -/
def ofLengths (lengths : List Nat) : CodeTree :=
  let coded := lengths.zipIdx.filter fun (length, _) => length ≠ 0
  let ordered := coded.mergeSort fun a b => a.1 ≤ b.1
  let (tree, _, _) := ordered.foldl
    (fun (tree, next, last) (length, symbol) =>
      let value := next * 2 ^ (length - last)
      (insert symbol (wordOf length value) tree, value + 1, length))
    (empty, 0, 0)
  tree

/-- The next symbol. -/
def decode : CodeTree → BitReader Nat
  | empty => failure
  | leaf symbol => return symbol
  | node zero one => do
    let b ← bit
    if b = 0 then zero.decode else one.decode

end CodeTree

/-- The words of these lengths use up all bit strings. -/
def isComplete (lengths : List Nat) : Bool :=
  (lengths.map fun length => if length = 0 then 0 else 2 ^ (15 - length)).sum = 2 ^ (15 : Nat)

/-- A code for literals or distances has to be complete, unless it has no word or a single one of one
bit. -/
def codeOf (lengths : List Nat) : Option CodeTree :=
  let words := lengths.filter (· ≠ 0)
  if isComplete lengths || words = [] || words = [1] then some (.ofLengths lengths) else none

def fixedLiterals : CodeTree :=
  .ofLengths (List.replicate 144 8 ++ List.replicate 112 9 ++ List.replicate 24 7 ++
    List.replicate 8 8)

def fixedDistances : CodeTree :=
  .ofLengths (List.replicate 32 5)

-- ---------------------------------------------------------------------------
-- Transmitted codes
-- ---------------------------------------------------------------------------

/-- The symbols of the code for code lengths in the order in which their lengths are sent. -/
def lengthOrder : List Nat :=
  [16, 17, 18, 0, 8, 7, 9, 6, 10, 5, 11, 4, 12, 3, 13, 2, 14, 1, 15]

/-- The code lengths that one symbol adds to those before it, which are in reverse order. -/
def lengthRun (code : CodeTree) (before : List Nat) : BitReader (List Nat) := do
  let symbol ← code.decode
  match symbol with
  | 16 =>
    match before with
    | [] => failure
    | last :: _ => return List.replicate (3 + (← bits 2)) last
  | 17 => return List.replicate (3 + (← bits 3)) 0
  | 18 => return List.replicate (11 + (← bits 7)) 0
  | length => return [length]

/-- Exactly `count` more code lengths, behind those before them. -/
def lengthsFrom (code : CodeTree) (count : Nat) (before : List Nat) : BitReader (List Nat) := do
  if count = 0 then return before.reverse
  else
    let run ← lengthRun code before
    if _ : 0 < run.length ∧ run.length ≤ count then
      lengthsFrom code (count - run.length) (run.reverse ++ before)
    else
      failure
termination_by count
decreasing_by omega

/-- The codes for literals and for distances at the front of a block. -/
def transmittedCodes : BitReader (CodeTree × CodeTree) := do
  let literals := (← bits 5) + 257
  let distances := (← bits 5) + 1
  let count := (← bits 4) + 4
  if literals > 286 ∨ distances > 30 then failure
  let sent ← (lengthOrder.take count).mapM fun symbol => do return (symbol, ← bits 3)
  let lengths := (List.range 19).map fun symbol => (sent.lookup symbol).getD 0
  if isComplete lengths then
    let all ← lengthsFrom (.ofLengths lengths) (literals + distances) []
    let literalCode ← (codeOf (all.take literals) : Option CodeTree)
    let distanceCode ← (codeOf (all.drop literals) : Option CodeTree)
    return (literalCode, distanceCode)
  else
    failure

-- ---------------------------------------------------------------------------
-- Blocks
-- ---------------------------------------------------------------------------

/-- The base and the number of extra bits of each length symbol from 257 on. -/
def lengthTable : List (Nat × Nat) :=
  [(3, 0), (4, 0), (5, 0), (6, 0), (7, 0), (8, 0), (9, 0), (10, 0), (11, 1), (13, 1), (15, 1),
    (17, 1), (19, 2), (23, 2), (27, 2), (31, 2), (35, 3), (43, 3), (51, 3), (59, 3), (67, 4),
    (83, 4), (99, 4), (115, 4), (131, 5), (163, 5), (195, 5), (227, 5), (258, 0)]

/-- The base and the number of extra bits of each distance symbol. -/
def distanceTable : List (Nat × Nat) :=
  [(1, 0), (2, 0), (3, 0), (4, 0), (5, 1), (7, 1), (9, 2), (13, 2), (17, 3), (25, 3), (33, 4),
    (49, 4), (65, 5), (97, 5), (129, 6), (193, 6), (257, 7), (385, 7), (513, 8), (769, 8),
    (1025, 9), (1537, 9), (2049, 10), (3073, 10), (4097, 11), (6145, 11), (8193, 12),
    (12289, 12), (16385, 13), (24577, 13)]

/-- A number from a table entry and its extra bits. -/
def extended (table : List (Nat × Nat)) (index : Nat) : BitReader Nat := do
  let (base, extra) ← table[index]?
  return base + (← bits extra)

/-- One symbol of a block, and whether it ends the block. -/
def step (literals distances : CodeTree) (out : ByteArray) : BitReader (Bool × ByteArray) := do
  let symbol ← literals.decode
  if symbol < 256 then
    return (false, out.push (.ofNat symbol))
  else if symbol = 256 then
    return (true, out)
  else
    let length ← extended lengthTable (symbol - 257)
    let distance ← extended distanceTable (← distances.decode)
    return (false, copyBack distance length out)

/-- Symbols up to the end of the block. Every symbol uses up bits, so the bits left bound the loop. -/
def symbols (literals distances : CodeTree) (out : ByteArray) (s : BitSource) :
    Option (ByteArray × BitSource) :=
  match (step literals distances out).run s with
  | none => none
  | some ((true, out), rest) => some (out, rest)
  | some ((false, out), rest) =>
    if rest.left < s.left then symbols literals distances out rest else none
termination_by s.left

/-- A length, its complement and as many bytes. -/
def stored (out : ByteArray) : BitReader ByteArray := do
  align
  let size := LittleEndian.toNat (← takeBytes 2)
  let complement := LittleEndian.toNat (← takeBytes 2)
  if size + complement = 65535 then
    return appendBytes out (← takeBytes size)
  else
    failure

/-- One block, and whether it is the last one. -/
def block (out : ByteArray) : BitReader (Bool × ByteArray) := do
  let last ← bit
  let type ← bits 2
  let out ←
    match type with
    | 0 => stored out
    | 1 => fun s => symbols fixedLiterals fixedDistances out s
    | 2 => do
      let (literals, distances) ← transmittedCodes
      fun s => symbols literals distances out s
    | _ => failure
  return (last == 1, out)

/-- Blocks up to the last one. -/
def blocks (out : ByteArray) (s : BitSource) : Option (ByteArray × BitSource) :=
  match (block out).run s with
  | none => none
  | some ((true, out), rest) => some (out, rest)
  | some ((false, out), rest) => if rest.left < s.left then blocks out rest else none
termination_by s.left

/-- The data at the front of a byte string, and the bytes behind it. -/
def run (bytes : List UInt8) : Option (List UInt8 × List UInt8) := do
  let data : ByteArray := ⟨bytes.toArray⟩
  let (out, rest) ← blocks .empty ⟨data, 0⟩
  return (out.toList, bytes.drop ((rest.position + 7) / 8))

end CableCapture.Inflate
