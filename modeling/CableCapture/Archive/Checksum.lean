import CableCapture.Bytes.Chunks
import CableCapture.Bytes.Word

/-!
# Checksums of archives

The checksums that compressed files carry: CRC-32, Adler-32 and the two widths of xxHash with seed
zero.
-/

namespace CableCapture.Checksum

-- ---------------------------------------------------------------------------
-- CRC-32 and Adler-32
-- ---------------------------------------------------------------------------

/-- Shifts out one bit of the remainder. -/
def crcBit (r : UInt32) : UInt32 :=
  if r &&& 1 = 1 then (r >>> 1) ^^^ 0xEDB88320 else r >>> 1

def crcByte (r : UInt32) (b : UInt8) : UInt32 :=
  (List.range 8).foldl (fun r _ => crcBit r) (r ^^^ b.toUInt32)

def crc32 (bytes : List UInt8) : UInt32 :=
  bytes.foldl crcByte 0xFFFFFFFF ^^^ 0xFFFFFFFF

/-- Two sums modulo the greatest prime below `2 ^ 16`: of the bytes, and of the first sums. -/
def adler32 (bytes : List UInt8) : UInt32 :=
  let (a, b) := bytes.foldl
    (fun (a, b) byte =>
      let a := (a + byte.toNat) % 65521
      (a, (b + a) % 65521)) (1, 0)
  .ofNat (b * 65536 + a)

-- ---------------------------------------------------------------------------
-- xxHash
-- ---------------------------------------------------------------------------

def rotate32 (x : UInt32) (n : UInt32) : UInt32 := (x <<< n) ||| (x >>> (32 - n))

def rotate64 (x : UInt64) (n : UInt64) : UInt64 := (x <<< n) ||| (x >>> (64 - n))

def word32 (bytes : List UInt8) : UInt32 := .ofNat (LittleEndian.toNat bytes)

def word64 (bytes : List UInt8) : UInt64 := .ofNat (LittleEndian.toNat bytes)

/-- The bytes in full stripes of length `n`, and the bytes behind them. -/
def stripes (n : Nat) (bytes : List UInt8) : List (List UInt8) × List UInt8 :=
  let full := bytes.length / n * n
  (chunksOf n (bytes.take full), bytes.drop full)

namespace Xx32

def p1 : UInt32 := 2654435761
def p2 : UInt32 := 2246822519
def p3 : UInt32 := 3266489917
def p4 : UInt32 := 668265263
def p5 : UInt32 := 374761393

def lane (acc : UInt32) (bytes : List UInt8) : UInt32 :=
  rotate32 (acc + word32 bytes * p2) 13 * p1

/-- Feeds the four words of a stripe to the four lanes. -/
def stripe (lanes : List UInt32) (bytes : List UInt8) : List UInt32 :=
  lanes.zipWith lane (chunksOf 4 bytes)

def ofLanes (lanes : List UInt32) : UInt32 :=
  (lanes.zipWith rotate32 [1, 7, 12, 18]).foldl (· + ·) 0

end Xx32

open Xx32 in
/-- The 32-bit xxHash. -/
def xx32 (bytes : List UInt8) : UInt32 :=
  let (full, rest) := stripes 16 bytes
  let start :=
    if full.isEmpty then p5 else ofLanes (full.foldl stripe [p1 + p2, p2, 0, 0 - p1])
  let (words, tail) := stripes 4 rest
  let h := start + .ofNat bytes.length
  let h := words.foldl (fun h w => rotate32 (h + word32 w * p3) 17 * p4) h
  let h := tail.foldl (fun h b => rotate32 (h + b.toUInt32 * p5) 11 * p1) h
  let h := (h ^^^ (h >>> 15)) * p2
  let h := (h ^^^ (h >>> 13)) * p3
  h ^^^ (h >>> 16)

namespace Xx64

def p1 : UInt64 := 11400714785074694791
def p2 : UInt64 := 14029467366897019727
def p3 : UInt64 := 1609587929392839161
def p4 : UInt64 := 9650029242287828579
def p5 : UInt64 := 2870177450012600261

def lane (acc input : UInt64) : UInt64 :=
  rotate64 (acc + input * p2) 31 * p1

/-- Feeds the four words of a stripe to the four lanes. -/
def stripe (lanes : List UInt64) (bytes : List UInt8) : List UInt64 :=
  lanes.zipWith (fun acc w => lane acc (word64 w)) (chunksOf 8 bytes)

def ofLanes (lanes : List UInt64) : UInt64 :=
  let h := (lanes.zipWith rotate64 [1, 7, 12, 18]).foldl (· + ·) 0
  lanes.foldl (fun h acc => (h ^^^ lane 0 acc) * p1 + p4) h

end Xx64

open Xx64 in
/-- The 64-bit xxHash. -/
def xx64 (bytes : List UInt8) : UInt64 :=
  let (full, rest) := stripes 32 bytes
  let start :=
    if full.isEmpty then p5 else ofLanes (full.foldl stripe [p1 + p2, p2, 0, 0 - p1])
  let (words, rest) := stripes 8 rest
  let (halves, tail) := stripes 4 rest
  let h := start + .ofNat bytes.length
  let h := words.foldl (fun h w => rotate64 (h ^^^ lane 0 (word64 w)) 27 * p1 + p4) h
  let h := halves.foldl (fun h w => rotate64 (h ^^^ word64 w * p1) 23 * p2 + p3) h
  let h := tail.foldl (fun h b => rotate64 (h ^^^ b.toUInt64 * p5) 11 * p1) h
  let h := (h ^^^ (h >>> 33)) * p2
  let h := (h ^^^ (h >>> 29)) * p3
  h ^^^ (h >>> 32)

end CableCapture.Checksum
