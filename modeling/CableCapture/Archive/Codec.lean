import CableCapture.Text.Path

/-!
# Codecs

How a capture file is compressed, which the end of its name tells. What a codec makes of the bytes of a
file is up to a library.
-/

namespace CableCapture

inductive Codec where
  /-- Not compressed. -/
  | plain
  | gzip
  | zlib
  | lz4
  | zstd
deriving DecidableEq, Repr

/-- What the libraries decompress the bytes of a file to; nothing means that they fail. -/
class Decompression where
  gzip : List UInt8 → Option (List UInt8)
  zlib : List UInt8 → Option (List UInt8)
  lz4 : List UInt8 → Option (List UInt8)
  zstd : List UInt8 → Option (List UInt8)

namespace Codec

def name : Codec → String
  | plain => "None"
  | gzip => "Gzip"
  | zlib => "Zlib"
  | lz4 => "LZ4"
  | zstd => "Zstd"

/-- The codec of a file name suffix, whatever the case of its ASCII letters. -/
def ofSuffix (suffix : String) : Codec :=
  match String.ofList (suffix.toList.map Char.toLower) with
  | "gz" => gzip
  | "zlib" => zlib
  | "lz4" => lz4
  | "zst" => zstd
  | _ => plain

/-- The codec that the file name in a path tells. -/
def ofPath (path : String) : Codec :=
  match (Path.fileName? path).bind Path.suffix? with
  | some suffix => ofSuffix suffix
  | none => plain

def decompress [Decompression] : Codec → List UInt8 → Option (List UInt8)
  | plain, bytes => some bytes
  | gzip, bytes => Decompression.gzip bytes
  | zlib, bytes => Decompression.zlib bytes
  | lz4, bytes => Decompression.lz4 bytes
  | zstd, bytes => Decompression.zstd bytes

end Codec

end CableCapture
