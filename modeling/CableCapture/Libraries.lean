import CableCapture.Archive.Codec
import CableCapture.Archive.Gzip
import CableCapture.Archive.Lz4
import CableCapture.Archive.Zstd
import CableCapture.Gregorian
import CableCapture.Numeric.Complex
import CableCapture.Timestamp

/-!
# Libraries

What programs take from libraries, written out so that they run without them. Nothing that is said
about captures in general depends on how.
-/

namespace CableCapture

/-- Decoders of the formats. Of zstd files they take stored and repeated blocks only: an entropy-coded
block is refused, although the library would decode it. -/
instance : Decompression where
  gzip := Gzip.decompress
  zlib := Zlib.decompress
  lz4 := Lz4.decompress
  zstd := Zstd.decompress

instance : Calendar where
  rfc3339 := Gregorian.rfc3339

/-- The root of the squared magnitude. The library also takes care of squares that are too great or
too small for a float. -/
instance : Modulus where
  norm := fun c => c.normSq.sqrt

end CableCapture
