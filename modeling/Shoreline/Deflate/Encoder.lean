import Shoreline.Deflate.Inflate

/-!
# DEFLATE encoders

The format leaves it to the writer of a stream how to cut its input into blocks and how to code them,
so a writer is a parameter: any function whose streams are read back.  `Stored` has one.
-/

namespace Shoreline.Deflate

class Encoder where
  encode : Bytes → Bytes
  inflate_encode : ∀ b, inflate b.length (encode b) = .ok b

end Shoreline.Deflate
