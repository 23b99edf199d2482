import Shoreline.Bytes

/-!
# Gray-coded samples

Neighbouring values of the reflected Gray code differ in one bit.  `Gray.encode` xors a sample with
itself shifted down by one; `Gray.decode` xors all 16 shifts together in four doubling steps.
-/

namespace Shoreline.Gray

def encode (v : UInt16) : UInt16 := v ^^^ (v >>> 1)

/-- the xor of a word and its copy shifted down by `k` -/
def fold (k v : UInt16) : UInt16 := v ^^^ (v >>> k)

def decode (g : UInt16) : UInt16 := fold 8 (fold 4 (fold 2 (fold 1 g)))

end Shoreline.Gray
