import Shoreline.Fault

/-!
# Rounding and bit planes

A 16-bit sample first loses its `k` lowest bits (`reduce`, to the nearest value, at most the largest
that is left).  The `16 - k` bits that remain are spread over planes, the most significant plane
first.  In a plane every 8 samples in a row share one byte, the first of them in its highest bit; a
last group of fewer samples is filled up with zero bits.

* `transpose`     samples to plane bytes;
* `untranspose`   plane bytes to samples, given how many there are.
-/

namespace Shoreline.Planes

def sampleBits : Nat := 16

/-- planes left when `k` bits are rounded away -/
def count (k : Nat) : Nat := sampleBits - k

/-- groups of eight samples, the last one perhaps short -/
def groups (samples : Nat) : Nat := (samples + 7) / 8

/-- bytes of all planes of so many samples -/
def size (samples k : Nat) : Nat := count k * groups samples

/-! ## Rounding -/

/-- the sample without its `k` lowest bits, rounded to nearest, at most what `16 - k` bits hold -/
def reduce (k : Nat) (v : UInt16) : UInt16 :=
  if k = 0 then v
  else UInt16.ofNat (min ((v.toNat + 2 ^ (k - 1)) / 2 ^ k) (65535 / 2 ^ k))

/-- a reduced sample at full scale, with zeros for the bits that were rounded away -/
def expand (k : Nat) (v : UInt16) : UInt16 := UInt16.ofNat (v.toNat * 2 ^ k)

/-- what is left of a sample after reducing and expanding -/
def round (k : Nat) (v : UInt16) : UInt16 := expand k (reduce k v)

/-! ## Transposition -/

/-- bits as a number, the most significant first -/
def ofBits (bs : List Bool) : Nat := bs.foldl (fun v b => 2 * v + b.toNat) 0

/-- up to eight bits as a byte, the first in its highest place -/
def byteOf (bs : List Bool) : UInt8 := UInt8.ofNat (ofBits bs * 2 ^ (8 - bs.length))

/-- the eight bits of a byte, the highest first -/
def bitsOf (b : UInt8) : List Bool := (List.range 8).map fun i => b.toNat.testBit (7 - i)

/-- the bytes of the plane that holds bit `p` of each sample -/
def plane (p : Nat) (samples : List UInt16) : Bytes :=
  (chunks 8 (samples.map fun s => s.toNat.testBit p)).map byteOf

/-- all planes of reduced samples, the most significant first -/
def transpose (k : Nat) (samples : List UInt16) : Bytes :=
  (List.range (count k)).reverse.flatMap fun p => plane p samples

/-- samples with one more bit put below those they have -/
def pushRow (acc : List UInt16) (row : Bytes) : List UInt16 :=
  List.zipWith (fun s b => UInt16.ofNat (2 * s.toNat + b.toNat)) acc (row.flatMap bitsOf)

/-- `n` reduced samples from their planes -/
def untranspose (n k : Nat) (data : Bytes) : Except Fault (List UInt16) :=
  if data.length = size n k then
    .ok ((chunks (groups n) data).foldl pushRow (List.replicate n 0))
  else .error (.body (.planeLength (size n k) data.length))

end Shoreline.Planes
