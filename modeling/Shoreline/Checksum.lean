import Shoreline.Bytes

/-!
# CRC-32

The reflected CRC-32 of bursts and control lines: polynomial `0xEDB88320`, register and result
complemented.  One byte moves the register by eight single-bit shifts, so the checksum of a
concatenation is the checksum continued (`crcFrom_append`).
-/

namespace Shoreline

/-- the register moved by one bit -/
def crcShift (c : UInt32) : UInt32 :=
  if c &&& 1 = 1 then (c >>> 1) ^^^ 0xEDB88320 else c >>> 1

/-- the register after one more byte -/
def crcByte (c : UInt32) (b : UInt8) : UInt32 :=
  Nat.repeat crcShift 8 (c ^^^ b.toUInt32)

/-- the register after more bytes -/
def crcFrom (c : UInt32) (b : Bytes) : UInt32 := b.foldl crcByte c

def crc32 (b : Bytes) : UInt32 := crcFrom 0xFFFFFFFF b ^^^ 0xFFFFFFFF

theorem crcFrom_append (c : UInt32) (a b : Bytes) : crcFrom c (a ++ b) = crcFrom (crcFrom c a) b :=
  List.foldl_append ..

end Shoreline
