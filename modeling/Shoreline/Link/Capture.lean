import Shoreline.Link.Duplex

/-!
# Capture files

A capture is a link whose bytes are recorded as they pass, in a `pcap` file: a header of 24 bytes,
then for each read or write that moved bytes a record header of 16 bytes, one byte for the direction
and the bytes.  A record holds at most 65535 bytes with its direction; what is longer is cut off.
Operations that fail or move nothing leave no record.
-/

namespace Shoreline

/-- the way that recorded bytes took -/
inductive Direction where
  | outbound
  | inbound
  deriving DecidableEq, Repr

namespace Direction

/-- the character `>` or `<` in front of the recorded bytes -/
def code : Direction → UInt8
  | outbound => 62
  | inbound => 60

end Direction

structure Timestamp where
  seconds : Nat
  microseconds : Nat
  deriving DecidableEq, Repr

namespace Pcap

def snapLength : Nat := 65535

/-- magic, version 2.4, no time zone, no accuracy, snap length, and the user-defined link type -/
def fileHeader : Bytes :=
  littleEndian 4 0xA1B2C3D4 ++ littleEndian 2 2 ++ littleEndian 2 4 ++ littleEndian 4 0 ++
    littleEndian 4 0 ++ littleEndian 4 snapLength ++ littleEndian 4 147

def record (time : Timestamp) (direction : Direction) (b : Bytes) : Bytes :=
  let kept := b.take (snapLength - 1)
  littleEndian 4 time.seconds ++ littleEndian 4 time.microseconds ++
    littleEndian 4 (kept.length + 1) ++ littleEndian 4 (kept.length + 1) ++
    direction.code :: kept

end Pcap

/-- end `a` of a link in memory, with a record of what it read and wrote -/
structure Capture where
  link : Duplex
  file : Bytes

namespace Capture

def new (link : Duplex) : Capture := ⟨link, Pcap.fileHeader⟩

/-- records bytes that were moved, if there are any -/
def note (c : Capture) (time : Timestamp) (direction : Direction) (b : Bytes) : Capture :=
  if b = [] then c else { c with file := c.file ++ Pcap.record time direction b }

def read (c : Capture) (time : Timestamp) (n : Nat) : Except LinkFault (Bytes × Capture) := do
  let (b, link) ← c.link.read .a n
  .ok (b, { c with link }.note time .inbound b)

def write (c : Capture) (time : Timestamp) (b : Bytes) : Except LinkFault Capture := do
  let link ← c.link.write .a b
  .ok ({ c with link }.note time .outbound b)

end Capture

end Shoreline
