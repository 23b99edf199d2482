import Shoreline.Field

/-!
# Info Packets

Packet 0 of a profile says how many items of each class were acquired, and so how many Data Packets
follow.  It has 64 bytes: serial, profile and packet number as words, then for each class four digits
of items and four digits of packets, then 26 zero bytes that are not read.

The packet count of a class is not stored: it is the item count over the items of a full packet,
rounded up, and `parse` refuses bytes that say otherwise.
-/

namespace Shoreline

/-- the items acquired of each class -/
structure Definition where
  items : PerSensor Nat
  deriving DecidableEq, Repr

namespace Definition

def empty : Definition := ⟨.of fun _ => 0⟩

def packets (d : Definition) (s : Sensor) : Nat := s.packetsFor (d.items.get s)

def total (d : Definition) : Nat := (Sensor.all.map d.packets).sum

end Definition

structure InfoPacket where
  serial : UInt16
  profile : UInt16
  definition : Definition
  deriving DecidableEq, Repr

namespace InfoPacket

def size : Nat := 64

def offset (s : Sensor) : Nat := 6 + 8 * s.position

def classField (d : Definition) (s : Sensor) : Bytes :=
  decimal 4 (d.items.get s) ++ decimal 4 (d.packets s)

def render (p : InfoPacket) : Bytes :=
  ofWord p.serial ++ ofWord p.profile ++ ofWord 0 ++ Sensor.all.flatMap (classField p.definition) ++
    List.replicate 26 0

/-- the item count of a class, whose packet count must agree with it -/
def parseClass (b : Bytes) (s : Sensor) : Except Fault Nat := do
  let items ← Field.classItems.number (slice (offset s) 4 b)
  let packets ← Field.classPackets.number (slice (offset s + 4) 4 b)
  if s.packetsFor items = packets then .ok items else .error (.malformed .classPackets)

def parse (b : Bytes) : Except Fault InfoPacket := do
  if (b.take size).length < size then .error (.truncated size b.length)
  else if wordAt 4 b ≠ 0 then .error (.malformed .infoPacketNumber)
  else
    let starboard ← parseClass b .starboard
    let port ← parseClass b .port
    let ocr ← parseClass b .ocr
    let mcoms ← parseClass b .mcoms
    .ok ⟨wordAt 0 b, wordAt 2 b, ⟨⟨starboard, port, ocr, mcoms⟩⟩⟩

end InfoPacket

end Shoreline
