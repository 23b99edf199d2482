import Shoreline.Packet.Info

/-!
# Headers of Data Packets

The 38 bytes in front of a body:

```text
 0  2  profiler serial          18  4  item count, digits
 2  2  profile                  22  4  stage letters
 4  2  packet number, from 1    26  6  size after compression, digits
 6  1  sensor letter            32  6  size of the body, digits
 7  1  blank
 8 10  sensor id, filled up with blanks
```

Words have the low byte first.  The blank at 7 is not read.
-/

namespace Shoreline

/-- the identifier of an instrument: ten bytes, cut off or filled up with blanks -/
structure SensorId where
  bytes : Bytes
  length_bytes : bytes.length = 10

namespace SensorId

/-- the first ten bytes, blanks added where there are fewer -/
def ofBytes (b : Bytes) : SensorId where
  bytes := (b ++ List.replicate 10 32).take 10
  length_bytes := by
    simp only [List.length_take, List.length_append, List.length_replicate]; omega

def ofText (text : String) : SensorId := ofBytes (utf8 text)

instance : DecidableEq SensorId := fun a b =>
  decidable_of_iff (a.bytes = b.bytes) (by cases a; cases b; simp)

end SensorId

structure DataHeader where
  serial : UInt16
  profile : UInt16
  packet : UInt16
  sensor : Sensor
  sensorId : SensorId
  itemCount : UInt16
  stages : Stages
  compressedSize : UInt32
  encodedSize : UInt32
  deriving DecidableEq

def stageLetter {α : Type} (stage : StageLetter) (ofCode? : UInt8 → Option α) (c : UInt8) :
    Except Fault α := orFault (.unknownStage stage c) (ofCode? c)

/-- reads the four stage letters from position `i` on -/
def Stages.parse (i : Nat) (b : Bytes) : Except Fault Stages := do
  let representation ← stageLetter .representation Representation.ofCode? (b.getD i 0)
  let noise ← stageLetter .noise Noise.ofCode? (b.getD (i + 1) 0)
  let compression ← stageLetter .compression Compression.ofCode? (b.getD (i + 2) 0)
  let encoding ← stageLetter .encoding Encoding.ofCode? (b.getD (i + 3) 0)
  .ok ⟨representation, noise, compression, encoding⟩

def Sensor.parse (c : UInt8) : Except Fault Sensor := orFault (.unknownSensor c) (Sensor.ofCode? c)

namespace DataHeader

def size : Nat := 38

/-- length of the payload that the body stands for -/
def payloadSize (h : DataHeader) : Nat := h.itemCount.toNat * h.sensor.itemSize

def render (h : DataHeader) : Bytes :=
  ofWord h.serial ++ ofWord h.profile ++ ofWord h.packet ++ [h.sensor.code, 32] ++
    h.sensorId.bytes ++ decimal 4 h.itemCount.toNat ++ h.stages.codes ++
    decimal 6 h.compressedSize.toNat ++ decimal 6 h.encodedSize.toNat

def parse (b : Bytes) : Except Fault DataHeader := do
  if (b.take size).length < size then .error (.truncated size b.length)
  else if wordAt 4 b = 0 then .error (.malformed .dataPacketNumber)
  else
    let sensor ← Sensor.parse (b.getD 6 0)
    let items ← Field.itemCount.number (slice 18 4 b)
    let stages ← Stages.parse 22 b
    let compressed ← Field.compressedSize.number (slice 26 6 b)
    let encoded ← Field.encodedSize.number (slice 32 6 b)
    .ok {
      serial := wordAt 0 b
      profile := wordAt 2 b
      packet := wordAt 4 b
      sensor
      sensorId := .ofBytes (slice 8 10 b)
      itemCount := UInt16.ofNat items
      stages
      compressedSize := UInt32.ofNat compressed
      encodedSize := UInt32.ofNat encoded }

end DataHeader

end Shoreline
