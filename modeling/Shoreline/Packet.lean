import Shoreline.Packet.Header
import Shoreline.Body

/-!
# Packets

A Data Packet is a header and a payload of whole items; on the wire the header is followed by the
body that the payload is encoded to.  Packet number 0 is an Info Packet, every other number a Data
Packet, and `Packet.decode` reads either.
-/

namespace Shoreline

structure DataPacket where
  header : DataHeader
  payload : Bytes
  deriving DecidableEq

/-- the most items that a packet's item count can state -/
def mostItems : Nat := 9999

/-- the most bytes that a header's sizes can state -/
def mostBytes : Nat := 999999

/-- a size for a six-digit field -/
def sizeField (field : Field) (n : Nat) : Except Fault UInt32 :=
  if mostBytes < n then .error (.overflow field n) else .ok (UInt32.ofNat n)

namespace DataPacket

/-- a packet of whole items, not encoded yet -/
def ofPayload (serial profile packet : UInt16) (sensor : Sensor) (sensorId : SensorId)
    (payload : Bytes) : Except Fault DataPacket :=
  let items := payload.length / sensor.itemSize
  if payload.length % sensor.itemSize ≠ 0 then .error (.partialItem sensor payload.length)
  else if mostItems < items then .error (.overflow .itemCount items)
  else
    .ok {
      header := {
        serial, profile, packet, sensor, sensorId
        itemCount := UInt16.ofNat items
        stages := .identity
        compressedSize := 0
        encodedSize := 0 }
      payload }

/-- header and body under the given stages -/
def encode [Deflate.Encoder] (p : DataPacket) (stages : Stages) : Except Fault Bytes := do
  let encoded ← Body.encode (.ofSensor p.header.sensor) stages p.payload
  let compressedSize ← sizeField .compressedSize encoded.compressedSize
  let encodedSize ← sizeField .encodedSize encoded.body.length
  .ok ({ p.header with stages, compressedSize, encodedSize }.render ++ encoded.body)

/-- reads a packet from the front of `b` -/
def decode (b : Bytes) : Except Fault DataPacket := do
  let header ← DataHeader.parse b
  let body := slice DataHeader.size header.encodedSize.toNat b
  if body.length < header.encodedSize.toNat then
    .error (.truncated (DataHeader.size + header.encodedSize.toNat) b.length)
  else
    let payload ← Body.decode (.ofSensor header.sensor) header.stages header.payloadSize body
    .ok ⟨header, payload⟩

end DataPacket

inductive Packet where
  | info (p : InfoPacket)
  | data (p : DataPacket)
  deriving DecidableEq

namespace Packet

def decode (b : Bytes) : Except Fault Packet :=
  if (b.take 6).length < 6 then .error (.truncated 6 b.length)
  else if wordAt 4 b = 0 then (InfoPacket.parse b).map .info
  else (DataPacket.decode b).map .data

end Packet

end Shoreline
