import Shoreline.Profile
import Shoreline.Instructions

/-!
# Packaging

A profile is packaged into its Info Packet and its Data Packets.  The classes follow each other in
packet order; the items of a class are cut into full packets and a last one with the rest; and the
Data Packets are numbered from 1 without a gap.
-/

namespace Shoreline

structure Package where
  info : InfoPacket
  data : List DataPacket
  stages : Stages
  burstSize : Nat

namespace Package

def packetCount (p : Package) : Nat := p.data.length + 1

end Package

/-- the largest packet number with four digits -/
def mostPackets : Nat := 9999

namespace Profile

/-- the payloads of the Data Packets in order, each with its class -/
def payloads (p : Profile) : List (Sensor × Bytes) :=
  Sensor.all.flatMap fun s =>
    (chunks (s.itemsPerPacket * s.itemSize) (p.samples.get s)).map fun b => (s, b)

def dataPacket (p : Profile) (number : Nat) (payload : Sensor × Bytes) : Except Fault DataPacket :=
  if mostPackets < number then .error (.overflow .packetNumber number)
  else
    DataPacket.ofPayload p.serial p.profile (UInt16.ofNat number) payload.1 (p.sensorIds.get payload.1)
      payload.2

/-- no class has more items than the Info Packet can state -/
def checkItems (p : Profile) : Except Fault Unit :=
  match p.definition.items.toList.find? (mostItems < ·) with
  | some n => .error (.overflow .classItems n)
  | none => .ok ()

def package (p : Profile) (i : Instructions) : Except Fault Package := do
  i.validate
  p.checkItems
  let data ← (p.payloads.zipIdx 1).mapM fun (payload, number) => p.dataPacket number payload
  .ok ⟨⟨p.serial, p.profile, p.definition⟩, data, i.stages, i.burstSize⟩

end Profile

end Shoreline
