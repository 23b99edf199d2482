import Shoreline.Packet

/-!
# Profiles

While a cast is being acquired its items are gathered by a `Builder`, class by class.  An operation
that fails leaves the builder as it was, and every class always holds whole items: `append` refuses
anything else, and `read` appends a source only after it has ended without a failure.

`Builder.finalize` ends acquisition; a `Profile` does not change any more.
-/

namespace Shoreline

structure Profile where
  serial : UInt16
  profile : UInt16
  sensorIds : PerSensor SensorId
  samples : PerSensor Bytes
  deriving DecidableEq

namespace Profile

/-- the largest count of items, a 32-bit number -/
def mostCounted : Nat := UInt32.size - 1

def definition (p : Profile) : Definition :=
  ⟨.of fun s => min ((p.samples.get s).length / s.itemSize) mostCounted⟩

end Profile

/-- a stream of serialized items: its parts in order, and then its end or a failure -/
structure Source where
  parts : List Bytes
  failure : Option String

namespace Source

/-- everything the source yields, if it ends without a failure -/
def contents (s : Source) : Except Fault Bytes :=
  match s.failure with
  | none => .ok s.parts.flatten
  | some text => .error (.source text)

end Source

structure Builder where
  serial : UInt16
  profile : UInt16
  sensorIds : PerSensor SensorId
  samples : PerSensor Bytes
  deriving DecidableEq

namespace Builder

/-- no items yet, and each instrument named after its class -/
def new (serial profile : UInt16) : Builder where
  serial
  profile
  sensorIds := .of fun s => .ofText s.name
  samples := .of fun _ => []

def setSensorId (b : Builder) (s : Sensor) (id : SensorId) : Builder :=
  { b with sensorIds := b.sensorIds.set s id }

def append (b : Builder) (s : Sensor) (items : Bytes) : Except Fault Builder :=
  if items.length % s.itemSize ≠ 0 then .error (.partialItem s items.length)
  else .ok { b with samples := b.samples.set s (b.samples.get s ++ items) }

/-- adds all items of a source; also gives their number -/
def read (b : Builder) (s : Sensor) (source : Source) : Except Fault (Nat × Builder) := do
  let items ← source.contents
  let b ← b.append s items
  .ok (items.length / s.itemSize, b)

def finalize (b : Builder) : Profile := ⟨b.serial, b.profile, b.sensorIds, b.samples⟩

end Builder

end Shoreline
