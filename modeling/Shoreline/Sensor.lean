import Shoreline.Bytes

/-!
# Sensor classes

A profile carries items of four sensor classes.  Packets are numbered class by class in the order of
`Sensor.all`.  An item is a fixed number of channel bytes followed by an auxiliary block of 16 bytes.

`PerSensor α` holds one value for each class; `get_set` and `get_set_ne` are its two laws.
-/

namespace Shoreline

inductive Sensor where
  | starboard
  | port
  | ocr
  | mcoms
  deriving DecidableEq, Repr, Inhabited

namespace Sensor

def all : List Sensor := [starboard, port, ocr, mcoms]

theorem mem_all (s : Sensor) : s ∈ all := by cases s <;> simp [all]

def name : Sensor → String
  | starboard => "starboard"
  | port => "port"
  | ocr => "ocr"
  | mcoms => "mcoms"

def code : Sensor → UInt8
  | starboard => 83
  | port => 80
  | ocr => 79
  | mcoms => 77

def ofCode? (c : UInt8) : Option Sensor := all.find? fun s => s.code == c

theorem ofCode?_code (s : Sensor) : ofCode? s.code = some s := by cases s <;> rfl

/-- the place of a class in packet order -/
def position : Sensor → Nat
  | starboard => 0
  | port => 1
  | ocr => 2
  | mcoms => 3

def auxSize : Nat := 16

/-- bytes of one item: a spectrum of 32 words, four 32-bit channels, or three channels of two words
and one 32-bit count; then the auxiliary block -/
def itemSize : Sensor → Nat
  | starboard | port => 32 * 2 + auxSize
  | ocr => 4 * 4 + auxSize
  | mcoms => 3 * (2 * 2 + 4) + auxSize

def itemsPerPacket : Sensor → Nat
  | starboard | port => 100
  | ocr => 250
  | mcoms => 200

theorem itemSize_pos (s : Sensor) : 0 < s.itemSize := by cases s <;> decide

theorem itemsPerPacket_pos (s : Sensor) : 0 < s.itemsPerPacket := by cases s <;> decide

/-- Data Packets that `items` items of a class fill -/
def packetsFor (s : Sensor) (items : Nat) : Nat :=
  (items + s.itemsPerPacket - 1) / s.itemsPerPacket

end Sensor

/-- one value for each sensor class -/
structure PerSensor (α : Type) where
  starboard : α
  port : α
  ocr : α
  mcoms : α
  deriving DecidableEq, Repr

namespace PerSensor
variable {α β : Type}

def of (f : Sensor → α) : PerSensor α := ⟨f .starboard, f .port, f .ocr, f .mcoms⟩

def get (p : PerSensor α) : Sensor → α
  | .starboard => p.starboard
  | .port => p.port
  | .ocr => p.ocr
  | .mcoms => p.mcoms

def set (p : PerSensor α) (s : Sensor) (a : α) : PerSensor α :=
  of fun t => if t = s then a else p.get t

def toList (p : PerSensor α) : List α := Sensor.all.map p.get

theorem get_of (f : Sensor → α) (s : Sensor) : (of f).get s = f s := by cases s <;> rfl

theorem get_set (p : PerSensor α) (s : Sensor) (a : α) : (p.set s a).get s = a := by
  simp [set, get_of]

theorem get_set_ne (p : PerSensor α) {s t : Sensor} (h : t ≠ s) (a : α) :
    (p.set s a).get t = p.get t := by
  simp [set, get_of, h]

end PerSensor

end Shoreline
