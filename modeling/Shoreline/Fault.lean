import Shoreline.Sensor
import Shoreline.Stage
import Shoreline.Text

/-!
# Faults

What can be wrong with an input, one constructor for each cause, and the wording of each
(`Fault.message`).  Decoders return `Except Fault`, so the cause is data and the wording is written
only here.
-/

namespace Shoreline

/-- a field of a packet, a burst or a control line -/
inductive Field where
  | serial
  | profile
  | packet
  | burst
  | burstNumber
  | burstSize
  | checksum
  | tag
  | infoPacketNumber
  | dataPacketNumber
  | packetNumber
  | itemCount
  | compressedSize
  | encodedSize
  | classItems
  | classPackets
  deriving DecidableEq, Repr

def Field.name : Field → String
  | serial => "serial"
  | profile => "profile"
  | packet => "packet"
  | burst => "burst"
  | burstNumber => "burst number"
  | burstSize => "burst size"
  | checksum => "crc"
  | tag => "tag"
  | infoPacketNumber => "info packet number"
  | dataPacketNumber => "data packet number"
  | packetNumber => "packet number"
  | itemCount => "item count"
  | compressedSize => "compressed size"
  | encodedSize => "encoded size"
  | classItems => "numData"
  | classPackets => "numPackets"

/-- a stage that is named by a header letter -/
inductive StageLetter where
  | representation
  | noise
  | compression
  | encoding
  deriving DecidableEq, Repr

def StageLetter.name : StageLetter → String
  | representation => "representation"
  | noise => "noise-bits"
  | compression => "compression"
  | encoding => "ascii-encoding"

/-- why a body cannot be turned back into a payload -/
inductive BodyFault where
  /-- a character outside the alphabet, or the zero group's letter inside a group -/
  | base85Character (c : UInt8)
  /-- a final group of one character -/
  | base85Dangling
  /-- a group that stands for more than 32 bits -/
  | base85Overflow
  | base64Symbol (c : UInt8) (offset : Nat)
  | base64Length (length : Nat)
  | base64Padding
  | base64LastSymbol (c : UInt8) (offset : Nat)
  | deflateCorrupt
  | deflateIncomplete
  | deflatePastLimit (limit : Nat)
  /-- the uncompressed body has the wrong length -/
  | stagedLength (expected got : Nat)
  | planeLength (expected got : Nat)
  | looseSamples (samples : Nat)
  | rawLength (raw items : Nat)
  deriving DecidableEq, Repr

namespace BodyFault

/-- the stage that could not be inverted -/
def stage : BodyFault → String
  | base85Character _ | base85Dangling | base85Overflow => "ascii85"
  | base64Symbol _ _ | base64Length _ | base64Padding | base64LastSymbol _ _ => "base64"
  | deflateCorrupt | deflateIncomplete | deflatePastLimit _ => "deflate"
  | stagedLength _ _ => "payload"
  | planeLength _ _ => "bit-plane"
  | looseSamples _ | rawLength _ _ => "layout"

def reason : BodyFault → String
  | base85Character c => "invalid character " ++ Text.quoted c
  | base85Dangling => "dangling final character"
  | base85Overflow => "group exceeds 32 bits"
  | base64Symbol c offset => s!"Invalid symbol {c.toNat}, offset {offset}."
  | base64Length length => s!"Invalid input length: {length}"
  | base64Padding => "Invalid padding"
  | base64LastSymbol c offset => s!"Invalid last symbol {c.toNat}, offset {offset}."
  | deflateCorrupt => "corrupt deflate stream"
  | deflateIncomplete => "incomplete deflate stream"
  | deflatePastLimit limit => s!"inflated past the {limit}-byte limit"
  | stagedLength expected got => s!"expected {expected} staged bytes, got {got}"
  | planeLength expected got => s!"expected {expected} plane bytes, got {got}"
  | looseSamples samples => s!"{samples} samples do not fill whole items"
  | rawLength raw items => s!"{raw} raw bytes do not match {items} items"

end BodyFault

/-- the most data bursts of a packet; the number above it means the whole packet -/
def mostBursts : Nat := 998

inductive Fault where
  /-- a burst that does not start with the magic -/
  | magic (found : Bytes)
  | malformed (field : Field)
  | checksum (expected found : UInt32)
  | burstSize (size : Nat)
  | tooManyBursts (length count : Nat)
  | truncated (needed got : Nat)
  | unknownSensor (code : UInt8)
  | unknownStage (stage : StageLetter) (code : UInt8)
  | partialItem (sensor : Sensor) (length : Nat)
  /-- a number with more digits than its field -/
  | overflow (field : Field) (value : Nat)
  | noiseBits
  | noiseWithoutPlanes
  | body (cause : BodyFault)
  /-- a source of samples that failed -/
  | source (text : String)
  deriving DecidableEq, Repr

def Fault.message : Fault → String
  | magic found => "invalid burst magic: " ++ Text.byteList found
  | malformed field => s!"malformed {field.name} field"
  | checksum expected found =>
    s!"checksum mismatch: expected {Text.checksum expected}, got {Text.checksum found}"
  | burstSize size => s!"invalid burst size {size} (power of two in 128..=8192 required)"
  | tooManyBursts length count =>
    s!"packet of {length} bytes needs {count} bursts (max {mostBursts})"
  | truncated needed got => s!"truncated input: need {needed} bytes, got {got}"
  | unknownSensor code => "unknown sensor type " ++ Text.quoted code
  | unknownStage stage code => s!"unknown {stage.name} code {Text.quoted code}"
  | partialItem sensor length =>
    s!"{length} bytes is not a whole number of {sensor.name} items ({sensor.itemSize} bytes each)"
  | overflow field value => s!"{field.name} value {value} does not fit its field"
  | noiseBits => "invalid transmit instructions: noise_bits_remove must be in 0..=7"
  | noiseWithoutPlanes =>
    "invalid transmit instructions: noise bits can only be removed together with bit-planes"
  | body cause => s!"{cause.stage} stage failed: {cause.reason}"
  | source text => "IO error: " ++ text

/-- `some a` as a success, `none` as the fault `e` -/
def orFault {α : Type} (e : Fault) : Option α → Except Fault α
  | some a => .ok a
  | none => .error e

section
variable {ε α β : Type}

theorem map_eq_ok {f : α → β} {x : Except ε α} {b : β} (h : x.map f = .ok b) :
    ∃ a, x = .ok a ∧ f a = b := by
  cases x with
  | error e => exact absurd h (by simp [Except.map])
  | ok a => exact ⟨a, rfl, Except.ok.inj h⟩

theorem bind_eq_ok {f : α → Except ε β} {x : Except ε α} {b : β} (h : x >>= f = .ok b) :
    ∃ a, x = .ok a ∧ f a = .ok b := by
  cases x with
  | error e => exact absurd h (by simp [bind, Except.bind])
  | ok a => exact ⟨a, rfl, h⟩

theorem bind_eq_error {f : α → Except ε β} {x : Except ε α} {e : ε} (h : x >>= f = .error e) :
    x = .error e ∨ ∃ a, x = .ok a ∧ f a = .error e := by
  cases x with
  | error e' => exact Or.inl (congrArg Except.error (Except.error.inj h))
  | ok a => exact Or.inr ⟨a, rfl, h⟩

theorem orFault_eq_ok {e : Fault} {o : Option α} {a : α} (h : orFault e o = .ok a) : o = some a := by
  cases o with
  | none => exact absurd h (by simp [orFault])
  | some a' => rw [Except.ok.inj h]

theorem toOption_eq_some {x : Except ε α} {a : α} (h : x.toOption = some a) : x = .ok a := by
  cases x with
  | error e => exact absurd h (by simp [Except.toOption])
  | ok b => exact congrArg Except.ok (Option.some.inj h)

end

end Shoreline
