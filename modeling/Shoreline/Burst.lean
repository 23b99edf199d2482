import Shoreline.Checksum
import Shoreline.Field

/-!
# Bursts

A packet travels in bursts.  Burst 0 announces how many data bursts there are, bursts 1, 2, … carry
the packet's bytes, and a terminal burst says that no more will follow:

```text
BRST serial(4) profile(5) packet(4)  000  count(4)     announce
                                     index(3) size(4)  data
                                     ZZZ  ZZZZ         terminal
checksum(8 hexadecimal digits)  payload
```

Numbers are decimal digits.  The checksum covers the 24 bytes before it and the payload.
-/

namespace Shoreline

/-- a profile of a profiler -/
structure ProfileKey where
  serial : UInt16
  profile : UInt16
  deriving DecidableEq, Repr

/-- a packet of a profile -/
structure PacketKey extends ProfileKey where
  packet : UInt16
  deriving DecidableEq, Repr

inductive BurstKind where
  | announce (count : UInt16)
  | data (index : UInt16) (payload : Bytes)
  | terminal
  deriving DecidableEq, Repr

structure Burst where
  key : PacketKey
  kind : BurstKind
  deriving DecidableEq, Repr

namespace Burst

def magic : Bytes := [66, 82, 83, 84]

/-- seven times the letter `Z`, in place of a terminal burst's index and size -/
def terminalMark : Bytes := List.replicate 7 90

def headerSize : Nat := 24

/-- bytes of a burst besides its payload -/
def overhead : Nat := headerSize + 8

def mostPayload : Nat := 8192

/-! ## Writing -/

def keyField (k : PacketKey) : Bytes :=
  decimal 4 k.serial.toNat ++ decimal 5 k.profile.toNat ++ decimal 4 k.packet.toNat

def kindField : BurstKind → Bytes
  | .announce count => decimal 3 0 ++ decimal 4 count.toNat
  | .data index payload => decimal 3 index.toNat ++ decimal 4 payload.length
  | .terminal => terminalMark

def header (b : Burst) : Bytes := magic ++ keyField b.key ++ kindField b.kind

def payload (b : Burst) : Bytes :=
  match b.kind with
  | .data _ payload => payload
  | _ => []

def checksum (b : Burst) : UInt32 := crc32 (b.header ++ b.payload)

def wire (b : Burst) : Bytes := b.header ++ checksumField b.checksum ++ b.payload

def wireSize (b : Burst) : Nat := overhead + b.payload.length

/-! ## Reading -/

/-- `b` must have the checksum `found` -/
def verify (b : Bytes) (found : UInt32) : Except Fault Unit :=
  if crc32 b = found then .ok () else .error (.checksum (crc32 b) found)

theorem verify_of_eq {b : Bytes} {found : UInt32} (h : crc32 b = found) : verify b found = .ok () :=
  if_pos h

theorem eq_of_verify {b : Bytes} {found : UInt32} {u : Unit} (h : verify b found = .ok u) :
    crc32 b = found := by
  unfold verify at h
  split at h
  · assumption
  · exact absurd h (by simp)

def parseKey (header : Bytes) : Except Fault PacketKey := do
  let serial ← Field.serial.word (slice 4 4 header)
  let profile ← Field.profile.word (slice 8 5 header)
  let packet ← Field.packet.word (slice 13 4 header)
  .ok { serial, profile, packet }

/-- reads a data burst of the given index and size behind its header -/
def parseData (mostPayload : Nat) (key : PacketKey) (index : UInt16) (size : Nat) (found : UInt32)
    (b : Bytes) : Except Fault (Option (Burst × Nat)) :=
  if size = 0 ∨ mostPayload < size then .error (.malformed .burstSize)
  else
    let payload := slice overhead size b
    if payload.length < size then .ok none
    else do
      verify (b.take headerSize ++ payload) found
      .ok (some (⟨key, .data index payload⟩, overhead + size))

/-- reads the burst at the front of `b` and the number of its bytes; nothing when `b` may be the
beginning of one -/
def parse (mostPayload : Nat) (b : Bytes) : Except Fault (Option (Burst × Nat)) := do
  if (b.take 4).length < 4 then .ok none
  else if b.take 4 ≠ magic then .error (.magic (b.take 4))
  else if (b.take overhead).length < overhead then .ok none
  else
    let header := b.take headerSize
    let key ← parseKey header
    let found ← Field.checksumIn (slice headerSize 8 b)
    if header.drop 17 = terminalMark then
      verify header found
      .ok (some (⟨key, .terminal⟩, overhead))
    else
      let index ← Field.burstNumber.word (slice 17 3 header)
      let size ← Field.burstSize.number (slice 20 4 header)
      if index = 0 then
        verify header found
        .ok (some (⟨key, .announce (UInt16.ofNat size)⟩, overhead))
      else parseData mostPayload key index size found b

end Burst

end Shoreline
