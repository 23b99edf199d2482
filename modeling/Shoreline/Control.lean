import Shoreline.Burst

/-!
# Control lines

What the shore station sends back, one line for each message:

```text
RXED,0770,12345,0001,999,1A2B3C4D     the packet is held
RSND,0770,12345,0001,002,1A2B3C4D     send burst 2 again (999: the whole packet)
ALIF                                  heartbeat
```

The checksum covers everything before it, the last comma included.  Each line ends in CR LF.
-/

namespace Shoreline

inductive ControlKind where
  | received
  | resend
  deriving DecidableEq, Repr

namespace ControlKind

def tag : ControlKind → Bytes
  | received => [82, 88, 69, 68]
  | resend => [82, 83, 78, 68]

def ofTag? (b : Bytes) : Option ControlKind :=
  if b = tag received then some received else if b = tag resend then some resend else none

end ControlKind

structure ControlLine where
  kind : ControlKind
  key : PacketKey
  burst : UInt16
  deriving DecidableEq, Repr

namespace ControlLine

/-- the burst number that stands for the whole packet -/
def wholePacket : UInt16 := 999

def received (key : PacketKey) : ControlLine := ⟨.received, key, wholePacket⟩

def resendBurst (key : PacketKey) (burst : UInt16) : ControlLine := ⟨.resend, key, burst⟩

def resendPacket (key : PacketKey) : ControlLine := ⟨.resend, key, wholePacket⟩

def isWholePacket (c : ControlLine) : Bool := c.burst == wholePacket

/-! ## Writing -/

def comma : UInt8 := 44

def bodySize : Nat := 25

def size : Nat := bodySize + 8

def body (c : ControlLine) : Bytes :=
  c.kind.tag ++ [comma] ++ decimal 4 c.key.serial.toNat ++ [comma] ++
    decimal 5 c.key.profile.toNat ++ [comma] ++ decimal 4 c.key.packet.toNat ++ [comma] ++
    decimal 3 c.burst.toNat ++ [comma]

def text (c : ControlLine) : Bytes := c.body ++ checksumField (crc32 c.body)

def lineEnd : Bytes := [13, 10]

def wire (c : ControlLine) : Bytes := c.text ++ lineEnd

/-! ## Reading -/

/-- reads a comma at position `i` and the `width` digits behind it -/
def parseField (field : Field) (i width : Nat) (b : Bytes) : Except Fault Nat :=
  if b.getD i 0 ≠ comma then .error (.malformed field)
  else field.number (slice (i + 1) width b)

def parse (b : Bytes) : Except Fault ControlLine := do
  if b.length ≠ size then .error (.truncated size b.length)
  else
    let kind ← orFault (.malformed .tag) (ControlKind.ofTag? (b.take 4))
    let serial ← parseField .serial 4 4 b
    let profile ← parseField .profile 9 5 b
    let packet ← parseField .packet 15 4 b
    let burst ← parseField .burst 20 3 b
    if b.getD 24 0 ≠ comma then .error (.malformed .checksum)
    else
      let found ← Field.checksumIn (b.drop bodySize)
      Burst.verify (b.take bodySize) found
      if 65536 ≤ profile then .error (.malformed .profile)
      else
        .ok {
          kind
          key := {
            serial := UInt16.ofNat serial
            profile := UInt16.ofNat profile
            packet := UInt16.ofNat packet }
          burst := UInt16.ofNat burst }

end ControlLine

def heartbeat : Bytes := [65, 76, 73, 70]

/-- what one line says -/
inductive Inbound where
  | control (line : ControlLine)
  | heartbeat
  deriving DecidableEq, Repr

end Shoreline
