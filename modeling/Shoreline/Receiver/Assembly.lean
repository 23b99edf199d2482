import Shoreline.Control
import Shoreline.Keyed
import Shoreline.Packet

/-!
# Putting packets together

An assembly holds what has arrived of one profile: for each packet the announced number of bursts and
the pieces that are there, and the packets that were rebuilt.

A packet is rebuilt when its terminal burst was seen and every announced piece is there (`ready`).
Its bytes must decode to the packet that its key names; otherwise it starts again from nothing.  What
the receiver says about it is a list of `Answer`s.

* `apply`               one burst;
* `reassemble`          rebuilds a packet, and then every other one that is ready (`sweep`);
* `requestOutstanding`  asks for everything that is missing.
-/

namespace Shoreline

instance : Ranked ProfileKey where
  rank k := k.serial.toNat * 65536 + k.profile.toNat
  eq_of_rank {a b} h := by
    have := a.profile.toNat_lt
    have := b.profile.toNat_lt
    have hs : a.serial = b.serial := UInt16.toNat_inj.mp (by omega)
    have hp : a.profile = b.profile := UInt16.toNat_inj.mp (by omega)
    obtain ⟨_, _⟩ := a
    obtain ⟨_, _⟩ := b
    simp_all

/-- the numbers from 1 to `n` -/
def numbersTo (n : Nat) : List UInt16 := (List.range' 1 (min n 65535)).map UInt16.ofNat

/-! ## One packet -/

structure PacketAssembly where
  /-- how many data bursts the packet has -/
  announced : Option UInt16
  /-- the payloads that are there, by burst index -/
  pieces : Keyed UInt16 Bytes
  terminalSeen : Bool
  held : Bool

namespace PacketAssembly

def new : PacketAssembly := ⟨none, .empty, false, false⟩

def indices (p : PacketAssembly) : List UInt16 := numbersTo (p.announced.getD 0).toNat

def hasAll (p : PacketAssembly) : Bool := p.announced.isSome && p.indices.all p.pieces.contains

def ready (p : PacketAssembly) : Bool := !p.held && p.terminalSeen && p.hasAll

/-- the announced indices whose pieces are not there -/
def missing (p : PacketAssembly) : List UInt16 := p.indices.filter fun i => !p.pieces.contains i

def buffered (p : PacketAssembly) : Nat := (p.pieces.values.map List.length).sum

def bytes (p : PacketAssembly) : Bytes := p.pieces.values.flatten

/-- the packet with nothing of it there -/
def restart (p : PacketAssembly) : PacketAssembly :=
  { p with announced := none, pieces := .empty, terminalSeen := false }

/-- the packet is rebuilt, and its pieces are not needed any more -/
def hold (p : PacketAssembly) : PacketAssembly := { p with held := true, pieces := .empty }

/-- the packet has `count` data bursts; another number than before starts it again -/
def announce (p : PacketAssembly) (count : UInt16) : PacketAssembly :=
  let p := if p.announced.any (· != count) then p.restart else p
  { p with announced := some count, pieces := p.pieces.filter fun i _ => i ≤ count }

end PacketAssembly

/-! ## One profile -/

/-- what was rebuilt of a profile -/
structure ReceivedProfile where
  key : ProfileKey
  info : Option InfoPacket
  data : Keyed UInt16 DataPacket

namespace ReceivedProfile

/-- how many Data Packets there are, once it is known -/
def expected? (p : ReceivedProfile) : Option Nat := p.info.map (·.definition.total)

/-- the Data Packets known to be missing -/
def missing (p : ReceivedProfile) : List UInt16 :=
  (numbersTo (p.expected?.getD 0)).filter fun n => !p.data.contains n

def isComplete (p : ReceivedProfile) : Bool := p.info.isSome && p.missing.isEmpty

end ReceivedProfile

/-- what the receiver says about a packet -/
inductive Answer where
  /-- it has just been rebuilt -/
  | rebuilt (packet : UInt16)
  /-- it was rebuilt before -/
  | stillHeld (packet : UInt16)
  | wantsBurst (packet burst : UInt16)
  | wantsAll (packet : UInt16)
  deriving DecidableEq, Repr

namespace Answer

def line (key : ProfileKey) : Answer → ControlLine
  | rebuilt packet | stillHeld packet => .received { key with packet }
  | wantsBurst packet burst => .resendBurst { key with packet } burst
  | wantsAll packet => .resendPacket { key with packet }

def isRebuilt : Answer → Bool
  | rebuilt _ => true
  | _ => false

end Answer

/-- the key that a packet states itself -/
def Packet.key : Packet → PacketKey
  | .info p => { serial := p.serial, profile := p.profile, packet := 0 }
  | .data p => { serial := p.header.serial, profile := p.header.profile, packet := p.header.packet }

structure ProfileAssembly where
  packets : Keyed UInt16 PacketAssembly
  received : ReceivedProfile

namespace ProfileAssembly

def new (key : ProfileKey) : ProfileAssembly := ⟨.empty, ⟨key, none, .empty⟩⟩

def packet (s : ProfileAssembly) (n : UInt16) : PacketAssembly := (s.packets.get? n).getD .new

def put (s : ProfileAssembly) (n : UInt16) (p : PacketAssembly) : ProfileAssembly :=
  { s with packets := s.packets.insert n p }

def isComplete (s : ProfileAssembly) : Bool := s.received.isComplete

def buffered (s : ProfileAssembly) : Nat := (s.packets.values.map PacketAssembly.buffered).sum

/-! ### Rebuilding -/

/-- the packet that the pieces of `n` decode to, if it is packet `n` of this profile -/
def decoded? (s : ProfileAssembly) (n : UInt16) : Option Packet :=
  match Packet.decode (s.packet n).bytes with
  | .ok p => if p.key = { s.received.key with packet := n } then some p else none
  | .error _ => none

/-- packet `n` is rebuilt as `p` -/
def store (s : ProfileAssembly) (n : UInt16) (p : Packet) : ProfileAssembly :=
  let s := s.put n (s.packet n).hold
  match p with
  | .info p => { s with received := { s.received with info := some p } }
  | .data p => { s with received := { s.received with data := s.received.data.insert n p } }

/-- rebuilds packet `n` from its pieces, or starts it again -/
def rebuild (s : ProfileAssembly) (n : UInt16) : ProfileAssembly × Answer :=
  match s.decoded? n with
  | some p => (s.store n p, .rebuilt n)
  | none => (s.put n (s.packet n).restart, .wantsAll n)

/-- the packets that are ready, in ascending order -/
def ready (s : ProfileAssembly) : List UInt16 := (s.packets.filter fun _ p => p.ready).keys

/-- rebuilds every packet that is ready; to rebuild one makes no other one ready -/
def sweep (s : ProfileAssembly) : ProfileAssembly × List Answer :=
  s.ready.foldl (fun (s, answers) n =>
    let (s, a) := s.rebuild n
    (s, answers ++ [a])) (s, [])

/-- rebuilds packet `n` and, if that succeeds, every packet that is ready -/
def reassemble (s : ProfileAssembly) (n : UInt16) : ProfileAssembly × List Answer :=
  if !s.packets.contains n then (s, [])
  else
    let (s, a) := s.rebuild n
    if a.isRebuilt then
      let (s, answers) := s.sweep
      (s, a :: answers)
    else (s, [a])

/-- stores what is there of packet `n`, and rebuilds it if it is ready -/
def settle (s : ProfileAssembly) (n : UInt16) (p : PacketAssembly) :
    ProfileAssembly × List Answer :=
  let s := s.put n p
  if p.ready then s.reassemble n else (s, [])

/-! ### Requests -/

/-- asks for what is missing of packet `n` -/
def request (s : ProfileAssembly) (n : UInt16) : List Answer :=
  match s.packets.get? n with
  | some p =>
    if p.held then []
    else if p.announced.isSome then p.missing.map (.wantsBurst n)
    else [.wantsAll n]
  | none => [.wantsAll n]

/-- the packets that are not held: those seen, the Info Packet, and the Data Packets that it counts -/
def outstanding (s : ProfileAssembly) : List UInt16 :=
  let seen := (s.packets.filter fun _ p => !p.held).keys
  let first := if s.packets.contains 0 then [] else [0]
  first ++ seen ++ s.received.missing.filter fun n => !s.packets.contains n

/-- rebuilds packet `n` when only its terminal burst is missing, and asks for what is missing
otherwise -/
def pursue (s : ProfileAssembly) (n : UInt16) : ProfileAssembly × List Answer :=
  let p := s.packet n
  if !p.held && p.hasAll then s.reassemble n else (s, s.request n)

def requestOutstanding (s : ProfileAssembly) : ProfileAssembly × List Answer :=
  s.outstanding.foldl (fun (s, answers) n =>
    let (s, more) := s.pursue n
    (s, answers ++ more)) (s, [])

/-! ### Bursts -/

def onAnnounce (s : ProfileAssembly) (n count : UInt16) : ProfileAssembly × List Answer :=
  if (s.packet n).held then (s, []) else s.settle n ((s.packet n).announce count)

def onData (s : ProfileAssembly) (n index : UInt16) (payload : Bytes) :
    ProfileAssembly × List Answer :=
  let p := s.packet n
  if p.held then (s, [])
  else if p.announced.any (· < index) then (s, [])
  else s.settle n { p with pieces := p.pieces.insert index payload }

def onTerminal (s : ProfileAssembly) (n : UInt16) : ProfileAssembly × List Answer :=
  let p := s.packet n
  if p.held then (s, [.stillHeld n])
  else
    let s := s.put n { p with terminalSeen := true }
    if p.hasAll then s.reassemble n else (s, s.request n)

/-- a burst of packet `n` -/
def apply (s : ProfileAssembly) (n : UInt16) : BurstKind → ProfileAssembly × List Answer
  | .announce count => s.onAnnounce n count
  | .data index payload => s.onData n index payload
  | .terminal => s.onTerminal n

end ProfileAssembly

end Shoreline
