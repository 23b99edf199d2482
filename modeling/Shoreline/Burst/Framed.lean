import Shoreline.Burst
import Shoreline.Instructions

/-!
# Framing

A serialized packet is cut into pieces of the burst size, the last one perhaps shorter.  Piece `i`
travels in burst `i`, counted from 1; burst 0 announces their number and the burst after the last
piece is the terminal one.
-/

namespace Shoreline

/-- a serialized packet cut into the payloads of its data bursts -/
structure Framed where
  key : PacketKey
  pieces : List Bytes
  deriving DecidableEq

namespace Framed

/-- bursts of `size` bytes that `length` bytes need -/
def needed (length size : Nat) : Nat := (length + size - 1) / size

def frame (key : PacketKey) (packet : Bytes) (size : Nat) : Except Fault Framed :=
  if size ∉ burstSizes then .error (.burstSize size)
  else if mostBursts < needed packet.length size then
    .error (.tooManyBursts packet.length (needed packet.length size))
  else .ok ⟨key, chunks size packet⟩

def count (f : Framed) : Nat := f.pieces.length

def terminalIndex (f : Framed) : Nat := f.count + 1

def packet (f : Framed) : Bytes := f.pieces.flatten

def kind? (f : Framed) : Nat → Option BurstKind
  | 0 => some (.announce (UInt16.ofNat f.count))
  | i + 1 =>
    match f.pieces[i]? with
    | some piece => some (.data (UInt16.ofNat (i + 1)) piece)
    | none => if i = f.count then some .terminal else none

/-- the burst of the given index, up to the terminal one -/
def burst? (f : Framed) (i : Nat) : Option Burst := (f.kind? i).map (⟨f.key, ·⟩)

def render? (f : Framed) (i : Nat) : Option Bytes := (f.burst? i).map Burst.wire

end Framed

end Shoreline
