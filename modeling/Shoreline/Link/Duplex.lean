import Shoreline.Link

/-!
# Links in memory

Two ends joined by two queues.  Bytes written at one end are read at the other in order.  Closing
either end closes both: no more bytes can be written, and those that are queued can still be read.
-/

namespace Shoreline

inductive End where
  | a
  | b
  deriving DecidableEq, Repr

def End.other : End → End
  | a => b
  | b => a

structure Duplex where
  toA : Bytes
  toB : Bytes
  closed : Bool
  deriving DecidableEq, Repr

namespace Duplex

def new : Duplex := ⟨[], [], false⟩

/-- the bytes that an end can read -/
def inbound (d : Duplex) : End → Bytes
  | .a => d.toA
  | .b => d.toB

def setInbound (d : Duplex) (e : End) (b : Bytes) : Duplex :=
  match e with
  | .a => { d with toA := b }
  | .b => { d with toB := b }

def pending (d : Duplex) (e : End) : Nat := (d.inbound e).length

/-- reads at most `n` bytes at an end -/
def read (d : Duplex) (e : End) (n : Nat) : Except LinkFault (Bytes × Duplex) :=
  if d.inbound e = [] ∧ d.closed then .error .closed
  else .ok ((d.inbound e).take n, d.setInbound e ((d.inbound e).drop n))

def write (d : Duplex) (e : End) (b : Bytes) : Except LinkFault Duplex :=
  if d.closed then .error .closed
  else .ok (d.setInbound e.other (d.inbound e.other ++ b))

def close (d : Duplex) : Duplex := { d with closed := true }

end Duplex

end Shoreline
