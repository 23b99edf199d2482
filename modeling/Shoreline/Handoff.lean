import Shoreline.Link
import Shoreline.Profile

/-!
# Handing profiles over

Acquisition hands finished profiles to transmission through a queue that holds at most `capacity` of
them.  There may be several producers; each profile goes to the one consumer, in the order in which
they were put in.  An operation that would have to wait says so and changes nothing.
-/

namespace Shoreline

structure Handoff where
  capacity : Nat
  queue : List Profile
  /-- producers that are left -/
  producers : Nat
  consumer : Bool

namespace Handoff

def new (capacity : Nat) : Handoff := ⟨capacity, [], 1, true⟩

/-- how an operation that may have to wait comes out -/
inductive Outcome (α : Type) where
  | done (a : α)
  | failed (e : LinkFault)
  | blocked

def isFull (h : Handoff) : Bool := h.capacity ≤ h.queue.length

/-- puts a profile in, or waits while the queue is full -/
def send (h : Handoff) (p : Profile) : Outcome Handoff :=
  if !h.consumer then .failed .closed
  else if h.isFull then .blocked
  else .done { h with queue := h.queue ++ [p] }

def trySend (h : Handoff) (p : Profile) : Option Handoff :=
  if !h.consumer || h.isFull then none else some { h with queue := h.queue ++ [p] }

/-- the next profile, waiting while one may still come; nothing when no producer is left -/
def receive (h : Handoff) : Outcome (Option Profile × Handoff) :=
  match h.queue with
  | p :: ps => .done (some p, { h with queue := ps })
  | [] => if h.producers = 0 then .done (none, h) else .blocked

def tryReceive (h : Handoff) : Option Profile × Handoff :=
  match h.queue with
  | p :: ps => (some p, { h with queue := ps })
  | [] => (none, h)

/-- the next profile if one is there in time -/
def receiveInTime (h : Handoff) : Except LinkFault (Option Profile × Handoff) :=
  match h.queue with
  | p :: ps => .ok (some p, { h with queue := ps })
  | [] => if h.producers = 0 then .error .closed else .ok (none, h)

def addProducer (h : Handoff) : Handoff := { h with producers := h.producers + 1 }

def dropProducer (h : Handoff) : Handoff := { h with producers := h.producers - 1 }

/-- without a consumer the queue is emptied -/
def dropConsumer (h : Handoff) : Handoff := { h with consumer := false, queue := [] }

end Handoff

end Shoreline
