import Shoreline.Fault

/-!
# Links

A link moves bytes between the profiler and the shore station, and does not wait: a read gives what
is there, perhaps nothing.  `LinkFault` lists how a link operation can fail.

`Script` is a link as one run of a poll loop sees it: what each read gives, which writes fail, and
when the clock is looked at, what it shows.  A script that is used up has been closed by the peer.
Any finite run over any link is a run over some script.
-/

namespace Shoreline

inductive LinkFault where
  | failure (text : String)
  /-- a write that was not through after `timeout` nanoseconds -/
  | writeTimeout (written length timeout : Nat)
  | closed
  | protocol (cause : Fault)
  deriving DecidableEq, Repr

namespace LinkFault

def message : LinkFault → String
  | failure text => "link i/o error: " ++ text
  | writeTimeout written length timeout =>
    s!"write timed out after {Text.duration timeout}: {written} of {length} bytes written"
  | closed => "link closed by peer"
  | protocol cause => "protocol error: " ++ cause.message

/-- the link cannot carry bytes any more -/
def isLinkFailure : LinkFault → Bool
  | protocol _ => false
  | _ => true

/-- the text of the failure behind this one -/
def source? : LinkFault → Option String
  | failure text => some text
  | protocol cause => some cause.message
  | _ => none

end LinkFault

/-! ## Scripted links -/

/-- what one read finds -/
inductive Reading where
  /-- bytes; those that do not fit the reader's buffer stay for the next reads -/
  | arrived (b : Bytes)
  | nothing
  /-- nothing, and the caller asks for an end -/
  | cancel
  | failed (e : LinkFault)
  deriving DecidableEq, Repr

structure Script where
  readings : List Reading
  /-- bytes that have arrived and were not read yet -/
  pending : Bytes
  cancelled : Bool
  /-- how write `n` fails, if it does -/
  writeFault : Nat → Option LinkFault
  writes : Nat
  /-- what was written, the last first -/
  written : List Bytes
  /-- what the clock shows at look `n` -/
  clock : Nat → Nat
  /-- how often the clock was looked at -/
  looks : Nat

namespace Script

/-- a link with the given readings, on which every write succeeds and no time passes -/
def ofReadings (readings : List Reading) : Script where
  readings
  pending := []
  cancelled := false
  writeFault _ := none
  writes := 0
  written := []
  clock _ := 0
  looks := 0

/-- hands out at most `n` of the bytes that have arrived -/
def serve (s : Script) (n : Nat) (b : Bytes) : Except LinkFault Bytes × Script :=
  (.ok (b.take n), { s with pending := b.drop n })

def read (s : Script) (n : Nat) : Except LinkFault Bytes × Script :=
  match s.pending, s.readings with
  | x :: b, _ => s.serve n (x :: b)
  | [], [] => (.error .closed, s)
  | [], .arrived b :: rs => { s with readings := rs }.serve n b
  | [], .nothing :: rs => (.ok [], { s with readings := rs })
  | [], .cancel :: rs => (.ok [], { s with readings := rs, cancelled := true })
  | [], .failed e :: rs => (.error e, { s with readings := rs })

def write (s : Script) (b : Bytes) : Option LinkFault × Script :=
  match s.writeFault s.writes with
  | some e => (some e, { s with writes := s.writes + 1 })
  | none => (none, { s with writes := s.writes + 1, written := b :: s.written })

def now (s : Script) : Nat × Script := (s.clock s.looks, { s with looks := s.looks + 1 })

/-- a bound on the reads that are left -/
def Reading.cost : Reading → Nat
  | .arrived b => b.length + 1
  | _ => 1

def cost (s : Script) : Nat := s.pending.length + (s.readings.map Reading.cost).sum

theorem cost_read {s s' : Script} {n : Nat} {b : Bytes} (hn : 0 < n)
    (h : s.read n = (.ok b, s')) : s'.cost < s.cost := by
  unfold read at h
  split at h
  · next x p hp =>
    obtain ⟨_, rfl⟩ := Prod.mk.inj h
    simp only [cost, hp, List.length_drop, List.length_cons]
    omega
  · exact absurd h (by simp)
  · next p rs hp hr =>
    obtain ⟨_, rfl⟩ := Prod.mk.inj h
    simp only [cost, hp, hr, List.length_drop, List.length_nil, List.map_cons, List.sum_cons,
      Reading.cost]
    omega
  · next rs hp hr =>
    obtain ⟨_, rfl⟩ := Prod.mk.inj h
    simp only [cost, hp, hr, List.map_cons, List.sum_cons, Reading.cost]
    omega
  · next rs hp hr =>
    obtain ⟨_, rfl⟩ := Prod.mk.inj h
    simp only [cost, hp, hr, List.map_cons, List.sum_cons, Reading.cost]
    omega
  · exact absurd h (by simp)

theorem cost_write (s : Script) (b : Bytes) : (s.write b).2.cost = s.cost := by
  unfold write; split <;> rfl

theorem cost_now (s : Script) : s.now.2.cost = s.cost := rfl

end Script

end Shoreline
