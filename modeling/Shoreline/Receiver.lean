import Shoreline.Burst.Reader
import Shoreline.Counters
import Shoreline.Receiver.Assembly

/-!
# Receiving profiles

A receiver finds bursts in the bytes it is given, puts the packets of each profile together, and
queues the lines that go back to the profiler.  Profiles do not mix: each has an assembly of its own.

A data burst that would bring the bytes held for incomplete packets above a limit is dropped.

Two timers run (`pollTimers`): one queues heartbeats; the other, when no burst has come for a while,
gives up a burst that is still incomplete and asks for everything outstanding.  Times are
milliseconds.
-/

namespace Shoreline

structure ReceiverConfig where
  /-- silence after which what is missing is asked for -/
  resendTimeout : Nat
  heartbeatInterval : Nat
  /-- silence after which the session is given up -/
  sessionTimeout : Nat
  writeTimeout : Nat
  readChunk : Nat
  /-- the largest payload of a data burst -/
  mostPayload : Nat
  /-- the most bytes held for incomplete packets -/
  mostBuffered : Nat
  pollInterval : Nat
  deriving DecidableEq, Repr

def ReceiverConfig.standard : ReceiverConfig :=
  ⟨15000, 10000, 120000, 10000, 4096, Burst.mostPayload, 16777216, 50⟩

inductive Outgoing where
  | heartbeat
  | control (line : ControlLine)
  deriving DecidableEq, Repr

def Outgoing.wire : Outgoing → Bytes
  | heartbeat => Shoreline.heartbeat ++ ControlLine.lineEnd
  | control line => line.wire

structure Receiver where
  config : ReceiverConfig
  reader : BurstReader
  profiles : Keyed ProfileKey ProfileAssembly
  /-- the lines that wait, as what they say; `queue` has their bytes -/
  outbox : List Outgoing
  lastBurst : Nat
  lastResend : Nat
  lastHeartbeat : Nat
  burstsReceived : Nat
  controlSent : Nat
  rebuilt : Nat

namespace Receiver

def new (config : ReceiverConfig) (now : Nat) : Receiver where
  config
  reader := .new config.mostPayload
  profiles := .empty
  outbox := []
  lastBurst := now
  lastResend := now
  lastHeartbeat := now
  burstsReceived := 0
  controlSent := 0
  rebuilt := 0

def buffered (r : Receiver) : Nat := (r.profiles.values.map ProfileAssembly.buffered).sum

/-- at least one profile was seen, and each is complete -/
def isComplete (r : Receiver) : Bool :=
  !r.profiles.entries.isEmpty && r.profiles.values.all ProfileAssembly.isComplete

/-- no burst has come for the session timeout -/
def isTimedOut (r : Receiver) (now : Nat) : Bool :=
  decide (r.config.sessionTimeout ≤ now - r.lastBurst)

/-- units of the stream that were passed over -/
def rejected (r : Receiver) : Nat := r.reader.rejected

/-! ## Input -/

/-- stores the assembly of a profile and queues its answers -/
def update (r : Receiver) (key : ProfileKey) (result : ProfileAssembly × List Answer) : Receiver :=
  { r with
    profiles := r.profiles.insert key result.1
    outbox := r.outbox ++ result.2.map fun a => .control (a.line key)
    controlSent := r.controlSent + result.2.length
    rebuilt := r.rebuilt + result.2.countP Answer.isRebuilt }

/-- there is no room for the payload of this burst -/
def lacksRoom (r : Receiver) : BurstKind → Bool
  | .data _ payload => r.config.mostBuffered < r.buffered + payload.length
  | _ => false

/-- takes in a burst that arrived at the time `now` -/
def handleBurst (now : Nat) (r : Receiver) (b : Burst) : Receiver :=
  let r := { r with burstsReceived := r.burstsReceived + 1, lastBurst := now }
  if r.lacksRoom b.kind then r
  else
    let key := b.key.toProfileKey
    let assembly := (r.profiles.get? key).getD (.new key)
    r.update key (assembly.apply b.key.packet b.kind)

/-- takes in bytes that arrived at the time `now` -/
def handleInput (r : Receiver) (b : Bytes) (now : Nat) : Receiver :=
  let (bursts, reader) := r.reader.feed b
  bursts.foldl (handleBurst now) { r with reader }

/-! ## Timers -/

def pollHeartbeat (r : Receiver) (now : Nat) : Receiver :=
  if r.config.heartbeatInterval ≤ now - r.lastHeartbeat then
    { r with outbox := r.outbox ++ [.heartbeat], lastHeartbeat := now }
  else r

/-- no burst has come and nothing was asked for during the resend timeout -/
def isQuiet (r : Receiver) (now : Nat) : Bool :=
  decide (r.config.resendTimeout ≤ now - max r.lastBurst r.lastResend)

/-- gives up a burst that is still incomplete, and takes in the bursts behind it -/
def skipStalled (r : Receiver) (now : Nat) : Receiver :=
  match r.reader.skipStalled with
  | (false, _) => r
  | (true, reader) =>
    let (bursts, reader) := reader.drain
    bursts.foldl (handleBurst now) { r with reader }

/-- asks for everything that is outstanding of one profile -/
def requestProfile (r : Receiver) (key : ProfileKey) (assembly : ProfileAssembly) : Receiver :=
  if assembly.isComplete then r else r.update key assembly.requestOutstanding

/-- asks for everything that is outstanding of the profiles that are not complete -/
def requestOutstanding (r : Receiver) : Receiver :=
  r.profiles.entries.foldl (fun r (key, assembly) => r.requestProfile key assembly) r

def pollTimers (r : Receiver) (now : Nat) : Receiver :=
  let r := r.pollHeartbeat now
  if !r.isQuiet now then r
  else
    let r := r.skipStalled now
    if r.isComplete then r else { r.requestOutstanding with lastResend := now }

/-! ## Output -/

/-- the lines that wait, in bytes -/
def queue (r : Receiver) : List Bytes := r.outbox.map Outgoing.wire

def emit? (r : Receiver) : Option Bytes × Receiver :=
  match r.outbox with
  | [] => (none, r)
  | line :: lines => (some line.wire, { r with outbox := lines })

def drain (r : Receiver) : List Bytes × Receiver :=
  (r.queue, { r with outbox := [] })

/-- what was rebuilt, in the order of the profiles' keys -/
def received (r : Receiver) : List ReceivedProfile := r.profiles.values.map (·.received)

def profile? (r : Receiver) (key : ProfileKey) : Option ReceivedProfile :=
  (r.profiles.get? key).map (·.received)

def counters (r : Receiver) : Counters :=
  { Counters.zero with
    burstsReceived := r.burstsReceived
    mismatches := r.reader.mismatches
    controlSent := r.controlSent
    packetsRebuilt := r.rebuilt }

end Receiver

end Shoreline
