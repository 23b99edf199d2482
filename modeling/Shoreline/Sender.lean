import Shoreline.Burst.Framed
import Shoreline.Control.Reader
import Shoreline.Counters
import Shoreline.Profile.Package
import Shoreline.Sender.BurstTable

/-!
# Sending a profile

A sender holds the framed packets of one profile and how far each burst has come.  It hands out
bursts that wait to be sent, lowest packet first (`emit?`), and takes in what the shore station says
(`handleInput`).  A packet is confirmed by a line that says it is held, and opened again by a line
that asks for it or for one of its bursts.

`pollStatus` ends the transfer when every packet is confirmed or nothing was heard for too long.  A
sender that waits for an answer asks for it by sending the terminal bursts again (`solicit`).

Times are milliseconds.
-/

namespace Shoreline

structure SenderConfig where
  /-- give up when nothing is heard for this long -/
  quiescence : Nat
  /-- ask for an answer after this long -/
  solicitation : Nat
  writeTimeout : Nat
  readChunk : Nat
  pollInterval : Nat
  deriving DecidableEq, Repr

def SenderConfig.standard : SenderConfig := ⟨120000, 30000, 10000, 1024, 50⟩

inductive TransferStatus where
  | success
  | modemFailure
  | packageFailure
  | cancelled
  deriving DecidableEq, Repr

def TransferStatus.text : TransferStatus → String
  | success => "success"
  | modemFailure => "modem failure"
  | packageFailure => "package failure"
  | cancelled => "cancelled"

/-! ## One packet -/

structure Outbound where
  framed : Framed
  status : Progress
  bursts : BurstTable
  deriving DecidableEq

namespace Outbound

def new (framed : Framed) : Outbound := ⟨framed, .unsent, .new framed.count⟩

/-- a packet whose bursts are all sent waits for its confirmation; the first packet of a profile
stays open until it is confirmed -/
def settle (isFirst : Bool) (p : Outbound) : Outbound :=
  if !isFirst && p.bursts.allSent then { p with status := .sent } else p

/-- applies what a control line asks of this packet -/
def apply (p : Outbound) (line : ControlLine) : Outbound :=
  match line.kind with
  | .received =>
    if line.isWholePacket && p.status != .confirmed then
      { p with status := .confirmed, bursts := p.bursts.confirmAll }
    else p
  | .resend =>
    if line.isWholePacket then { p with status := .unsent, bursts := p.bursts.reset }
    else if line.burst.toNat < p.bursts.size then
      { p with status := .unsent, bursts := p.bursts.markUnsent line.burst.toNat }
    else p

/-- queues the terminal burst of a packet that is not confirmed -/
def solicit (p : Outbound) : Outbound :=
  if p.status = .confirmed then p
  else { p with status := .unsent, bursts := p.bursts.markUnsent p.framed.terminalIndex }

end Outbound

/-! ## The sender -/

structure Emission where
  wire : Bytes
  isRepeat : Bool
  deriving DecidableEq, Repr

structure Sender where
  config : SenderConfig
  key : ProfileKey
  packets : List Outbound
  lines : LineReader
  lastInput : Nat
  lastControl : Nat
  burstsSent : Nat
  burstsResent : Nat
  bytesSent : Nat
  confirmed : Nat

namespace Sender

/-- encodes and frames every packet of a package -/
def new [Deflate.Encoder] (package : Package) (config : SenderConfig) (now : Nat) :
    Except Fault Sender := do
  let key : ProfileKey := ⟨package.info.serial, package.info.profile⟩
  let info ← Framed.frame { key with packet := 0 } package.info.render package.burstSize
  let data ← package.data.mapM fun p => do
    let packet ← p.encode package.stages
    Framed.frame { key with packet := p.header.packet } packet package.burstSize
  .ok {
    config, key
    packets := (info :: data).map .new
    lines := .new
    lastInput := now
    lastControl := now
    burstsSent := 0
    burstsResent := 0
    bytesSent := 0
    confirmed := 0 }

/-- the next burst of the packets from here on, and the packets after it is sent -/
def emitFrom (isFirst : Bool) : List Outbound → Option Emission × List Outbound
  | [] => (none, [])
  | p :: ps =>
    let later (p : Outbound) : Option Emission × List Outbound :=
      let (e, ps) := emitFrom false ps
      (e, p :: ps)
    if p.status ≠ .unsent then later p
    else
      match p.bursts.nextUnsent? with
      | none => later (p.settle isFirst)
      | some i =>
        match p.framed.render? i with
        | none => later p
        | some wire =>
          let bursts := p.bursts.markSent i
          (some ⟨wire, 1 < bursts.attempts i⟩, { p with bursts }.settle isFirst :: ps)

def count (s : Sender) (e : Emission) : Sender :=
  { s with
    burstsSent := s.burstsSent + 1
    burstsResent := s.burstsResent + e.isRepeat.toNat
    bytesSent := s.bytesSent + e.wire.length }

/-- the next burst to send, lowest packet first -/
def emit? (s : Sender) : Option Emission × Sender :=
  match emitFrom true s.packets with
  | (none, packets) => (none, { s with packets })
  | (some e, packets) => (some e, { s with packets }.count e)

def handleControl (s : Sender) (line : ControlLine) (now : Nat) : Sender :=
  if line.key.toProfileKey ≠ s.key then s
  else
    let number := line.key.packet.toNat
    let confirms := match s.packets[number]? with
      | some p => p.status != Progress.confirmed && (p.apply line).status == Progress.confirmed
      | none => false
    { s with
      lastControl := now
      packets := s.packets.modify number (·.apply line)
      confirmed := s.confirmed + confirms.toNat }

def handleInbound (now : Nat) (s : Sender) : Except Fault Inbound → Sender
  | .ok .heartbeat => { s with lastInput := now }
  | .ok (.control line) => { s with lastInput := now }.handleControl line now
  | .error _ => s

def handleInput (s : Sender) (b : Bytes) (now : Nat) : Sender :=
  let (said, lines) := s.lines.feed b
  said.foldl (handleInbound now) { s with lines }

def isComplete (s : Sender) : Bool := s.packets.all fun p => p.status == .confirmed

def isIdle (s : Sender) : Bool := s.packets.all fun p => p.bursts.allSent

/-- asks for an answer to every packet that is not confirmed -/
def solicit (s : Sender) : Sender := { s with packets := s.packets.map Outbound.solicit }

/-- looks at the timers; a status ends the transfer -/
def pollStatus (s : Sender) (now : Nat) : Option TransferStatus × Sender :=
  if s.isComplete then (some .success, s)
  else if s.config.quiescence ≤ now - s.lastInput then (some .modemFailure, s)
  else if s.isIdle ∧ s.config.solicitation ≤ now - s.lastControl then
    (none, { s.solicit with lastControl := now })
  else (none, s)

/-! ## What can be asked of a sender -/

def burstCount? (s : Sender) (packet : Nat) : Option Nat := s.packets[packet]?.map (·.framed.count)

def packetStatus? (s : Sender) (packet : Nat) : Option Progress := s.packets[packet]?.map (·.status)

def burstStatus? (s : Sender) (packet burst : Nat) : Option Progress :=
  s.packets[packet]?.bind (·.bursts.status? burst)

def attempts (s : Sender) (packet burst : Nat) : UInt32 :=
  (s.packets[packet]?.map (·.bursts.attempts burst)).getD 0

def counters (s : Sender) : Counters :=
  { Counters.zero with
    burstsSent := s.burstsSent
    burstsResent := s.burstsResent
    bytesSent := s.bytesSent
    packetsConfirmed := s.confirmed
    controlReceived := s.lines.accepted
    mismatches := s.lines.mismatches }

/-! ## Sending everything -/

def waiting (s : Sender) : Nat := (s.packets.map fun p => p.bursts.waiting).sum

theorem bursts_settle (isFirst : Bool) (p : Outbound) : (p.settle isFirst).bursts = p.bursts := by
  unfold Outbound.settle; split <;> rfl

theorem waiting_emitFrom {isFirst : Bool} {ps ps' : List Outbound} {e : Emission}
    (h : emitFrom isFirst ps = (some e, ps')) :
    (ps'.map fun p => p.bursts.waiting).sum < (ps.map fun p => p.bursts.waiting).sum := by
  induction ps generalizing isFirst ps' with
  | nil => exact absurd h (by simp [emitFrom])
  | cons p ps ih =>
    have later : ∀ q : Outbound, q.bursts = p.bursts →
        ((emitFrom false ps).1, q :: (emitFrom false ps).2) = (some e, ps') →
        (ps'.map fun p => p.bursts.waiting).sum
          < ((p :: ps).map fun p => p.bursts.waiting).sum := by
      intro q hq he
      obtain ⟨h₁, rfl⟩ := Prod.mk.inj he
      have he : emitFrom false ps = (some e, (emitFrom false ps).2) := by rw [← h₁]
      have := ih he
      simp only [List.map_cons, List.sum_cons, hq]
      omega
    rw [emitFrom] at h
    simp only at h
    split at h
    · exact later p rfl h
    · split at h
      · exact later _ (bursts_settle isFirst p) h
      · next i hi =>
        split at h
        · exact later p rfl h
        · obtain ⟨_, rfl⟩ := Prod.mk.inj h
          have := BurstTable.waiting_markSent hi
          simp only [List.map_cons, List.sum_cons, bursts_settle]
          omega

theorem waiting_emit? {s s' : Sender} {e : Emission} (h : s.emit? = (some e, s')) :
    s'.waiting < s.waiting := by
  unfold emit? at h
  split at h
  · exact absurd h (by simp)
  · next e' ps he =>
    obtain ⟨_, rfl⟩ := Prod.mk.inj h
    exact waiting_emitFrom he

/-- hands out bursts until none waits, behind the reversed list `acc` -/
def drainOnto (acc : List Bytes) (s : Sender) : List Bytes × Sender :=
  match h : s.emit? with
  | (none, s) => (acc.reverse, s)
  | (some e, s') =>
    have := waiting_emit? h
    drainOnto (e.wire :: acc) s'
termination_by s.waiting

/-- hands out every burst that waits -/
def drain (s : Sender) : List Bytes × Sender := drainOnto [] s

/-- hands out at most `n` bursts; also says whether it ran out of them before -/
def take (s : Sender) : Nat → List Bytes × Bool × Sender
  | 0 => ([], false, s)
  | n + 1 =>
    match s.emit? with
    | (none, s) => ([], true, s)
    | (some e, s) =>
      let (bs, dry, s) := s.take n
      (e.wire :: bs, dry, s)

end Sender

end Shoreline
