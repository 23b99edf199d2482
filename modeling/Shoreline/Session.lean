import Shoreline.Link
import Shoreline.Receiver
import Shoreline.Sender

/-!
# Sessions

Poll loops that run a sender or a receiver over a link.  Each round of `transmit` sends at most one
burst, takes in everything that has arrived and looks at the timers; each round of `receive` takes in
everything that has arrived, runs the timers and sends every queued line.  A session can be cancelled
between two rounds.

The loops end because every round reads the link at least once (`cost_drain`).
-/

namespace Shoreline

namespace Script

/-- reads until nothing more is there and gives each piece to `handle` with the time; also says how
the link failed, if it did -/
def drain {σ : Type} (handle : σ → Bytes → Nat → σ) (chunk : Nat) (state : σ) (link : Script) :
    σ × Option LinkFault × Script :=
  match h : link.read (chunk + 1) with
  | (.error e, link) => (state, some e, link)
  | (.ok [], link) => (state, none, link)
  | (.ok (x :: b), link₁) =>
    have : link₁.now.2.cost < link.cost := by
      rw [cost_now]; exact cost_read (Nat.succ_pos chunk) h
    drain handle chunk (handle state (x :: b) link₁.now.1) link₁.now.2
termination_by link.cost

theorem cost_drain {σ : Type} {handle : σ → Bytes → Nat → σ} {chunk : Nat} {state state' : σ}
    {link link' : Script} (h : drain handle chunk state link = (state', none, link')) :
    link'.cost < link.cost := by
  fun_induction drain handle chunk state link with
  | case1 state link e link₁ hr => exact absurd h (by simp)
  | case2 state link link₁ hr =>
    obtain ⟨_, h⟩ := Prod.mk.inj h
    obtain ⟨_, rfl⟩ := Prod.mk.inj h
    exact cost_read (Nat.succ_pos chunk) hr
  | case3 state link x b link₁ hr hl ih => exact Nat.lt_trans (ih h) hl

/-- writes lines one after the other, up to the first that fails -/
def writeAll (link : Script) : List Bytes → Option LinkFault × Script
  | [] => (none, link)
  | b :: bs =>
    match link.write b with
    | (some e, link) => (some e, link)
    | (none, link) => link.writeAll bs

theorem cost_writeAll (link : Script) (bs : List Bytes) : (link.writeAll bs).2.cost = link.cost := by
  induction bs generalizing link with
  | nil => rfl
  | cons b bs ih =>
    have hw := cost_write link b
    unfold writeAll
    split
    · next e l he => rw [he] at hw; exact hw
    · next l he => rw [he] at hw; rw [ih, ← hw]

end Script

/-! ## Transmitting -/

namespace Sender

def sendOne (s : Sender) (link : Script) : Sender × Option LinkFault × Script :=
  match s.emit? with
  | (none, s) => (s, none, link)
  | (some e, s) => (s, link.write e.wire)

theorem cost_sendOne (s : Sender) (link : Script) : (s.sendOne link).2.2.cost = link.cost := by
  unfold sendOne
  split
  · rfl
  · exact Script.cost_write link _

def transmit (s : Sender) (link : Script) : TransferStatus × Script :=
  if link.cancelled then (.cancelled, link)
  else
    match h₁ : s.sendOne link with
    | (_, some _, link₁) => (.modemFailure, link₁)
    | (s₁, none, link₁) =>
      match h₂ : link₁.drain handleInput (s₁.config.readChunk - 1) s₁ with
      | (s₂, some _, link₂) =>
        (((s₂.pollStatus link₂.now.1).1).getD .modemFailure, link₂.now.2)
      | (s₂, none, link₂) =>
        match s₂.pollStatus link₂.now.1 with
        | (some status, _) => (status, link₂.now.2)
        | (none, s₃) =>
          have : link₂.now.2.cost < link.cost := by
            have hc := cost_sendOne s link
            rw [h₁] at hc
            rw [Script.cost_now, ← hc]
            exact Script.cost_drain h₂
          transmit s₃ link₂.now.2
termination_by link.cost

end Sender

/-- packages a profile and sends it until every packet is confirmed or the link fails -/
def transmitProfile [Deflate.Encoder] (p : Profile) (i : Instructions) (config : SenderConfig)
    (link : Script) : TransferStatus × Script :=
  match p.package i with
  | .error _ => (.packageFailure, link)
  | .ok package =>
    match Sender.new package config link.now.1 with
    | .error _ => (.packageFailure, link.now.2)
    | .ok sender => sender.transmit link.now.2

/-! ## Receiving -/

inductive SessionEnd where
  | complete
  | timedOut
  | disconnected
  | cancelled
  deriving DecidableEq, Repr

/-- how a receive session ended, and what was rebuilt -/
structure ReceiveOutcome where
  ending : SessionEnd
  profiles : List ReceivedProfile

namespace Receiver

/-- the outcome of a session that ends now; a receiver that has everything is complete -/
def outcome (r : Receiver) (otherwise : SessionEnd) : ReceiveOutcome :=
  ⟨if r.isComplete then .complete else otherwise, r.received⟩

/-- runs the timers and sends every queued line -/
def answer (r : Receiver) (now : Nat) (link : Script) : Receiver × Option LinkFault × Script :=
  let (lines, r) := (r.pollTimers now).drain
  (r, link.writeAll lines)

theorem cost_answer (r : Receiver) (now : Nat) (link : Script) :
    (r.answer now link).2.2.cost = link.cost := Script.cost_writeAll link _

def receive (r : Receiver) (link : Script) : ReceiveOutcome × Script :=
  if link.cancelled then (⟨.cancelled, r.received⟩, link)
  else
    match h₁ : link.drain handleInput (r.config.readChunk - 1) r with
    | (r₁, some _, link₁) =>
      ((r₁.pollTimers link₁.now.1).outcome .disconnected, link₁.now.2)
    | (r₁, none, link₁) =>
      match h₂ : r₁.answer link₁.now.1 link₁.now.2 with
      | (r₂, some _, link₂) => (r₂.outcome .disconnected, link₂)
      | (r₂, none, link₂) =>
        if r₂.isTimedOut link₁.now.1 then (r₂.outcome .timedOut, link₂)
        else
          have : link₂.cost < link.cost := by
            have hc := cost_answer r₁ link₁.now.1 link₁.now.2
            rw [h₂, Script.cost_now] at hc
            rw [hc]
            exact Script.cost_drain h₁
          receive r₂ link₂
termination_by link.cost

end Receiver

/-- receives until the link fails or has been quiet for too long -/
def receiveSession (config : ReceiverConfig) (link : Script) : ReceiveOutcome × Script :=
  (Receiver.new config link.now.1).receive link.now.2

end Shoreline
