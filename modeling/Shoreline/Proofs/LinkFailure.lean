import Shoreline.Session
import Shoreline.Proofs.Agreement

/-!
# A link that fails behind the last acknowledgement

Sending ends by a cancellation, by a write or a read that fails, or by what the timers show.  Beside
this, `ending` gives the sender with everything that had arrived by then, also with what a write that
failed has left unread.  After a read that failed the status is what the sender's packets say; after a
write that failed it is a failure of the modem, whatever they say (`status_transmit`).  So the two
verdicts differ, and acknowledgements that had arrived are lost, exactly when a write fails while the
lines that confirm everything can be read (`acknowledgements_kept_iff`).

* `Sender.getD_pollStatus`   what the timers of a sender can say;
* `Sender.status_transmit`   the verdict for each way that sending ends.
-/

namespace Shoreline

/-- why sending ends -/
inductive Exit where
  | cancelled
  | writeFailed
  | readFailed
  /-- everything is confirmed, or nothing has come for too long -/
  | settled
  deriving DecidableEq, Repr

namespace Exit

def isLinkFailure : Exit → Bool
  | writeFailed | readFailed => true
  | cancelled | settled => false

/-- the status that a sender ends with, when everything is confirmed or not -/
def verdict (complete : Bool) : Exit → TransferStatus
  | cancelled => .cancelled
  | writeFailed => .modemFailure
  | readFailed | settled => if complete then .success else .modemFailure

end Exit

namespace Sender

/-- why sending ends, and the sender with everything that had arrived by then -/
def ending (s : Sender) (link : Script) : Exit × Sender :=
  if link.cancelled then (.cancelled, s)
  else
    match h₁ : s.sendOne link with
    | (s₁, some _, link₁) =>
      (.writeFailed, (link₁.drain handleInput (s₁.config.readChunk - 1) s₁).1)
    | (s₁, none, link₁) =>
      match h₂ : link₁.drain handleInput (s₁.config.readChunk - 1) s₁ with
      | (s₂, some _, _) => (.readFailed, s₂)
      | (s₂, none, link₂) =>
        match s₂.pollStatus link₂.now.1 with
        | (some _, _) => (.settled, s₂)
        | (none, s₃) =>
          have : link₂.now.2.cost < link.cost := by
            have hc := cost_sendOne s link
            rw [h₁] at hc
            rw [Script.cost_now, ← hc]
            exact Script.cost_drain h₂
          ending s₃ link₂.now.2
termination_by link.cost

/-- a sender that is asked for its status says success when everything is confirmed, and otherwise
nothing but a failure of the modem -/
theorem getD_pollStatus (s : Sender) (now : Nat) :
    (s.pollStatus now).1.getD .modemFailure = if s.isComplete then .success else .modemFailure := by
  rw [pollStatus]
  split
  · rfl
  split
  · rfl
  split <;> rfl

section
variable {s s₁ s₂ : Sender} {link link₁ link₂ : Script} {e : LinkFault}

theorem transmit_of_write_fault (hcancelled : ¬ link.cancelled = true)
    (h₁ : s.sendOne link = (s₁, some e, link₁)) : s.transmit link = (.modemFailure, link₁) := by
  rw [transmit, if_neg hcancelled]
  split
  · next h =>
    rw [h₁] at h
    cases h
    rfl
  · next h =>
    rw [h₁] at h
    cases h

theorem transmit_of_read_fault (hcancelled : ¬ link.cancelled = true)
    (h₁ : s.sendOne link = (s₁, none, link₁))
    (h₂ : link₁.drain handleInput (s₁.config.readChunk - 1) s₁ = (s₂, some e, link₂)) :
    s.transmit link = ((s₂.pollStatus link₂.now.1).1.getD .modemFailure, link₂.now.2) := by
  rw [transmit, if_neg hcancelled]
  split
  · next h =>
    rw [h₁] at h
    cases h
  next h =>
  rw [h₁] at h
  cases h
  split
  · next h =>
    rw [h₂] at h
    cases h
    rfl
  · next h =>
    rw [h₂] at h
    cases h

theorem transmit_of_silence (hcancelled : ¬ link.cancelled = true)
    (h₁ : s.sendOne link = (s₁, none, link₁))
    (h₂ : link₁.drain handleInput (s₁.config.readChunk - 1) s₁ = (s₂, none, link₂)) :
    s.transmit link =
      match s₂.pollStatus link₂.now.1 with
      | (some status, _) => (status, link₂.now.2)
      | (none, s₃) => s₃.transmit link₂.now.2 := by
  rw [transmit, if_neg hcancelled]
  split
  · next h =>
    rw [h₁] at h
    cases h
  next h =>
  rw [h₁] at h
  cases h
  split
  · next h =>
    rw [h₂] at h
    cases h
  · next h =>
    rw [h₂] at h
    cases h
    cases s₂.pollStatus link₂.now.1 with
    | mk status s₃ => cases status <;> rfl

end

/-- the status is the verdict on the sender with everything that had arrived -/
theorem status_transmit (s : Sender) (link : Script) :
    (s.transmit link).1 = (s.ending link).1.verdict (s.ending link).2.isComplete := by
  fun_induction ending s link with
  | case1 s link hcancelled =>
    rw [transmit, if_pos hcancelled]
    rfl
  | case2 s link hcancelled s₁ e link₁ h₁ =>
    -- neither side looks at what is left to be read
    rw [transmit_of_write_fault hcancelled h₁]
    rfl
  | case3 s link hcancelled s₁ link₁ h₁ s₂ e link₂ h₂ =>
    rw [transmit_of_read_fault hcancelled h₁ h₂]
    exact getD_pollStatus s₂ link₂.now.1
  | case4 s link hcancelled s₁ link₁ h₁ s₂ link₂ h₂ status s₃ h₃ =>
    have hstatus := getD_pollStatus s₂ link₂.now.1
    rw [h₃] at hstatus
    rw [transmit_of_silence hcancelled h₁ h₂, h₃]
    exact hstatus
  | case5 s link hcancelled s₁ link₁ h₁ s₂ link₂ h₂ s₃ h₃ hc ih =>
    rw [transmit_of_silence hcancelled h₁ h₂, h₃]
    exact ih

end Sender

/-- how the transmission of a profile ends, where a sender for it can be made -/
def transmissionEnding [Deflate.Encoder] (p : Profile) (i : Instructions) (config : SenderConfig)
    (link : Script) : Option (Exit × Sender) :=
  match p.package i with
  | .error _ => none
  | .ok package =>
    match Sender.new package config link.now.1 with
    | .error _ => none
    | .ok sender => some (sender.ending link.now.2)

/-- For every profile, instructions and link: the status is the verdict on the sender with everything
that had arrived when sending ended.  That a failure of the modem by a link that failed means that
something was not confirmed then, and that both failures of a link have the verdict of a read that
fails, is so exactly when no write fails where everything is confirmed by what has arrived. -/
theorem acknowledgements_kept_iff [Deflate.Encoder] (p : Profile) (i : Instructions)
    (config : SenderConfig) (link : Script) :
    let status := (transmitProfile p i config link).1
    match transmissionEnding p i config link with
    | none => status = .packageFailure
    | some (exit, s) =>
      status = exit.verdict s.isComplete ∧
      ((status = .modemFailure → exit.isLinkFailure = true → s.isComplete = false) ↔
        ¬ (exit = .writeFailed ∧ s.isComplete = true)) ∧
      ((exit.isLinkFailure = true → status = Exit.readFailed.verdict s.isComplete) ↔
        ¬ (exit = .writeFailed ∧ s.isComplete = true)) := by
  have hverdict (exit : Exit) (complete : Bool) :
      ((exit.verdict complete = .modemFailure → exit.isLinkFailure = true → complete = false) ↔
        ¬ (exit = .writeFailed ∧ complete = true)) ∧
      ((exit.isLinkFailure = true → exit.verdict complete = Exit.readFailed.verdict complete) ↔
        ¬ (exit = .writeFailed ∧ complete = true)) := by
    cases exit <;> cases complete <;> decide
  rw [transmissionEnding, transmitProfile]
  cases p.package i with
  | error e => rfl
  | ok package =>
    dsimp only
    cases Sender.new package config link.now.1 with
    | error e => rfl
    | ok sender =>
      have hstatus := sender.status_transmit link.now.2
      dsimp only
      rw [hstatus]
      exact ⟨rfl, hverdict _ _⟩

/-- all seven bursts are sent and one is asked for again; before it is sent, the lines arrive that
confirm both packets -/
def Script.lateRequest : Script :=
  let key (n : UInt16) : PacketKey := ⟨⟨770, 12345⟩, n⟩
  .ofReadings <| List.replicate 6 .nothing ++
    [.arrived (ControlLine.resendBurst (key 1) 2).wire, .nothing,
      .arrived ((ControlLine.received (key 0)).wire ++ (ControlLine.received (key 1)).wire)]

/-- where the burst is sent and the next read finds that the peer has hung up, the transfer has
succeeded, and where the peer hangs up before the burst is sent, it has not -/
theorem acknowledged_transfer_fails :
    let sent := Script.lateRequest
    let unsent := { sent with writeFault := fun n => if n = 7 then some .closed else none }
    (transmitProfile Exchange.smallCast Exchange.smallPlan .standard sent).1 = .success ∧
      (transmitProfile Exchange.smallCast Exchange.smallPlan .standard unsent).1 = .modemFailure ∧
      ∃ s, transmissionEnding Exchange.smallCast Exchange.smallPlan .standard unsent =
        some (.writeFailed, s) ∧ Exit.writeFailed.isLinkFailure = true ∧ s.isComplete = true := by
  intro sent unsent
  have hsent : (transmitProfile Exchange.smallCast Exchange.smallPlan .standard sent).1 =
      .success := by
    decide +kernel
  have hunsent : (transmitProfile Exchange.smallCast Exchange.smallPlan .standard unsent).1 =
      .modemFailure := by
    decide +kernel
  have hending : (transmissionEnding Exchange.smallCast Exchange.smallPlan .standard unsent).any
      (fun x => x.1 = .writeFailed ∧ x.2.isComplete = true) = true := by
    decide +kernel
  obtain ⟨x, hx, hcheck⟩ := (Option.any_eq_true _ _).mp hending
  obtain ⟨hexit, hcomplete⟩ := of_decide_eq_true hcheck
  exact ⟨hsent, hunsent, x.2, hx.trans (congrArg some (Prod.ext hexit rfl)), rfl, hcomplete⟩

end Shoreline
