import Shoreline.Proofs.ControlWire
import Shoreline.Proofs.Outbound
import Shoreline.Receiver

/-!
# A sender that hears whole lines

Lines that come whole leave nothing behind in the reader.  A control line of the profile concerns one
packet; a heartbeat only says that somebody is there.

* `hears_handleInput`   one line;
* `hears_foldl`         several of them at the same time;
* `pollStatus_cases`    looking at the timers.
-/

namespace Shoreline

/-- a line about this profile whose numbers fit into their fields -/
def Outgoing.Suits (key : ProfileKey) : Outgoing → Prop
  | .heartbeat => True
  | .control c => c.Fits ∧ c.key.toProfileKey = key

/-- packet `n` after one line -/
def Outbound.hear (n : Nat) (x : Outbound) : Outgoing → Outbound
  | .heartbeat => x
  | .control c => if c.key.packet.toNat = n then x.apply c else x

theorem Outbound.tabled_hear {f : Framed} {x : Outbound} (h : Tabled f x) (n : Nat)
    (o : Outgoing) : Tabled f (x.hear n o) := by
  cases o with
  | heartbeat => exact h
  | control c =>
    rw [hear]
    split
    · exact tabled_apply h c
    · exact h

theorem Outbound.tabled_foldl_hear {f : Framed} {x : Outbound} (h : Tabled f x) (n : Nat)
    (os : List Outgoing) : Tabled f (os.foldl (hear n) x) := by
  induction os generalizing x with
  | nil => exact h
  | cons o os ih => exact ih (tabled_hear h n o)

namespace Sender

/-- the sender after these lines came, all at the time `now` -/
structure Hears (now : Nat) (os : List Outgoing) (s s' : Sender) : Prop where
  packet : ∀ n : Nat, s'.packets[n]? = s.packets[n]?.map fun x => os.foldl (Outbound.hear n) x
  config : s'.config = s.config
  key : s'.key = s.key
  buffer : s'.lines.buffer = []
  lastInput : s'.lastInput = if os = [] then s.lastInput else now
  lastControl : s'.lastControl = s.lastControl ∨ s'.lastControl = now
  unanswered : (∀ o ∈ os, o = .heartbeat) → s'.lastControl = s.lastControl

variable {s : Sender} {now : Nat}

theorem handleInput_heartbeat (hb : s.lines.buffer = []) (now : Nat) :
    s.handleInput Outgoing.heartbeat.wire now = { s with lastInput := now } := by
  show (s.lines.feed (heartbeat ++ ControlLine.lineEnd)).1.foldl (handleInbound now)
    { s with lines := (s.lines.feed (heartbeat ++ ControlLine.lineEnd)).2 } = _
  rw [LineReader.feed_heartbeat hb]
  rfl

theorem handleInput_control (hb : s.lines.buffer = []) {c : ControlLine} (hf : c.Fits)
    (now : Nat) :
    s.handleInput c.wire now =
      { s with
        lines := { s.lines with accepted := s.lines.accepted + 1 }
        lastInput := now }.handleControl c now := by
  rw [handleInput, LineReader.feed_wire hb hf]
  rfl

theorem packets_handleControl {c : ControlLine} (hkey : c.key.toProfileKey = s.key) (now : Nat) :
    (s.handleControl c now).packets = s.packets.modify c.key.packet.toNat (·.apply c) ∧
      (s.handleControl c now).config = s.config ∧ (s.handleControl c now).key = s.key ∧
      (s.handleControl c now).lines = s.lines ∧ (s.handleControl c now).lastInput = s.lastInput ∧
      (s.handleControl c now).lastControl = now := by
  rw [handleControl, if_neg (fun h => h hkey)]
  exact ⟨rfl, rfl, rfl, rfl, rfl, rfl⟩

theorem hears_handleInput (hb : s.lines.buffer = []) {o : Outgoing} (ho : o.Suits s.key)
    (now : Nat) : Hears now [o] s (s.handleInput o.wire now) := by
  cases o with
  | heartbeat =>
    rw [handleInput_heartbeat hb]
    refine ⟨fun n => ?_, rfl, rfl, hb, rfl, Or.inl rfl, fun _ => rfl⟩
    show s.packets[n]? = s.packets[n]?.map id
    rw [Option.map_id]
    rfl
  | control c =>
    obtain ⟨hf, hkey⟩ := ho
    obtain ⟨hpackets, hconfig, hkey', hlines, hinput, hcontrol⟩ :=
      packets_handleControl
        (s := { s with
          lines := { s.lines with accepted := s.lines.accepted + 1 }
          lastInput := now }) hkey now
    rw [show (Outgoing.control c).wire = c.wire from rfl, handleInput_control hb hf]
    refine ⟨fun n => ?_, hconfig, hkey', by rw [hlines]; exact hb, hinput, Or.inr hcontrol,
      fun ho => absurd (ho _ (List.mem_singleton.mpr rfl)) (by simp)⟩
    rw [hpackets, List.getElem?_modify]
    rfl

theorem Hears.nil (hb : s.lines.buffer = []) : Hears now [] s s :=
  ⟨fun n => by simp, rfl, rfl, hb, rfl, Or.inl rfl, fun _ => rfl⟩

theorem Hears.cons {s' s'' : Sender} {o : Outgoing} {os : List Outgoing}
    (h : Hears now [o] s s') (h' : Hears now os s' s'') : Hears now (o :: os) s s'' where
  packet n := by
    rw [h'.packet, h.packet, Option.map_map]
    rfl
  config := h'.config.trans h.config
  key := h'.key.trans h.key
  buffer := h'.buffer
  lastInput := by
    rw [h'.lastInput, h.lastInput]
    split <;> rfl
  lastControl := by
    rcases h'.lastControl with he' | he'
    · rw [he']
      exact h.lastControl
    · exact Or.inr he'
  unanswered ho := by
    rw [h'.unanswered fun o' ho' => ho o' (List.mem_cons_of_mem _ ho')]
    apply h.unanswered
    intro o' ho'
    rw [List.mem_singleton.mp ho']
    exact ho o List.mem_cons_self

theorem hears_foldl {os : List Outgoing} (hb : s.lines.buffer = [])
    (ho : ∀ o ∈ os, o.Suits s.key) (now : Nat) :
    Hears now os s ((os.map Outgoing.wire).foldl (fun s b => s.handleInput b now) s) := by
  induction os generalizing s with
  | nil => exact Hears.nil hb
  | cons o os ih =>
    have hone := hears_handleInput hb (ho o List.mem_cons_self) now
    rw [List.map_cons, List.foldl_cons]
    refine hone.cons (ih hone.buffer fun o' ho' => ?_)
    rw [hone.key]
    exact ho o' (List.mem_cons_of_mem _ ho')

/-! ## Timers -/

theorem pollStatus_of_isComplete (h : s.isComplete = true) (now : Nat) :
    s.pollStatus now = (some .success, s) := by
  rw [pollStatus, if_pos h]

theorem isComplete_of_pollStatus (h : (s.pollStatus now).1 = some .success) :
    s.isComplete = true := by
  rw [pollStatus] at h
  split at h
  · next hc => exact hc
  · split at h
    · exact absurd h (by simp)
    · split at h
      · exact absurd h (by simp)
      · exact absurd h (by simp)

/-- a sender that has heard something goes on, and asks for answers when it has waited long enough -/
theorem pollStatus_of_heard (hc : s.isComplete = false)
    (hq : ¬ s.config.quiescence ≤ now - s.lastInput) :
    s.pollStatus now =
      if s.isIdle ∧ s.config.solicitation ≤ now - s.lastControl then
        (none, { s.solicit with lastControl := now })
      else (none, s) := by
  rw [pollStatus, hc, if_neg Bool.false_ne_true, if_neg hq]

/-- looking at the timers now makes the sender ask for answers -/
def Solicits (s : Sender) (now : Nat) : Prop :=
  s.isComplete = false ∧ now - s.lastInput < s.config.quiescence ∧ s.isIdle = true ∧
    s.config.solicitation ≤ now - s.lastControl

instance (s : Sender) (now : Nat) : Decidable (s.Solicits now) :=
  inferInstanceAs (Decidable (_ ∧ _ ∧ _ ∧ _))

theorem pollStatus_eq (s : Sender) (now : Nat) :
    (s.pollStatus now).2 = if s.Solicits now then { s.solicit with lastControl := now } else s := by
  rw [pollStatus]
  split
  · next hc => exact (if_neg fun h => Bool.false_ne_true (h.1.symm.trans hc)).symm
  next hc =>
  split
  · next hq => exact (if_neg fun h => absurd h.2.1 (Nat.not_lt.mpr hq)).symm
  next hq =>
  split
  · next hi => exact (if_pos ⟨Bool.eq_false_iff.mpr hc, Nat.lt_of_not_le hq, hi⟩).symm
  · next hi => exact (if_neg fun h => hi h.2.2).symm

/-- looking at the timers leaves a sender as it is, or makes it ask for answers -/
theorem pollStatus_cases (s : Sender) (now : Nat) :
    (s.pollStatus now).2 = s ∨
      (s.isComplete = false ∧ s.isIdle = true ∧
        (s.pollStatus now).2 = { s.solicit with lastControl := now }) := by
  rw [pollStatus_eq]
  split
  · next h => exact Or.inr ⟨h.1, h.2.2.1, rfl⟩
  · exact Or.inl rfl

end Sender

end Shoreline
