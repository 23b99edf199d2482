import Shoreline.Proofs.Answers
import Shoreline.Proofs.Emission

/-!
# A sender and a receiver over a link that may do anything

An exchange is a sender and a receiver with every burst and every line that was handed out so far.
What was handed out can reach the other side any number of times, at any time and in any order, or
never; bursts and lines stay whole.  The timers of both sides are looked at whenever one likes.

* `act`, `run`              what can happen;
* `Sound`                   what holds of every exchange about a shipment;
* `sound_act`, `sound_run`  and why.
-/

namespace Shoreline

structure Exchange where
  sender : Sender
  receiver : Receiver
  /-- the bursts handed out so far -/
  bursts : List Bytes
  /-- the lines handed out so far -/
  lines : List Bytes
  /-- the latest time that either side was told -/
  latest : Nat

namespace Exchange

def start (sender : Sender) (receiver : Receiver) (now : Nat) : Exchange :=
  ⟨sender, receiver, [], [], now⟩

inductive Act where
  /-- the sender is asked for a burst -/
  | transmit
  /-- the receiver is asked for a line -/
  | respond
  /-- the burst handed out as number `i` reaches the receiver -/
  | deliver (i now : Nat)
  /-- the line handed out as number `i` reaches the sender -/
  | hear (i now : Nat)
  | pollReceiver (now : Nat)
  | pollSender (now : Nat)
  deriving DecidableEq, Repr

/-- what was not handed out cannot arrive -/
def act (e : Exchange) : Act → Exchange
  | .transmit => { e with
      sender := e.sender.emit?.2
      bursts := e.bursts ++ (e.sender.emit?.1.map Emission.wire).toList }
  | .respond => { e with
      receiver := e.receiver.emit?.2
      lines := e.lines ++ e.receiver.emit?.1.toList }
  | .deliver i now =>
    match e.bursts[i]? with
    | some b => { e with
        receiver := e.receiver.handleInput b now
        latest := max e.latest now }
    | none => e
  | .hear i now =>
    match e.lines[i]? with
    | some l => { e with
        sender := e.sender.handleInput l now
        latest := max e.latest now }
    | none => e
  | .pollReceiver now => { e with
      receiver := e.receiver.pollTimers now
      latest := max e.latest now }
  | .pollSender now => { e with
      sender := (e.sender.pollStatus now).2
      latest := max e.latest now }

def run (e : Exchange) (acts : List Act) : Exchange := acts.foldl act e

end Exchange

/-! ## The sender of a shipment -/

namespace Sender
open Outbound

/-- the packets of the shipment, each with a table for its bursts -/
structure Ships (S : Shipment) (s : Sender) : Prop where
  key_eq : s.key = S.key
  buffer : s.lines.buffer = []
  tabled : ∀ (n : Nat) x, s.packets[n]? = some x →
    ∃ p, S.parcels[n]? = some p ∧ Tabled p.framed x
  packet : ∀ (n : Nat) p, S.parcels[n]? = some p → ∃ x, s.packets[n]? = some x

variable {S : Shipment} {s s' : Sender}

theorem Ships.exists_tabled (h : Ships S s) : ∀ x ∈ s.packets, ∃ f, Tabled f x := by
  intro x hx
  obtain ⟨n, hn⟩ := List.getElem?_of_mem hx
  obtain ⟨p, -, hp⟩ := h.tabled n x hn
  exact ⟨p.framed, hp⟩

theorem ships_of_sends (h : Ships S s) (hs : List.Forall₂ Sends s.packets s'.packets)
    (hsame : SameLink s s') : Ships S s' where
  key_eq := hsame.key.trans h.key_eq
  buffer := by rw [hsame.lines, h.buffer]
  tabled n y hy := by
    obtain ⟨x, hx, hxy⟩ := exists_left hs hy
    obtain ⟨p, hp, ht⟩ := h.tabled n x hx
    exact ⟨p, hp, hxy.tabled _ ht⟩
  packet n p hp := by
    obtain ⟨x, hx⟩ := h.packet n p hp
    obtain ⟨y, hy, -⟩ := exists_right hs hx
    exact ⟨y, hy⟩

/-- each packet is changed by itself and stays tabled -/
theorem Ships.of_map (h : Ships S s) (hkey : s'.key = s.key) (hbuffer : s'.lines.buffer = [])
    {g : Nat → Outbound → Outbound} (hg : ∀ n : Nat, s'.packets[n]? = s.packets[n]?.map (g n))
    (ht : ∀ n f x, Tabled f x → Tabled f (g n x)) : Ships S s' where
  key_eq := hkey.trans h.key_eq
  buffer := hbuffer
  tabled n y hy := by
    rw [hg, Option.map_eq_some_iff] at hy
    obtain ⟨x, hx, rfl⟩ := hy
    obtain ⟨p, hp, hpx⟩ := h.tabled n x hx
    exact ⟨p, hp, ht n _ _ hpx⟩
  packet n p hp := by
    obtain ⟨x, hx⟩ := h.packet n p hp
    exact ⟨g n x, by rw [hg, hx, Option.map_some]⟩

theorem ships_of_hears {now : Nat} {os : List Outgoing} (h : Ships S s)
    (hs : Hears now os s s') : Ships S s' :=
  h.of_map hs.key hs.buffer hs.packet fun n _ _ ht => tabled_foldl_hear ht n os

theorem packets_solicit (s : Sender) (n : Nat) :
    s.solicit.packets[n]? = s.packets[n]?.map Outbound.solicit := List.getElem?_map

theorem ships_solicit (h : Ships S s) (now : Nat) :
    Ships S { s.solicit with lastControl := now } :=
  h.of_map rfl h.buffer (packets_solicit s) fun _ _ _ ht => tabled_solicit ht

theorem ships_pollStatus (h : Ships S s) (now : Nat) : Ships S (s.pollStatus now).2 := by
  rcases pollStatus_cases s now with he | ⟨-, -, he⟩
  · rw [he]
    exact h
  · rw [he]
    exact ships_solicit h now

theorem Ships.has (h : Ships S s) {n i : Nat} {x : Outbound} {k : BurstKind}
    (hx : s.packets[n]? = some x) (hk : x.framed.kind? i = some k) :
    S.Has (UInt16.ofNat n) k ∧ x.framed.key = { S.key with packet := UInt16.ofNat n } := by
  obtain ⟨p, hp, ht⟩ := h.tabled n x hx
  have hn := (Shipment.toNat_lt hp).2
  rw [ht.framed_eq] at hk ⊢
  exact ⟨⟨p, i, by rw [hn]; exact hp, hk⟩, (S.sound n p hp).key_eq⟩

theorem ships_new (S : Shipment) (sc : SenderConfig) (t : Nat) :
    Ships S (S.sender sc t) where
  key_eq := rfl
  buffer := rfl
  tabled n x hx := by
    obtain ⟨p, hp, rfl⟩ := Shipment.packet_sender.mp hx
    exact ⟨p, hp, tabled_new p.framed⟩
  packet n p hp := ⟨.new p.framed, Shipment.packet_sender.mpr ⟨p, hp, rfl⟩⟩

theorem Ships.burst_of_awaits (h : Ships S s) {w : Bytes} (hw : s.Awaits w) :
    ∃ n k, S.Has n k ∧ w = Burst.wire ⟨⟨S.key, n⟩, k⟩ := by
  obtain ⟨n, x, i, k, hx, -, hk, rfl⟩ := hw
  obtain ⟨hhas, hkey⟩ := h.has hx hk
  exact ⟨UInt16.ofNat n, k, hhas, by rw [hkey]⟩

end Sender

/-! ## The invariant -/

namespace Exchange
open Outbound

/-- both sides are about the shipment and so is all that was handed out, and of no packet it was ever
said that it is held when it is not -/
structure Sound (S : Shipment) (e : Exchange) : Prop where
  ships : e.sender.Ships S
  tuned : Receiver.Tuned S.supply e.receiver
  limit_le : S.limit ≤ e.receiver.reader.mostPayload
  bursts : ∀ b ∈ e.bursts, ∃ n k, S.Has n k ∧ b = Burst.wire ⟨⟨S.key, n⟩, k⟩
  outbox : ∀ o ∈ e.receiver.outbox, o.Fair S (e.receiver.assembly S.key)
  lines : ∀ l ∈ e.lines, ∃ o : Outgoing, l = o.wire ∧ o.Fair S (e.receiver.assembly S.key)
  confirmed : ∀ (n : Nat) x, e.sender.packets[n]? = some x → x.status = .confirmed →
    ((e.receiver.assembly S.key).packet (UInt16.ofNat n)).held = true
  lastInput : e.sender.lastInput ≤ e.latest
  lastControl : e.sender.lastControl ≤ e.latest
  lastBurst : e.receiver.lastBurst ≤ e.latest
  lastResend : e.receiver.lastResend ≤ e.latest
  lastHeartbeat : e.receiver.lastHeartbeat ≤ e.latest

variable {S : Shipment} {e e' : Exchange}

theorem le_max_of_or {a b now latest : Nat} (h : b ≤ latest) (ha : a = b ∨ a = now) :
    a ≤ max latest now := by omega

theorem Sound.of_receiver (h : Sound S e) {r : Receiver} {now : Nat}
    (hadv : Receiver.Advances S now e.receiver r) (ht : Receiver.Tuned S.supply r)
    (hr : r.reader = e.receiver.reader) :
    Sound S { e with receiver := r, latest := max e.latest now } where
  ships := h.ships
  tuned := ht
  limit_le := hr ▸ h.limit_le
  bursts := h.bursts
  outbox o ho := by
    rcases hadv.outbox o ho with ho | ho
    · exact ProfileAssembly.fair_of_held (h.outbox o ho) hadv.held
    · exact ho
  lines l hl := by
    obtain ⟨o, ho, hfair⟩ := h.lines l hl
    exact ⟨o, ho, ProfileAssembly.fair_of_held hfair hadv.held⟩
  confirmed n x hx hc := hadv.held _ (h.confirmed n x hx hc)
  lastInput := Nat.le_trans h.lastInput (Nat.le_max_left _ _)
  lastControl := Nat.le_trans h.lastControl (Nat.le_max_left _ _)
  lastBurst := le_max_of_or h.lastBurst hadv.lastBurst
  lastResend := le_max_of_or h.lastResend hadv.lastResend
  lastHeartbeat := le_max_of_or h.lastHeartbeat hadv.lastHeartbeat

/-- the sender moves on and confirms no packet that is not held -/
theorem Sound.of_sender (h : Sound S e) {s : Sender} {now : Nat} (hs : s.Ships S)
    (hc : ∀ (n : Nat) x, s.packets[n]? = some x → x.status = .confirmed →
      ((e.receiver.assembly S.key).packet (UInt16.ofNat n)).held = true)
    (hi : s.lastInput = e.sender.lastInput ∨ s.lastInput = now)
    (hl : s.lastControl = e.sender.lastControl ∨ s.lastControl = now) :
    Sound S { e with sender := s, latest := max e.latest now } where
  ships := hs
  tuned := h.tuned
  limit_le := h.limit_le
  bursts := h.bursts
  outbox := h.outbox
  lines := h.lines
  confirmed := hc
  lastInput := le_max_of_or h.lastInput hi
  lastControl := le_max_of_or h.lastControl hl
  lastBurst := Nat.le_trans h.lastBurst (Nat.le_max_left _ _)
  lastResend := Nat.le_trans h.lastResend (Nat.le_max_left _ _)
  lastHeartbeat := Nat.le_trans h.lastHeartbeat (Nat.le_max_left _ _)

/-- a line that confirms a packet is fair only when the packet is held -/
theorem held_of_confirmed_hear {n : Nat} {x : Outbound} {o : Outgoing} {s : ProfileAssembly}
    (ho : o.Fair S s) (h : (x.hear n o).status = .confirmed) :
    x.status = .confirmed ∨ (s.packet (UInt16.ofNat n)).held = true := by
  cases o with
  | heartbeat => exact Or.inl h
  | control c =>
    rw [Outbound.hear] at h
    split at h
    · next hn =>
      rcases confirmed_apply h with hc | ⟨hk, -⟩
      · exact Or.inl hc
      · refine Or.inr ?_
        rw [← hn, UInt16.ofNat_toNat]
        exact ho.2 hk
    · exact Or.inl h

theorem held_of_confirmed_foldl {n : Nat} {x : Outbound} {os : List Outgoing}
    {s : ProfileAssembly} (ho : ∀ o ∈ os, o.Fair S s)
    (h : (os.foldl (Outbound.hear n) x).status = .confirmed) :
    x.status = .confirmed ∨ (s.packet (UInt16.ofNat n)).held = true := by
  induction os generalizing x with
  | nil => exact Or.inl h
  | cons o os ih =>
    rcases ih (fun o' ho' => ho o' (List.mem_cons_of_mem _ ho')) h with hc | hheld
    · exact held_of_confirmed_hear (ho o List.mem_cons_self) hc
    · exact Or.inr hheld

theorem sound_of_hears (h : Sound S e) {s : Sender} {now : Nat} {os : List Outgoing}
    (ho : ∀ o ∈ os, o.Fair S (e.receiver.assembly S.key)) (hs : Sender.Hears now os e.sender s) :
    Sound S { e with sender := s, latest := max e.latest now } := by
  refine h.of_sender (Sender.ships_of_hears h.ships hs) ?_ ?_ ?_
  · intro n y hy hc
    rw [hs.packet, Option.map_eq_some_iff] at hy
    obtain ⟨x, hx, rfl⟩ := hy
    rcases held_of_confirmed_foldl ho hc with hc | hheld
    · exact h.confirmed n x hx hc
    · exact hheld
  · rw [hs.lastInput]
    split
    · exact Or.inl rfl
    · exact Or.inr rfl
  · exact hs.lastControl

theorem sound_pollSender (h : Sound S e) (now : Nat) :
    Sound S { e with sender := (e.sender.pollStatus now).2, latest := max e.latest now } := by
  refine h.of_sender (Sender.ships_pollStatus h.ships now) ?_ ?_ ?_
  all_goals rcases Sender.pollStatus_cases e.sender now with he | ⟨-, -, he⟩ <;> rw [he]
  · exact h.confirmed
  · intro n y hy hc
    have hy' : e.sender.solicit.packets[n]? = some y := hy
    rw [Sender.packets_solicit, Option.map_eq_some_iff] at hy'
    obtain ⟨x, hx, rfl⟩ := hy'
    refine h.confirmed n x hx ?_
    rw [Outbound.solicit] at hc
    split at hc
    · exact hc
    · exact absurd hc (by simp)
  · exact Or.inl rfl
  · exact Or.inl rfl
  · exact Or.inl rfl
  · exact Or.inr rfl

theorem sound_deliver (h : Sound S e) {n : UInt16} {k : BurstKind} (hk : S.Has n k) (now : Nat) :
    Sound S { e with
      receiver := e.receiver.handleInput (Burst.wire ⟨⟨S.key, n⟩, k⟩) now
      latest := max e.latest now } := by
  rw [Receiver.handleInput_burst h.tuned h.limit_le hk]
  exact h.of_receiver (Receiver.advances_handleBurst h.tuned hk now)
    (Receiver.tuned_handleBurst h.tuned hk now) (Receiver.reader_handleBurst _ _ _)

theorem sound_pollReceiver (h : Sound S e) (now : Nat) :
    Sound S { e with receiver := e.receiver.pollTimers now, latest := max e.latest now } :=
  h.of_receiver (Receiver.advances_pollTimers h.tuned now) (Receiver.tuned_pollTimers h.tuned now)
    (Receiver.reader_pollTimers_of_tuned h.tuned now)

theorem sound_of_sends (h : Sound S e) {s : Sender}
    (hs : List.Forall₂ Sender.Sends e.sender.packets s.packets)
    (hsame : Sender.SameLink e.sender s) {bs : List Bytes} (hbs : ∀ b ∈ bs, e.sender.Awaits b) :
    Sound S { e with sender := s, bursts := e.bursts ++ bs } where
  ships := Sender.ships_of_sends h.ships hs hsame
  tuned := h.tuned
  limit_le := h.limit_le
  bursts b hb := by
    rcases List.mem_append.mp hb with hb | hb
    · exact h.bursts b hb
    · exact h.ships.burst_of_awaits (hbs b hb)
  outbox := h.outbox
  lines := h.lines
  confirmed n y hy hc := by
    obtain ⟨x, hx, hxy⟩ := exists_left hs hy
    exact h.confirmed n x hx (hxy.confirmed_iff.mp hc)
  lastInput := by rw [hsame.lastInput]; exact h.lastInput
  lastControl := by rw [hsame.lastControl]; exact h.lastControl
  lastBurst := h.lastBurst
  lastResend := h.lastResend
  lastHeartbeat := h.lastHeartbeat

theorem sound_transmit (h : Sound S e) : Sound S (e.act .transmit) := by
  have ht := h.ships.exists_tabled
  rw [act]
  cases he : e.sender.emit? with
  | mk b s' =>
    cases b with
    | none =>
      obtain ⟨ps, rfl, hps, -⟩ := Sender.emit?_none he ht
      exact sound_of_sends h (s := { e.sender with packets := ps })
        (hps.imp fun _ _ => Sender.Sends.of_settles) ⟨rfl, rfl, rfl, rfl, rfl⟩
        (fun b hb => absurd hb (by simp))
    | some b =>
      obtain ⟨n, x, i, k, ps, rfl, hx, hs, hu, hk, hw, hset⟩ := Sender.emit?_some he ht
      have hawaits : ∀ w ∈ [b.wire], e.sender.Awaits w := fun w hmem => by
        rw [List.mem_singleton.mp hmem]
        exact ⟨n, x, i, k, hx, hu, hk, hw⟩
      exact sound_of_sends h (s := { e.sender with packets := ps }.count b)
        (Sender.forall₂_sends_set hx hs hset) ⟨rfl, rfl, rfl, rfl, rfl⟩ hawaits

theorem sound_respond (h : Sound S e) : Sound S (e.act .respond) := by
  rw [act, Receiver.emit?]
  split
  · rw [show e.lines ++ (none : Option Bytes).toList = e.lines from List.append_nil _]
    exact h
  · next o os hos =>
    have ho := h.outbox
    rw [hos] at ho
    refine {
      ships := h.ships, tuned := h.tuned.of_eq rfl rfl, limit_le := h.limit_le, bursts := h.bursts
      outbox := fun o' ho' => ho o' (List.mem_cons_of_mem _ ho')
      lines := fun l hl => ?_
      confirmed := h.confirmed, lastInput := h.lastInput, lastControl := h.lastControl
      lastBurst := h.lastBurst, lastResend := h.lastResend, lastHeartbeat := h.lastHeartbeat }
    rcases List.mem_append.mp hl with hl | hl
    · exact h.lines l hl
    · exact ⟨o, List.mem_singleton.mp hl, ho o List.mem_cons_self⟩

/-- whatever happens, an exchange stays sound -/
theorem sound_act (h : Sound S e) (a : Act) : Sound S (e.act a) := by
  cases a with
  | transmit => exact sound_transmit h
  | respond => exact sound_respond h
  | deliver i now =>
    rw [act]
    split
    · next b hb =>
      obtain ⟨n, k, hk, rfl⟩ := h.bursts b (List.mem_of_getElem? hb)
      exact sound_deliver h hk now
    · exact h
  | hear i now =>
    rw [act]
    split
    · next l hl =>
      obtain ⟨o, rfl, ho⟩ := h.lines l (List.mem_of_getElem? hl)
      have hfair : ∀ o' ∈ [o], o'.Fair S (e.receiver.assembly S.key) := fun o' hmem => by
        rw [List.mem_singleton.mp hmem]
        exact ho
      exact sound_of_hears h hfair
        (Sender.hears_handleInput h.ships.buffer (h.ships.key_eq ▸ ho.suits) now)
    · exact h
  | pollReceiver now => exact sound_pollReceiver h now
  | pollSender now => exact sound_pollSender h now

theorem sound_run (h : Sound S e) (acts : List Act) : Sound S (e.run acts) := by
  induction acts generalizing e with
  | nil => exact h
  | cons a acts ih => exact ih (sound_act h a)

theorem sound_start (S : Shipment) {sc : SenderConfig} {rc : ReceiverConfig} (t₁ t₂ : Nat)
    (hl : S.limit ≤ rc.mostPayload) :
    Sound S (start (S.sender sc t₁) (.new rc t₂) (max t₁ t₂)) where
  ships := Sender.ships_new S sc t₁
  tuned := Receiver.tuned_new S.supply rc t₂
  limit_le := hl
  bursts b hb := absurd hb (by simp [start])
  outbox o ho := absurd ho (by simp [start, Receiver.new])
  lines l hl := absurd hl (by simp [start])
  confirmed n x hx hc := by
    obtain ⟨p, -, rfl⟩ := Shipment.packet_sender.mp hx
    exact absurd hc (by simp [Outbound.new])
  lastInput := Nat.le_max_left _ _
  lastControl := Nat.le_max_left _ _
  lastBurst := Nat.le_max_right _ _
  lastResend := Nat.le_max_right _ _
  lastHeartbeat := Nat.le_max_right _ _

/-! ## Settings -/

theorem config_act (h : Sound S e) (a : Act) :
    (e.act a).sender.config = e.sender.config ∧ (e.act a).receiver.config = e.receiver.config := by
  cases a with
  | transmit =>
    refine ⟨?_, rfl⟩
    show e.sender.emit?.2.config = _
    rw [Sender.emit?]
    split <;> rfl
  | respond =>
    refine ⟨rfl, ?_⟩
    show e.receiver.emit?.2.config = _
    rw [Receiver.emit?]
    split <;> rfl
  | deliver i now =>
    rw [act]
    split
    · next b hb =>
      obtain ⟨n, k, hk, rfl⟩ := h.bursts b (List.mem_of_getElem? hb)
      refine ⟨rfl, ?_⟩
      show (e.receiver.handleInput _ now).config = _
      rw [Receiver.handleInput_burst h.tuned h.limit_le hk]
      exact (Receiver.advances_handleBurst h.tuned hk now).config
    · exact ⟨rfl, rfl⟩
  | hear i now =>
    rw [act]
    split
    · next l hl =>
      obtain ⟨o, rfl, ho⟩ := h.lines l (List.mem_of_getElem? hl)
      exact ⟨(Sender.hears_handleInput h.ships.buffer (h.ships.key_eq ▸ ho.suits) now).config,
        rfl⟩
    · exact ⟨rfl, rfl⟩
  | pollReceiver now => exact ⟨rfl, (Receiver.advances_pollTimers h.tuned now).config⟩
  | pollSender now =>
    refine ⟨?_, rfl⟩
    show (e.sender.pollStatus now).2.config = _
    rcases Sender.pollStatus_cases e.sender now with he | ⟨-, -, he⟩ <;> rw [he]
    rfl

theorem config_run (h : Sound S e) (acts : List Act) :
    (e.run acts).sender.config = e.sender.config ∧
      (e.run acts).receiver.config = e.receiver.config := by
  induction acts generalizing e with
  | nil => exact ⟨rfl, rfl⟩
  | cons a acts ih =>
    obtain ⟨h₁, h₂⟩ := config_act h a
    obtain ⟨h₃, h₄⟩ := ih (sound_act h a)
    exact ⟨h₃.trans h₁, h₄.trans h₂⟩

end Exchange

end Shoreline
