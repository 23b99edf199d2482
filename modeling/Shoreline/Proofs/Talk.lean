import Shoreline.Proofs.Exchange
import Shoreline.Proofs.Replies

/-!
# Talking over a link that loses nothing

When nothing is lost, all the bursts that wait reach the receiver, and all its answers reach the
sender (`talk`).  What that makes of a packet on both sides is said once (`Talked`).

* `sound_talk`     a talk keeps an exchange sound;
* `talked`         what it makes of a packet;
* `lastInput_talk`, `lastControl_talk`   what the sender has heard.
-/

namespace Shoreline

/-! ## Bursts that wait -/

theorem Shipment.wire_inj {S : Shipment} {n m : UInt16} {k l : BurstKind} (h : S.Has n k)
    (h' : S.Has m l) (he : Burst.wire ⟨⟨S.key, n⟩, k⟩ = Burst.wire ⟨⟨S.key, m⟩, l⟩) :
    n = m ∧ k = l := by
  have hn := Burst.parse_whole _ S.limit (fits h).1 (fits h).2
  have hm := Burst.parse_whole _ S.limit (fits h').1 (fits h').2
  rw [he, hm] at hn
  have hb := congrArg Prod.fst (Option.some.inj (Except.ok.inj hn))
  exact ⟨(congrArg (fun b => b.key.packet) hb).symm, (congrArg Burst.kind hb).symm⟩

namespace Sender
open Outbound

variable {S : Shipment} {s : Sender} {n : UInt16} {x : Outbound}

theorem Ships.unsent_of_awaits (h : Ships S s) {k : BurstKind} (hk : S.Has n k)
    (hx : s.packets[n.toNat]? = some x) (hw : s.Awaits (Burst.wire ⟨⟨S.key, n⟩, k⟩)) :
    ∃ i, x.framed.kind? i = some k ∧ x.bursts.Unsent i := by
  obtain ⟨m, y, i, l, hy, hi, hl, he⟩ := hw
  obtain ⟨hhas, hkey⟩ := h.has hy hl
  obtain ⟨q, hq, -⟩ := h.tabled m y hy
  obtain ⟨hnm, rfl⟩ := Shipment.wire_inj hk hhas (he.trans (by rw [hkey]))
  rw [hnm, (Shipment.toNat_lt hq).2, hy] at hx
  obtain rfl := Option.some.inj hx
  exact ⟨i, hl, hi⟩

theorem Ships.awaits (h : Ships S s) (hx : s.packets[n.toNat]? = some x) {i : Nat}
    {k : BurstKind} (hk : x.framed.kind? i = some k) (hi : x.bursts.Unsent i) :
    S.Has n k ∧ s.Awaits (Burst.wire ⟨⟨S.key, n⟩, k⟩) := by
  obtain ⟨hhas, hkey⟩ := h.has hx hk
  rw [UInt16.ofNat_toNat] at hhas hkey
  exact ⟨hhas, n.toNat, x, i, k, hx, hi, hk, by rw [hkey]⟩

end Sender

/-! ## A talk -/

namespace Exchange
open Outbound

/-- the receiver once it has taken in all the bursts that wait -/
def taken (e : Exchange) (now : Nat) : Receiver := e.receiver.takeAll e.sender.drain.1 now

/-- and once its timers were looked at -/
def heard (e : Exchange) (now : Nat) : Receiver := (e.taken now).pollTimers now

/-- all the bursts that wait reach the receiver, and all its lines reach the sender -/
def talk (e : Exchange) (now : Nat) : Exchange where
  sender := (e.heard now).drain.1.foldl (fun s l => s.handleInput l now) e.sender.drain.2
  receiver := (e.heard now).drain.2
  bursts := e.bursts ++ e.sender.drain.1
  lines := e.lines ++ (e.heard now).drain.1
  latest := max e.latest now

variable {S : Shipment} {e : Exchange}

theorem Sound.burst_of_drain (h : Sound S e) :
    ∀ w ∈ e.sender.drain.1, ∃ n k, S.Has n k ∧ w = Burst.wire ⟨⟨S.key, n⟩, k⟩ := fun w hw =>
  h.ships.burst_of_awaits ((Sender.drain_spec _ h.ships.exists_tabled).1 w |>.mp hw)

theorem sound_drain (h : Sound S e) :
    Sound S { e with receiver := e.receiver.drain.2, lines := e.lines ++ e.receiver.drain.1 } := by
  refine {
    ships := h.ships, tuned := h.tuned.of_eq rfl rfl, limit_le := h.limit_le, bursts := h.bursts
    outbox := fun o ho => absurd ho (by simp [Receiver.drain])
    lines := fun l hl => ?_
    confirmed := h.confirmed, lastInput := h.lastInput, lastControl := h.lastControl
    lastBurst := h.lastBurst, lastResend := h.lastResend, lastHeartbeat := h.lastHeartbeat }
  rcases List.mem_append.mp hl with hl | hl
  · exact h.lines l hl
  · obtain ⟨o, ho, rfl⟩ := List.mem_map.mp hl
    exact ⟨o, rfl, h.outbox o ho⟩

/-- up to the lines, a talk is that of the receiver -/
theorem sound_heard (h : Sound S e) (now : Nat) :
    Sound S { e with
      sender := e.sender.drain.2
      receiver := e.heard now
      bursts := e.bursts ++ e.sender.drain.1
      latest := max e.latest now } ∧
    Receiver.Tuned S.supply (e.taken now) ∧
    Receiver.Advances S now e.receiver (e.taken now) := by
  obtain ⟨hmem, hsends, -, hsame⟩ := Sender.drain_spec _ h.ships.exists_tabled
  obtain ⟨ht, hr, hadv⟩ := Receiver.tuned_takeAll h.tuned h.limit_le h.burst_of_drain now
  have hsent := sound_of_sends h hsends hsame fun w hw => (hmem w).mp hw
  have hpolled : Receiver.Advances S now e.receiver (e.heard now) :=
    hadv.trans (Receiver.advances_pollTimers ht now)
  exact ⟨hsent.of_receiver hpolled (Receiver.tuned_pollTimers ht now)
    ((Receiver.reader_pollTimers_of_tuned ht now).trans hr), ht, hadv⟩

theorem hears_talk (h : Sound S e) (now : Nat) :
    Sender.Hears now (e.heard now).outbox e.sender.drain.2 (e.talk now).sender := by
  obtain ⟨-, -, -, hsame⟩ := Sender.drain_spec _ h.ships.exists_tabled
  refine Sender.hears_foldl (by rw [hsame.lines, h.ships.buffer]) (fun o ho => ?_) now
  rw [hsame.key, h.ships.key_eq]
  exact ((sound_heard h now).1.outbox o ho).suits

theorem sound_talk (h : Sound S e) (now : Nat) : Sound S (e.talk now) := by
  have hheard := (sound_heard h now).1
  have htalk := sound_of_hears (sound_drain hheard) hheard.outbox (hears_talk h now)
  dsimp only at htalk
  rw [Nat.max_assoc, Nat.max_self] at htalk
  exact htalk

theorem config_talk (h : Sound S e) (now : Nat) :
    (e.talk now).sender.config = e.sender.config ∧
      (e.talk now).receiver.config = e.receiver.config := by
  obtain ⟨-, -, -, hsame⟩ := Sender.drain_spec _ h.ships.exists_tabled
  obtain ⟨-, ht, hadv⟩ := sound_heard h now
  exact ⟨(hears_talk h now).config.trans hsame.config,
    (hadv.trans (Receiver.advances_pollTimers ht now)).config⟩

/-! ## Times -/

/-- rounds that are a step apart find both sides' timers due, and there is room for the shipment -/
structure Paced (S : Shipment) (step : Nat) (e : Exchange) : Prop where
  sound : Sound S e
  room : (S.parcels.map fun p => p.framed.packet.length).sum ≤ e.receiver.config.mostBuffered
  resend : e.receiver.config.resendTimeout ≤ step
  heartbeat : e.receiver.config.heartbeatInterval ≤ step
  solicitation : e.sender.config.solicitation ≤ step
  quiescence : 0 < e.sender.config.quiescence

variable {step now : Nat}

theorem paced_talk (h : Paced S step e) (now : Nat) : Paced S step (e.talk now) := by
  obtain ⟨hs, hr⟩ := config_talk h.sound now
  exact ⟨sound_talk h.sound now, hr ▸ h.room, hr ▸ h.resend, hr ▸ h.heartbeat,
    hs ▸ h.solicitation, hs ▸ h.quiescence⟩

theorem outbox_pollHeartbeat (h : Paced S step e) (ht : e.latest + step ≤ now) :
    ((e.taken now).pollHeartbeat now).outbox =
      (e.taken now).outbox ++ [.heartbeat] := by
  obtain ⟨-, -, hadv⟩ := sound_heard h.sound now
  have hlast := h.sound.lastHeartbeat
  have hinterval := h.heartbeat
  rw [Receiver.pollHeartbeat, if_pos]
  rw [hadv.config, taken, Receiver.lastHeartbeat_takeAll]
  omega

theorem lastInput_talk (h : Paced S step e) (ht : e.latest + step ≤ now) :
    (e.talk now).sender.lastInput = now := by
  have hheart := outbox_pollHeartbeat h ht
  obtain ⟨-, htuned, -⟩ := sound_heard h.sound now
  have hne : (e.heard now).outbox ≠ [] := by
    by_cases hasks : (e.taken now).Asks S now
    · rw [heard, (Receiver.pollTimers_of_asks htuned hasks).2, hheart]
      simp
    · rw [heard, (Receiver.pollTimers_of_not_asks htuned hasks).2, hheart]
      simp
  rw [(hears_talk h.sound now).lastInput, if_neg hne]

/-- an exchange whose lines are all heard, a step before the time `now` -/
structure Calm (S : Shipment) (step now : Nat) (e : Exchange) : Prop extends Paced S step e where
  outbox : e.receiver.outbox = []
  latest : e.latest + step ≤ now

theorem calm_talk (h : Paced S step e) (ht : e.latest + step ≤ now) :
    Calm S step (now + step) (e.talk now) where
  toPaced := paced_talk h now
  outbox := rfl
  latest := by
    show max e.latest now + step ≤ now + step
    omega

/-! ## A packet -/

/-- what a talk makes of a packet; `asks` says that the receiver's timers ask for what is
outstanding -/
structure Talked (asks : Prop) (f : Framed) (x : Outbound) (p : PacketAssembly) (x' : Outbound)
    (p' : PacketAssembly) : Prop where
  tabled : Tabled f x'
  held : p.held = true → p'.held = true
  done : Done x p → Done x' p'
  done_of_held : p.held = false → p'.held = true → Done x' p'
  recorded : ∀ i k, f.kind? i = some k → p.Recorded k ∨ x.bursts.Unsent i → p'.Recorded k
  answered : x.bursts.Unsent f.terminalIndex → Done x' p' ∨ Asked f x' p'
  silent : ¬ x.bursts.Unsent f.terminalIndex → ¬ asks → x'.bursts.allSent = true
  held_of_recorded : (∀ i k, f.kind? i = some k → p'.Recorded k) → p'.held = true
  held_of_asks : asks → Cover f x p → p'.held = true

section
variable {asks : Prop} {f : Framed} {x x' : Outbound} {p p' : PacketAssembly}

theorem Talked.cover (h : Talked asks f x p x' p') (hcover : Cover f x p) : Cover f x' p' :=
  fun i k hk hne => Or.inl (h.recorded i k hk (hcover i k hk hne))

/-- what is on its way completes a packet that waits for nothing else -/
theorem Talked.done_of_asked (h : Talked asks f x p x' p') (hasked : Asked f x p) :
    Done x' p' := by
  refine h.done_of_held hasked.isOpen (h.held_of_recorded fun i k hk => h.recorded i k hk ?_)
  by_cases hterminal : k = .terminal
  · subst hterminal
    exact Or.inl (Or.inr hasked.terminalSeen)
  · exact hasked.cover i k hk hterminal

theorem Talked.allSent_of_done (h : Talked asks f x p x' p') (hdone : Done x' p') :
    x'.bursts.allSent = true :=
  h.tabled.settled fun hu => absurd (hu.symm.trans hdone.2) (by simp)

end

variable {n : UInt16} {q : Parcel} {x : Outbound}

theorem Sound.tabled (h : Sound S e) (hq : S.parcels[n.toNat]? = some q)
    (hx : e.sender.packets[n.toNat]? = some x) : Tabled q.framed x := by
  obtain ⟨q', hq', ht⟩ := h.ships.tabled _ x hx
  obtain rfl := Option.some.inj (hq.symm.trans hq')
  exact ht

/-- the bursts that wait are recorded, and a terminal burst among them is answered -/
theorem moves_taken (h : Calm S step now e) (hq : S.parcels[n.toNat]? = some q)
    (hx : e.sender.packets[n.toNat]? = some x) {x₁ : Outbound} (hx₁ : Tabled q.framed x₁) :
    Receiver.Moves S (x.bursts.Unsent q.framed.terminalIndex) q.framed n x₁ e.receiver
        (e.taken now) ∧
      (∀ i k, q.framed.kind? i = some k → x.bursts.Unsent i →
        (((e.taken now).assembly S.key).packet n).Recorded k) ∧
      (x.bursts.Unsent q.framed.terminalIndex →
        Receiver.Answered S q.framed n x₁ (e.taken now)) := by
  have hsound := h.sound
  have hframed := (hsound.tabled hq hx).framed_eq
  obtain ⟨hmem, -⟩ := Sender.drain_spec _ hsound.ships.exists_tabled
  obtain ⟨hmove, hgot⟩ := Receiver.moves_takeAll hsound.tuned hsound.limit_le h.room hq hx₁
    hsound.burst_of_drain now
  have hwaits (i : Nat) (k : BurstKind) (hk : q.framed.kind? i = some k)
      (hi : x.bursts.Unsent i) :
      S.Has n k ∧ Burst.wire ⟨⟨S.key, n⟩, k⟩ ∈ e.sender.drain.1 := by
    rw [← hframed] at hk
    obtain ⟨hhas, hawaits⟩ := hsound.ships.awaits hx hk hi
    exact ⟨hhas, (hmem _).mpr hawaits⟩
  refine ⟨hmove.mono ?_, ?_, ?_⟩
  · intro hw
    have hhas : S.Has n .terminal := ⟨q, _, hq, q.framed.kind?_terminal⟩
    obtain ⟨i, hk, hi⟩ := hsound.ships.unsent_of_awaits hhas hx ((hmem _).mp hw)
    rw [hframed] at hk
    rcases Framed.kind?_cases hk with ⟨-, he⟩ | ⟨j, b, -, -, he⟩ | ⟨rfl, -⟩
    · exact absurd he (by simp)
    · exact absurd he (by simp)
    · exact hi
  · intro i k hk hi
    obtain ⟨hhas, hw⟩ := hwaits i k hk hi
    exact (hgot k hhas hw).1
  · intro hi
    obtain ⟨hhas, hw⟩ := hwaits _ _ q.framed.kind?_terminal hi
    exact (hgot _ hhas hw).2 rfl

theorem packet_talk (h : Sound S e) {x₁ : Outbound}
    (hx : e.sender.drain.2.packets[n.toNat]? = some x₁) (now : Nat) :
    (e.talk now).sender.packets[n.toNat]? = some ((e.heard now).promised n x₁) := by
  rw [(hears_talk h now).packet, hx]
  rfl

theorem talked (h : Calm S step now e) (hq : S.parcels[n.toNat]? = some q)
    (hx : e.sender.packets[n.toNat]? = some x) :
    ∃ x', (e.talk now).sender.packets[n.toNat]? = some x' ∧
      Talked ((e.taken now).Asks S now) q.framed x ((e.receiver.assembly S.key).packet n) x'
        (((e.talk now).receiver.assembly S.key).packet n) := by
  have hsound := h.sound
  obtain ⟨-, hsends, hall, -⟩ := Sender.drain_spec _ hsound.ships.exists_tabled
  obtain ⟨x₁, hx₁, hxs⟩ := exists_right hsends hx
  have ht₁ := hxs.tabled _ (hsound.tabled hq hx)
  have hall₁ := hall x₁ (List.mem_of_getElem? hx₁)
  obtain ⟨-, htuned, -⟩ := sound_heard hsound now
  have htuned' := (sound_talk hsound now).tuned
  obtain ⟨htaken, hrecorded, hanswered⟩ := moves_taken h hq hx ht₁
  have hpolled : Receiver.Moves S _ q.framed n x₁ (e.taken now) (e.heard now) :=
    Receiver.moves_pollTimers htuned hq ht₁ now
  have hmove := (htaken.mono Or.inl).trans (hpolled.mono Or.inr)
  have hstart : e.receiver.promised n x₁ = x₁ := by
    rw [Receiver.promised, h.outbox]
    rfl
  have ht' : Tabled q.framed ((e.heard now).promised n x₁) := Receiver.tabled_promised ht₁
  rw [hstart] at hmove
  refine ⟨_, packet_talk hsound hx₁ now, {
    tabled := ht'
    held := hmove.grows.held
    done := fun hdone => hmove.done ⟨hdone.1, hxs.confirmed_iff.mpr hdone.2⟩
    done_of_held := hmove.done_of_held
    recorded := ?_
    answered := fun hi => hpolled.done_or_asked (hanswered hi)
    silent := ?_
    held_of_recorded := PacketAssembly.held_of_recorded (htuned'.stocked.contents n)
      (htuned'.idle n) hq
    held_of_asks := ?_ }⟩
  · intro i k hk hi
    rcases hi with hi | hi
    · exact hmove.grows.recorded k hi
    · exact hpolled.grows.recorded k (hrecorded i k hk hi)
  · intro hi hasks
    rcases hmove.eq_or_done (not_or.mpr ⟨hi, hasks⟩) with he | hdone
    · rw [he]
      exact hall₁
    · exact ht'.settled fun hu => absurd (hu.symm.trans hdone.2) (by simp)
  · intro hasks hcover
    have hpieces (i : Nat) (k : BurstKind) (hk : q.framed.kind? i = some k) (hne : k ≠ .terminal) :
        (((e.taken now).assembly S.key).packet n).Recorded k := by
      rcases hcover i k hk hne with hi | hi
      · exact htaken.grows.recorded k hi
      · exact hrecorded i k hk hi
    cases hopen : (((e.taken now).assembly S.key).packet n).held with
    | true => exact hpolled.grows.held hopen
    | false =>
      have hhas := PacketAssembly.hasAll_of_recorded (htuned.stocked.contents n) hopen hq hpieces
      exact (Receiver.cover_pollTimers htuned hq ht₁ hasks
        (Or.inl (ProfileAssembly.contains_of_hasAll hhas))).2 hhas

/-- a packet that the receiver knows of when it asks is covered -/
theorem cover_talk (h : Calm S step now e) (hq : S.parcels[n.toNat]? = some q)
    {x' : Outbound} (hx' : (e.talk now).sender.packets[n.toNat]? = some x')
    (hasks : (e.taken now).Asks S now)
    (hknown : n = 0 ∨ ((e.receiver.assembly S.key).packet 0).held = true) :
    Cover q.framed x' (((e.talk now).receiver.assembly S.key).packet n) := by
  have hsound := h.sound
  obtain ⟨-, hsends, -, -⟩ := Sender.drain_spec _ hsound.ships.exists_tabled
  obtain ⟨x, hx⟩ := hsound.ships.packet _ q hq
  obtain ⟨x₁, hx₁, hxs⟩ := exists_right hsends hx
  obtain ⟨-, htuned, hadv⟩ := sound_heard hsound now
  rw [packet_talk hsound hx₁ now] at hx'
  obtain rfl := Option.some.inj hx'
  refine (Receiver.cover_pollTimers htuned hq (hxs.tabled _ (hsound.tabled hq hx)) hasks
    (Or.inr (hknown.imp_right fun hheld => ?_))).1
  have hinfo : ((e.taken now).assembly S.key).received.info = some S.info :=
    ProfileAssembly.info_of_held htuned.stocked (hadv.held 0 hheld)
  rw [hinfo]
  rfl

/-! ## Silence -/

def Still (e : Exchange) : Prop := ∀ x ∈ e.sender.packets, x.bursts.allSent = true

theorem drain_of_still (h : Sound S e) (hstill : e.Still) : e.sender.drain.1 = [] := by
  obtain ⟨hmem, -⟩ := Sender.drain_spec _ h.ships.exists_tabled
  apply List.eq_nil_iff_forall_not_mem.mpr
  intro w hw
  obtain ⟨n, x, i, k, hx, hi, -⟩ := (hmem w).mp hw
  exact BurstTable.allSent_iff.mp (hstill x (List.mem_of_getElem? hx)) i hi

/-- when no burst waits, the link is quiet after a step -/
theorem isQuiet_of_still (h : Calm S step now e) (hstill : e.Still) :
    e.taken now = e.receiver ∧ (e.taken now).isQuiet now = true := by
  have htaken : e.taken now = e.receiver := by
    rw [taken, drain_of_still h.sound hstill]
    rfl
  have hburst := h.sound.lastBurst
  have hresend := h.sound.lastResend
  have hlatest := h.latest
  have hstep := h.resend
  refine ⟨htaken, ?_⟩
  rw [htaken, Receiver.isQuiet, decide_eq_true_iff]
  omega

/-- when no burst waits and nothing is asked for, the sender hears a heartbeat and nothing else -/
theorem talk_of_still (h : Calm S step now e) (hstill : e.Still)
    (hasks : ¬ (e.taken now).Asks S now) :
    (e.talk now).sender.lastControl = e.sender.lastControl ∧ (e.talk now).Still := by
  obtain ⟨-, -, hall, hsame⟩ := Sender.drain_spec _ h.sound.ships.exists_tabled
  obtain ⟨-, htuned, -⟩ := sound_heard h.sound now
  have hears := hears_talk h.sound now
  have hout : (e.heard now).outbox = [.heartbeat] := by
    rw [heard, (Receiver.pollTimers_of_not_asks htuned hasks).2,
      outbox_pollHeartbeat h.toPaced h.latest, (isQuiet_of_still h hstill).1, h.outbox]
    rfl
  rw [hout] at hears
  refine ⟨?_, ?_⟩
  · rw [hears.unanswered fun o ho => List.mem_singleton.mp ho, hsame.lastControl]
  · intro x hx
    obtain ⟨n, hn⟩ := List.getElem?_of_mem hx
    rw [hears.packet, Option.map_eq_some_iff] at hn
    obtain ⟨x₁, hx₁, rfl⟩ := hn
    exact hall x₁ (List.mem_of_getElem? hx₁)

end Exchange

end Shoreline
