import Shoreline.Proofs.Moves

/-!
# What a receiver makes of every packet

The moves of one packet put together: over the packets that the timers ask for, and over the bursts
that arrive together.  A burst is turned away only when the bytes held are at their limit, and then
the piece is there already, so that a receiver with room for the whole shipment loses none.

* `moves_pursueAll`    asking for several packets;
* `moves_takeAll`      several bursts;
* `moves_pollTimers`   looking at the timers.
-/

namespace Shoreline

/-! ## An assembly -/

namespace ProfileAssembly
open Outbound

variable {S : Shipment} {s : ProfileAssembly} {n : UInt16} {q : Parcel} {x : Outbound}

theorem packet_of_says {key : ProfileKey} {p : PacketAssembly} {a : Answer} (h : p.Says n a) :
    (a.line key).key.packet = n := by
  cases a with
  | rebuilt m => exact h.1
  | stillHeld m => exact h.1
  | wantsBurst m i => exact h.1
  | wantsAll m => exact h

/-- asking for packets is a move of each; those that are asked for are covered, and rebuilt when all
their pieces are there -/
theorem moves_pursueAll (h : Stocked S.supply s) (hi : Idle s)
    (hq : S.parcels[n.toNat]? = some q) (hx : Tabled q.framed x) (ns : List UInt16) :
    Move True q.framed x (s.packet n) (x.told S.key n (s.pursueAll ns).2)
        ((s.pursueAll ns).1.packet n) ∧
      (n ∈ ns → Cover q.framed (x.told S.key n (s.pursueAll ns).2) ((s.pursueAll ns).1.packet n) ∧
        ((s.packet n).hasAll = true → ((s.pursueAll ns).1.packet n).held = true)) := by
  induction ns generalizing s x with
  | nil => exact ⟨Move.refl _ _ _ _, fun hn => absurd hn (by simp)⟩
  | cons m ns ih =>
    obtain ⟨hs', hi'⟩ := stocked_pursue h hi m
    obtain ⟨hrep, hanswers⟩ := pursue_eq h hi m
    rw [pursueAll, told_append]
    dsimp only
    by_cases hmn : m = n
    · subst hmn
      obtain ⟨hmove, hcover, hheld⟩ := move_pursue (h.contents m) hq hx
      rw [← hrep.packet_eq, ← hanswers] at hmove hcover
      rw [← hrep.packet_eq] at hheld
      have hx' : Tabled q.framed (x.told S.key m (s.pursue m).2) := tabled_told hx _
      have hrest := (ih hs' hi' hx').1
      exact ⟨hmove.trans hrest, fun _ =>
        ⟨hrest.cover hcover, fun hall => hrest.grows.held (hheld hall)⟩⟩
    · have hpacket : (s.pursue m).1.packet n = s.packet n := hrep.packet_ne n (Ne.symm hmn)
      have htold : x.told S.key n (s.pursue m).2 = x := by
        refine told_of_ne fun a ha hne => hmn ?_
        rw [hanswers] at ha
        rw [← hne, packet_of_says (PacketAssembly.says_pursue ha)]
      rw [htold]
      obtain ⟨hmove, hlisted⟩ := ih hs' hi' hx
      rw [hpacket] at hmove hlisted
      refine ⟨hmove, fun hn => hlisted ?_⟩
      rcases List.mem_cons.mp hn with hn | hn
      · exact absurd hn.symm hmn
      · exact hn

end ProfileAssembly

/-! ## A receiver -/

namespace Receiver
open ProfileAssembly Outbound

/-- packet `n` at the sender once it hears all that waits in the outbox -/
def promised (r : Receiver) (n : UInt16) (x : Outbound) : Outbound :=
  r.outbox.foldl (hear n.toNat) x

def takeAll (r : Receiver) (ws : List Bytes) (now : Nat) : Receiver :=
  ws.foldl (fun r w => r.handleInput w now) r

theorem takeAll_append (r : Receiver) (ws ws' : List Bytes) (now : Nat) :
    r.takeAll (ws ++ ws') now = (r.takeAll ws now).takeAll ws' now := List.foldl_append

/-- an operation of the receiver is a move of packet `n` -/
def Moves (S : Shipment) (why : Prop) (f : Framed) (n : UInt16) (x : Outbound)
    (r r' : Receiver) : Prop :=
  Move why f (r.promised n x) ((r.assembly S.key).packet n) (r'.promised n x)
    ((r'.assembly S.key).packet n)

/-- the packet is done, or waits only for bursts that are on their way -/
def Answered (S : Shipment) (f : Framed) (n : UInt16) (x : Outbound) (r : Receiver) : Prop :=
  Done (r.promised n x) ((r.assembly S.key).packet n) ∨
    Asked f (r.promised n x) ((r.assembly S.key).packet n)

variable {S : Shipment} {r r' : Receiver} {n m : UInt16} {k : BurstKind} {q : Parcel}
  {x : Outbound} {now : Nat} {why : Prop}

theorem tabled_promised {f : Framed} (h : Tabled f x) : Tabled f (r.promised n x) :=
  tabled_foldl_hear h n.toNat _

theorem promised_append {key : ProfileKey} {as : List Answer}
    (h : r'.outbox = r.outbox ++ as.map fun a => .control (a.line key)) :
    r'.promised n x = (r.promised n x).told key n as := by
  rw [promised, h, List.foldl_append]
  rfl

theorem moves_of_eq {f : Framed} (hout : r'.promised n x = r.promised n x)
    (hpacket : (r'.assembly S.key).packet n = (r.assembly S.key).packet n) :
    Moves S why f n x r r' := by
  rw [Moves, hout, hpacket]
  exact Move.refl _ _ _ _

section
variable (hroom : (S.parcels.map fun p => p.framed.packet.length).sum ≤ r.config.mostBuffered)
  (hq : S.parcels[n.toNat]? = some q) (hx : Tabled q.framed x)
include hroom hq hx

/-- a burst that comes is recorded, and the terminal one is answered -/
theorem moves_handleBurst (h : Tuned S.supply r) (hk : S.Has m k) (now : Nat) :
    Moves S (m = n ∧ k = .terminal) q.framed n x r (handleBurst now r ⟨⟨S.key, m⟩, k⟩) ∧
      (m = n →
        (((handleBurst now r ⟨⟨S.key, m⟩, k⟩).assembly S.key).packet n).Recorded k ∧
        (k = .terminal → Answered S q.framed n x (handleBurst now r ⟨⟨S.key, m⟩, k⟩))) := by
  cases hl : r.lacksRoom k with
  | true =>
    rw [handleBurst_of_lacksRoom now hl]
    refine ⟨moves_of_eq rfl rfl, fun hmn => ?_⟩
    subst hmn
    -- only pieces are turned away, and only those that are there
    cases k with
    | announce c => exact absurd hl Bool.false_ne_true
    | terminal => exact absurd hl Bool.false_ne_true
    | data i b =>
      refine ⟨Or.inr ?_, fun hterminal => absurd hterminal (by simp)⟩
      cases hc : ((r.assembly S.key).packet m).pieces.contains i with
      | true => exact hc
      | false =>
        have hnot := lacksRoom_eq_false h hroom hk fun j d he => by
          rw [← (BurstKind.data.inj he).1]
          exact hc
        exact absurd (hl.symm.trans hnot) (by decide)
  | false =>
    obtain ⟨hrep, hout⟩ := handleBurst_of_room h hk now hl
    have hpromised := promised_append (n := n) (x := x) hout
    by_cases hmn : m = n
    · subst hmn
      have hcontents := h.stocked.contents m
      have hx' : Tabled q.framed (r.promised m x) := tabled_promised hx
      rw [Moves, hpromised, hrep.packet_eq]
      refine ⟨(move_receive hcontents hq hx' hk).mono fun hterminal => ⟨rfl, hterminal⟩,
        fun _ => ⟨recorded_receive hcontents hk, fun hterminal => ?_⟩⟩
      subst hterminal
      rw [Answered, hpromised, hrep.packet_eq]
      exact answered_receive hcontents hq hx' hk
    · refine ⟨moves_of_eq (hpromised.trans (told_of_ne fun a ha hne => hmn ?_))
        (hrep.packet_ne n (Ne.symm hmn)), fun he => absurd he hmn⟩
      rw [← hne, packet_of_says (PacketAssembly.says_receive ha)]

theorem moves_handleInput (h : Tuned S.supply r) (hl : S.limit ≤ r.reader.mostPayload)
    (hk : S.Has m k) (now : Nat) :
    Moves S (m = n ∧ k = .terminal) q.framed n x r
        (r.handleInput (Burst.wire ⟨⟨S.key, m⟩, k⟩) now) ∧
      (m = n →
        (((r.handleInput (Burst.wire ⟨⟨S.key, m⟩, k⟩) now).assembly S.key).packet n).Recorded k ∧
        (k = .terminal →
          Answered S q.framed n x (r.handleInput (Burst.wire ⟨⟨S.key, m⟩, k⟩) now))) := by
  rw [handleInput_burst h hl hk]
  exact moves_handleBurst hroom hq hx h hk now

end

/-! ## Bursts that arrive together -/

theorem tuned_takeAll (h : Tuned S.supply r) (hl : S.limit ≤ r.reader.mostPayload)
    {ws : List Bytes} (hws : ∀ w ∈ ws, ∃ m k, S.Has m k ∧ w = Burst.wire ⟨⟨S.key, m⟩, k⟩)
    (now : Nat) :
    Tuned S.supply (r.takeAll ws now) ∧ (r.takeAll ws now).reader = r.reader ∧
      Advances S now r (r.takeAll ws now) := by
  induction ws generalizing r with
  | nil => exact ⟨h, rfl, Advances.refl S now r⟩
  | cons w ws ih =>
    obtain ⟨m, k, hk, rfl⟩ := hws w List.mem_cons_self
    have hreader := reader_handleBurst now r ⟨⟨S.key, m⟩, k⟩
    rw [takeAll, List.foldl_cons, handleInput_burst h hl hk]
    obtain ⟨ht, hr, hadv⟩ := ih (tuned_handleBurst h hk now) (hreader ▸ hl)
      fun w' hw' => hws w' (List.mem_cons_of_mem _ hw')
    exact ⟨ht, hr.trans hreader, (advances_handleBurst h hk now).trans hadv⟩

theorem lastHeartbeat_takeAll (r : Receiver) (ws : List Bytes) (now : Nat) :
    (r.takeAll ws now).lastHeartbeat = r.lastHeartbeat := by
  induction ws generalizing r with
  | nil => rfl
  | cons w ws ih =>
    rw [takeAll, List.foldl_cons]
    exact (ih _).trans (lastHeartbeat_handleInput r w now)

theorem moves_takeAll (h : Tuned S.supply r) (hl : S.limit ≤ r.reader.mostPayload)
    (hroom : (S.parcels.map fun p => p.framed.packet.length).sum ≤ r.config.mostBuffered)
    (hq : S.parcels[n.toNat]? = some q) (hx : Tabled q.framed x) {ws : List Bytes}
    (hws : ∀ w ∈ ws, ∃ m k, S.Has m k ∧ w = Burst.wire ⟨⟨S.key, m⟩, k⟩) (now : Nat) :
    Moves S (Burst.wire ⟨⟨S.key, n⟩, .terminal⟩ ∈ ws) q.framed n x r (r.takeAll ws now) ∧
      ∀ k, S.Has n k → Burst.wire ⟨⟨S.key, n⟩, k⟩ ∈ ws →
        (((r.takeAll ws now).assembly S.key).packet n).Recorded k ∧
        (k = .terminal → Answered S q.framed n x (r.takeAll ws now)) := by
  -- what the first burst did is kept by the moves of those behind it
  induction ws generalizing r with
  | nil => exact ⟨moves_of_eq rfl rfl, fun k _ hk => absurd hk (by simp)⟩
  | cons w ws ih =>
    obtain ⟨m, l, hl', rfl⟩ := hws w List.mem_cons_self
    have hwire := handleInput_burst h hl hl' now
    have hreader := reader_handleBurst now r ⟨⟨S.key, m⟩, l⟩
    have hadv := advances_handleBurst h hl' now
    rw [← hwire] at hreader hadv
    obtain ⟨hmove, -⟩ := moves_handleInput hroom hq hx h hl hl' now
    obtain ⟨hrest, hrecorded⟩ := ih (hwire ▸ tuned_handleBurst h hl' now) (hreader ▸ hl)
      (hadv.config ▸ hroom) fun w' hw' => hws w' (List.mem_cons_of_mem _ hw')
    refine ⟨(hmove.mono ?_).trans (hrest.mono fun hw => List.mem_cons_of_mem _ hw),
      fun k hk hw => ?_⟩
    · rintro ⟨rfl, rfl⟩
      exact List.mem_cons_self
    rcases List.mem_cons.mp hw with hw | hw
    · -- the burst that comes first is this one, whatever else it was said to be
      obtain ⟨hgot, hanswered⟩ := (moves_handleInput hroom hq hx h hl hk now).2 rfl
      rw [hw] at hgot hanswered
      exact ⟨hrest.grows.recorded k hgot, fun hterminal =>
        hrest.done_or_asked (hanswered hterminal)⟩
    · exact hrecorded k hk hw

/-! ## Timers -/

/-- the timers are about to ask for everything outstanding -/
def Asks (S : Shipment) (r : Receiver) (now : Nat) : Prop :=
  r.isQuiet now = true ∧ r.profiles.entries ≠ [] ∧ (r.assembly S.key).isComplete = false

theorem promised_pollHeartbeat (r : Receiver) (now : Nat) (n : UInt16) (x : Outbound) :
    (r.pollHeartbeat now).promised n x = r.promised n x := by
  rw [pollHeartbeat]
  split
  · rw [promised, List.foldl_append]
    rfl
  · rfl

/-- unless they ask, the timers queue a heartbeat at most -/
theorem pollTimers_of_not_asks (h : Tuned S.supply r) (hnot : ¬ r.Asks S now) :
    (r.pollTimers now).assembly S.key = r.assembly S.key ∧
      (r.pollTimers now).outbox = (r.pollHeartbeat now).outbox := by
  rcases pollTimers_cases h now with ⟨he, -⟩ | ⟨-, -, he⟩ | ⟨hquiet, hentries, hopen, -⟩
  · rw [he]
    exact ⟨assembly_pollHeartbeat r now _, rfl⟩
  · rw [he]
    exact ⟨assembly_pollHeartbeat r now _, rfl⟩
  · exact absurd ⟨hquiet, hentries, hopen⟩ hnot

theorem pollTimers_of_asks (h : Tuned S.supply r) (hasks : r.Asks S now) :
    (r.pollTimers now).assembly S.key =
        ((r.assembly S.key).pursueAll (r.assembly S.key).outstanding).1 ∧
      (r.pollTimers now).outbox = (r.pollHeartbeat now).outbox ++
        ((r.assembly S.key).pursueAll (r.assembly S.key).outstanding).2.map
          fun a => .control (a.line S.key) := by
  obtain ⟨hquiet, hentries, hopen⟩ := hasks
  rcases pollTimers_cases h now with ⟨-, hcomplete⟩ | ⟨-, hnil, -⟩ | ⟨-, -, -, he⟩
  · exact absurd ((hcomplete hquiet).symm.trans hopen) (by decide)
  · exact absurd hnil hentries
  · rw [he, ← requestOutstanding_eq]
    exact ⟨assembly_update _ _ _, rfl⟩

theorem moves_pollTimers (h : Tuned S.supply r) (hq : S.parcels[n.toNat]? = some q)
    (hx : Tabled q.framed x) (now : Nat) :
    Moves S (r.Asks S now) q.framed n x r (r.pollTimers now) := by
  by_cases hasks : r.Asks S now
  · obtain ⟨ha, hout⟩ := pollTimers_of_asks h hasks
    rw [Moves, ha, promised_append hout, promised_pollHeartbeat]
    exact (moves_pursueAll h.stocked h.idle hq (tabled_promised hx) _).1.mono fun _ => hasks
  · obtain ⟨ha, hout⟩ := pollTimers_of_not_asks h hasks
    refine moves_of_eq ?_ (by rw [ha])
    rw [promised, hout]
    exact promised_pollHeartbeat r now n x

/-- a packet that is known of is asked for, and rebuilt when all its pieces are there -/
theorem cover_pollTimers (h : Tuned S.supply r) (hq : S.parcels[n.toNat]? = some q)
    (hx : Tabled q.framed x) (hasks : r.Asks S now)
    (hknown : (r.assembly S.key).packets.contains n = true ∨ n = 0 ∨
      (r.assembly S.key).received.info.isSome = true) :
    Cover q.framed ((r.pollTimers now).promised n x)
        (((r.pollTimers now).assembly S.key).packet n) ∧
      (((r.assembly S.key).packet n).hasAll = true →
        (((r.pollTimers now).assembly S.key).packet n).held = true) := by
  have hx' : Tabled q.framed (r.promised n x) := tabled_promised hx
  obtain ⟨ha, hout⟩ := pollTimers_of_asks h hasks
  obtain ⟨hmove, hlisted⟩ := moves_pursueAll h.stocked h.idle hq hx'
    (r.assembly S.key).outstanding
  rw [ha, promised_append hout, promised_pollHeartbeat]
  cases hheld : ((r.assembly S.key).packet n).held with
  | true =>
    have hheld' := hmove.grows.held hheld
    exact ⟨Cover.of_held hheld', fun _ => hheld'⟩
  | false => exact hlisted (mem_outstanding h.stocked hq hheld hknown)

end Receiver

end Shoreline
