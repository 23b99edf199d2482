import Mathlib.Algebra.Order.BigOperators.Group.List
import Mathlib.Algebra.Order.Group.Nat
import Shoreline.Proofs.Delivery

/-!
# One packet among others

What a receiver has of one packet (`Slot`): what is there of it, and the packet once it was
rebuilt.  A burst concerns the slot of its own packet alone, and what it does there and what is said
about it depend on this slot alone (`Slot.receive`), whether the pieces decode or not.  This rests
on no packet being ready between two bursts, for else a packet that is rebuilt would have others
rebuilt with it.

* `ProfileAssembly.apply_slot`   what a burst does to an assembly;
* `Receiver.takes_handleBurst`   and to a receiver that has room for it (`Receiver.Takes`);
* `Receiver.Takes.buffered_le`   what is kept grows by no more bytes than the burst carries.
-/

namespace Shoreline

/-- packet `n` as it was rebuilt -/
def ReceivedProfile.packet? (p : ReceivedProfile) (n : UInt16) : Option Packet :=
  if n = 0 then p.info.map .info else (p.data.get? n).map .data

/-- what a receiver has of one packet -/
structure Slot where
  /-- what is there of it, if anything was heard of it -/
  entry : Option PacketAssembly
  /-- the packet, once it was rebuilt -/
  stored : Option Packet

/-! ## A packet by itself -/

namespace PacketAssembly

/-- the packet that the pieces decode to, if it is the one with this key -/
def decoded? (p : PacketAssembly) (key : PacketKey) : Option Packet :=
  match Packet.decode p.bytes with
  | .ok q => if q.key = key then some q else none
  | .error _ => none

variable {key : PacketKey}

theorem mem_request {p : PacketAssembly} {n : UInt16} {a : Answer} (h : a ∈ p.request n) :
    a = .wantsAll n ∨ ∃ i, a = .wantsBurst n i := by
  rw [request] at h
  split at h
  · obtain ⟨i, -, rfl⟩ := List.mem_map.mp h
    exact Or.inr ⟨i, rfl⟩
  · exact Or.inl (List.mem_singleton.mp h)

theorem buffered_announce_le (p : PacketAssembly) (c : UInt16) :
    (p.announce c).buffered ≤ p.buffered := by
  have hfilter (m : Keyed UInt16 Bytes) (f : UInt16 → Bytes → Bool) :
      ((m.filter f).values.map List.length).sum ≤ (m.values.map List.length).sum :=
    ((List.filter_sublist.map _).map _).sum_le_sum fun _ _ => Nat.zero_le _
  have hpieces : (if p.announced.any (· != c) then p.restart else p).buffered ≤ p.buffered := by
    split
    · exact Nat.zero_le _
    · exact Nat.le_refl _
  exact Nat.le_trans (hfilter _ _) hpieces

/-- a burst brings no more bytes than it carries -/
theorem buffered_take_le (p : PacketAssembly) (k : BurstKind) :
    (p.take k).buffered ≤ p.buffered + (Burst.payload ⟨key, k⟩).length := by
  cases k with
  | announce c => exact Nat.le_trans (buffered_announce_le p c) (Nat.le_add_right _ _)
  | data i b =>
    have hsum := Keyed.sum_insert p.pieces List.length i b
    show ((p.pieces.insert i b).values.map List.length).sum ≤
      (p.pieces.values.map List.length).sum + b.length
    omega
  | terminal => exact Nat.le_add_right _ _

end PacketAssembly

def Answer.packet : Answer → UInt16
  | rebuilt n | stillHeld n | wantsBurst n _ | wantsAll n => n

theorem Answer.key_line (key : ProfileKey) (a : Answer) : (a.line key).key = ⟨key, a.packet⟩ := by
  cases a <;> rfl

namespace Slot

/-- nothing was heard of the packet -/
def empty : Slot := ⟨none, none⟩

def assembly (x : Slot) : PacketAssembly := x.entry.getD .new

/-- rebuilds the packet from what is there of it then, or starts it again -/
def rebuild (x : Slot) (key : PacketKey) (p : PacketAssembly) : Slot × Answer :=
  match p.decoded? key with
  | some q => (⟨some p.hold, some q⟩, .rebuilt key.packet)
  | none => (⟨some p.restart, x.stored⟩, .wantsAll key.packet)

/-- what a burst does to its packet, and what is said -/
def receive (x : Slot) (key : PacketKey) (k : BurstKind) : Slot × List Answer :=
  if x.assembly.held then (x, if k = .terminal then [.stillHeld key.packet] else [])
  else if x.assembly.refuses k then (x, [])
  else if (x.assembly.take k).ready then
    ((x.rebuild key (x.assembly.take k)).1, [(x.rebuild key (x.assembly.take k)).2])
  else
    (⟨some (x.assembly.take k), x.stored⟩,
      if k = .terminal then (x.assembly.take k).request key.packet else [])

variable {x : Slot} {key : PacketKey} {k : BurstKind}

theorem rebuild_of_some {p : PacketAssembly} {q : Packet} (h : p.decoded? key = some q) :
    x.rebuild key p = (⟨some p.hold, some q⟩, .rebuilt key.packet) := by
  rw [rebuild, h]

theorem rebuild_of_none {p : PacketAssembly} (h : p.decoded? key = none) :
    x.rebuild key p = (⟨some p.restart, x.stored⟩, .wantsAll key.packet) := by
  rw [rebuild, h]

theorem ready_rebuild (x : Slot) (key : PacketKey) (p : PacketAssembly) :
    (x.rebuild key p).1.assembly.ready = false := by
  rw [rebuild]
  split
  · exact PacketAssembly.ready_hold p
  · exact PacketAssembly.ready_restart p

/-- a packet is never left ready -/
theorem ready_receive (h : x.assembly.ready = false) :
    (x.receive key k).1.assembly.ready = false := by
  rw [receive]
  split
  · exact h
  split
  · exact h
  split
  · exact ready_rebuild _ _ _
  · next hready => exact Bool.eq_false_iff.mpr hready

theorem packet_of_receive {a : Answer} (h : a ∈ (x.receive key k).2) : a.packet = key.packet := by
  rw [receive] at h
  split at h
  · split at h
    · rw [List.mem_singleton.mp h]
      rfl
    · exact absurd h (by simp)
  split at h
  · exact absurd h (by simp)
  split at h
  · rw [List.mem_singleton.mp h, rebuild]
    split <;> rfl
  split at h
  · rcases PacketAssembly.mem_request h with rfl | ⟨i, rfl⟩ <;> rfl
  · exact absurd h (by simp)

theorem buffered_receive_le (x : Slot) (key : PacketKey) (k : BurstKind) :
    (x.receive key k).1.assembly.buffered ≤
      x.assembly.buffered + (Burst.payload ⟨key, k⟩).length := by
  rw [receive]
  split
  · exact Nat.le_add_right _ _
  split
  · exact Nat.le_add_right _ _
  split
  · rw [rebuild]
    split <;> exact Nat.zero_le _
  · exact PacketAssembly.buffered_take_le _ _

end Slot

/-! ## An assembly -/

namespace ProfileAssembly

/-- what the assembly has of packet `n` -/
def slot (s : ProfileAssembly) (n : UInt16) : Slot := ⟨s.packets.get? n, s.received.packet? n⟩

/-- nothing but packet `n` has changed, and the bytes kept have changed with it -/
structure Touches (n : UInt16) (s s' : ProfileAssembly) : Prop where
  key : s'.received.key = s.received.key
  slot_ne : ∀ m, m ≠ n → s'.slot m = s.slot m
  buffered : s'.buffered + (s.packet n).buffered = s.buffered + (s'.packet n).buffered

variable {s s' s'' : ProfileAssembly} {n : UInt16} {k : BurstKind} {q : Packet}

theorem Touches.refl (n : UInt16) (s : ProfileAssembly) : Touches n s s :=
  ⟨rfl, fun _ _ => rfl, rfl⟩

theorem Touches.trans (h : Touches n s s') (h' : Touches n s' s'') : Touches n s s'' := by
  refine ⟨h'.key.trans h.key, fun m hm => (h'.slot_ne m hm).trans (h.slot_ne m hm), ?_⟩
  have h₁ := h.buffered
  have h₂ := h'.buffered
  omega

theorem slot_put (s : ProfileAssembly) (n : UInt16) (p : PacketAssembly) :
    (s.put n p).slot n = ⟨some p, s.received.packet? n⟩ := by
  rw [slot, put, Keyed.get?_insert]

theorem touches_put (s : ProfileAssembly) (n : UInt16) (p : PacketAssembly) :
    Touches n s (s.put n p) := by
  refine ⟨rfl, fun m hm => ?_, ?_⟩
  · rw [slot, put, Keyed.get?_insert_ne _ hm, slot]
  · rw [packet_put]
    exact s.buffered_put n p

theorem packet?_store (hkey : q.key.packet = n) (hdata : ∀ d, q = .data d → n ≠ 0) :
    (s.store n q).received.packet? n = some q := by
  cases q with
  | info p =>
    obtain rfl : 0 = n := hkey
    rfl
  | data d =>
    rw [ReceivedProfile.packet?, if_neg (hdata d rfl)]
    show ((s.received.data.insert n d).get? n).map Packet.data = some (.data d)
    rw [Keyed.get?_insert]
    rfl

theorem packet?_store_ne (hkey : q.key.packet = n) {m : UInt16} (hm : m ≠ n) :
    (s.store n q).received.packet? m = s.received.packet? m := by
  cases q with
  | info p =>
    obtain rfl : 0 = n := hkey
    rw [ReceivedProfile.packet?, if_neg hm, ReceivedProfile.packet?, if_neg hm]
    rfl
  | data d =>
    rw [ReceivedProfile.packet?, ReceivedProfile.packet?]
    split
    · rfl
    · show ((s.received.data.insert n d).get? m).map Packet.data = _
      rw [Keyed.get?_insert_ne _ hm]

theorem touches_store (hkey : q.key.packet = n) : Touches n s (s.store n q) := by
  refine ⟨key_store q, fun m hm => ?_, ?_⟩
  · rw [slot, packets_store, Keyed.get?_insert_ne _ hm, packet?_store_ne hkey hm, slot]
  · have hput : (s.store n q).buffered = (s.put n (s.packet n).hold).buffered := by
      cases q <;> rfl
    rw [packet_store, hput]
    exact s.buffered_put n _

/-- rebuilding a packet depends on what is there of it and touches nothing else -/
theorem rebuild_slot (s : ProfileAssembly) (n : UInt16) :
    Touches n s (s.rebuild n).1 ∧
      ((s.rebuild n).1.slot n, (s.rebuild n).2) =
        (s.slot n).rebuild ⟨s.received.key, n⟩ (s.packet n) := by
  have hdecoded : s.decoded? n = (s.packet n).decoded? ⟨s.received.key, n⟩ := rfl
  cases hd : s.decoded? n with
  | some q =>
    obtain ⟨hdecode, hkey⟩ := decoded?_eq_some s n hd
    have hpacket : q.key.packet = n := by rw [hkey]
    have hdata : ∀ d, q = .data d → n ≠ 0 := by
      rintro d rfl rfl
      exact Packet.packet_ne_zero_of_decode hdecode hpacket
    rw [rebuild_of_some s n hd, Slot.rebuild_of_some (hdecoded.symm.trans hd), slot, packets_store,
      Keyed.get?_insert, packet?_store hpacket hdata]
    exact ⟨touches_store hpacket, rfl⟩
  | none =>
    rw [rebuild_of_none s n hd, Slot.rebuild_of_none (hdecoded.symm.trans hd), slot_put]
    exact ⟨touches_put s n _, rfl⟩

theorem idle_of_touches (hs : Idle s) (h : Touches n s s') (hn : (s'.packet n).ready = false) :
    Idle s' := by
  intro m
  by_cases hm : m = n
  · rw [hm, hn]
  · have hslot : s'.packet m = s.packet m := congrArg Slot.assembly (h.slot_ne m hm)
    rw [hslot, hs m]

/-- what a burst does to an assembly is what it does to the slot of its packet -/
theorem apply_slot (hs : Idle s) (n : UInt16) (k : BurstKind) :
    Touches n s (s.apply n k).1 ∧
      ((s.apply n k).1.slot n, (s.apply n k).2) =
        (s.slot n).receive ⟨s.received.key, n⟩ k := by
  have hassembly : (s.slot n).assembly = s.packet n := rfl
  rw [Slot.receive, hassembly]
  cases hheld : (s.packet n).held with
  | true =>
    rw [apply_of_held hheld, if_pos rfl]
    exact ⟨.refl n s, rfl⟩
  | false =>
  rw [if_neg Bool.false_ne_true]
  cases hr : (s.packet n).refuses k with
  | true =>
    rw [apply_of_refused hheld hr, if_pos rfl]
    exact ⟨.refl n s, rfl⟩
  | false =>
  rw [if_neg Bool.false_ne_true, apply_of_open hs hheld hr]
  have hput := touches_put s n ((s.packet n).take k)
  split
  · obtain ⟨htouches, hslot⟩ := rebuild_slot (s.put n ((s.packet n).take k)) n
    rw [slot_put, packet_put] at hslot
    obtain ⟨h₁, h₂⟩ := Prod.mk.inj hslot
    refine ⟨hput.trans htouches, ?_⟩
    dsimp only
    rw [h₁, h₂]
    rfl
  · refine ⟨hput, ?_⟩
    dsimp only
    rw [slot_put]
    cases k with
    | announce c => rfl
    | data i b => rfl
    | terminal =>
      show (_, request _ n) = _
      rw [request_of_open (by rw [packet_put, PacketAssembly.held_take, hheld]), packet_put,
        if_pos rfl]
      rfl

end ProfileAssembly

/-! ## A receiver -/

namespace Receiver
open ProfileAssembly

variable {r r' : Receiver} {b : Burst}

/-- what the receiver has of a packet -/
def slot (r : Receiver) (key : PacketKey) : Slot := (r.assembly key.toProfileKey).slot key.packet

/-- each assembly stands under its own key, and no packet is left ready -/
structure Orderly (r : Receiver) : Prop where
  key : ∀ key, (r.assembly key).received.key = key
  idle : ∀ key, Idle (r.assembly key)

theorem assembly_new (config : ReceiverConfig) (now : Nat) (key : ProfileKey) :
    (Receiver.new config now).assembly key = .new key := rfl

theorem orderly_new (config : ReceiverConfig) (now : Nat) : (Receiver.new config now).Orderly :=
  ⟨fun _ => rfl, idle_new⟩

theorem slot_new (config : ReceiverConfig) (now : Nat) (key : PacketKey) :
    (Receiver.new config now).slot key = .empty := by
  rw [slot, assembly_new, ProfileAssembly.slot, ReceivedProfile.packet?]
  split <;> rfl

theorem assembly_update_ne (r : Receiver) {key key' : ProfileKey} (h : key' ≠ key)
    (x : ProfileAssembly × List Answer) : (r.update key x).assembly key' = r.assembly key' := by
  rw [assembly, update, Keyed.get?_insert_ne _ h, assembly]

theorem buffered_update (r : Receiver) (key : ProfileKey) (x : ProfileAssembly × List Answer) :
    (r.update key x).buffered + (r.assembly key).buffered = r.buffered + x.1.buffered := by
  have hold : ((r.profiles.get? key).map ProfileAssembly.buffered).getD 0 =
      (r.assembly key).buffered := by
    rw [assembly]
    cases r.profiles.get? key <;> rfl
  have hsum := Keyed.sum_insert r.profiles ProfileAssembly.buffered key x.1
  rwa [hold] at hsum

/-- what a burst does when there is room for it: it changes the slot of its packet as it would by
itself, and no other -/
structure Takes (b : Burst) (r r' : Receiver) : Prop where
  config : r'.config = r.config
  orderly : r'.Orderly
  slot_eq : r'.slot b.key = ((r.slot b.key).receive b.key b.kind).1
  slot_ne : ∀ key, key ≠ b.key → r'.slot key = r.slot key
  outbox : r'.outbox = r.outbox ++ ((r.slot b.key).receive b.key b.kind).2.map
    fun a => .control (a.line b.key.toProfileKey)
  buffered : r'.buffered + (r.slot b.key).assembly.buffered =
    r.buffered + (r'.slot b.key).assembly.buffered

theorem takes_handleBurst (h : r.Orderly) (hroom : r.lacksRoom b.kind = false) (now : Nat) :
    Takes b r (handleBurst now r b) := by
  obtain ⟨⟨profile, n⟩, k⟩ := b
  obtain ⟨htouches, hslot⟩ := apply_slot (h.idle profile) n k
  rw [h.key profile] at hslot
  have h₁ : ((r.assembly profile).apply n k).1.slot n =
      ((r.slot ⟨profile, n⟩).receive ⟨profile, n⟩ k).1 := congrArg Prod.fst hslot
  have h₂ : ((r.assembly profile).apply n k).2 =
      ((r.slot ⟨profile, n⟩).receive ⟨profile, n⟩ k).2 := congrArg Prod.snd hslot
  rw [handleBurst_eq, if_neg (by rw [hroom]; exact Bool.false_ne_true)]
  dsimp only
  -- only the clock and the count of bursts differ from `r` here
  generalize hr' : ({ r with burstsReceived := r.burstsReceived + 1, lastBurst := now } :
    Receiver) = r'
  have hassembly (key : ProfileKey) : r'.assembly key = r.assembly key := by rw [← hr']; rfl
  have hbuffered : r'.buffered = r.buffered := by rw [← hr']; rfl
  have hself := assembly_update r' profile ((r.assembly profile).apply n k)
  have hother {key : ProfileKey} (hne : key ≠ profile) :=
    (assembly_update_ne r' hne ((r.assembly profile).apply n k)).trans (hassembly key)
  refine ⟨by rw [← hr']; rfl, ⟨fun key => ?_, fun key => ?_⟩, ?_, fun key hkey => ?_, ?_, ?_⟩
  · by_cases hne : key = profile
    · rw [hne, hself, htouches.key, h.key]
    · rw [hother hne, h.key]
  · by_cases hne : key = profile
    · rw [hne, hself]
      refine idle_of_touches (h.idle profile) htouches ?_
      have hready : (r.slot ⟨profile, n⟩).assembly.ready = false := h.idle profile n
      exact (congrArg (fun x => x.assembly.ready) h₁).trans (Slot.ready_receive hready)
    · rw [hother hne]
      exact h.idle key
  · rw [slot, hself, h₁]
  · by_cases hne : key.toProfileKey = profile
    · rw [slot, hne, hself, slot, hne]
      refine htouches.slot_ne _ fun hn => hkey ?_
      obtain ⟨_, _⟩ := key
      obtain rfl : _ = profile := hne
      obtain rfl : _ = n := hn
      rfl
    · rw [slot, hother hne, slot]
  · show r'.outbox ++ _ = _
    rw [h₂, ← hr']
  · have hupdate := buffered_update r' profile ((r.assembly profile).apply n k)
    have happly := htouches.buffered
    rw [hassembly, hbuffered] at hupdate
    have hslot' : ((r'.update profile ((r.assembly profile).apply n k)).slot ⟨profile, n⟩).assembly =
        ((r.assembly profile).apply n k).1.packet n := by
      rw [slot, hself]
      rfl
    rw [hslot']
    show _ + ((r.assembly profile).packet n).buffered = _
    omega

/-- what the receiver keeps grows at most by what the burst carries -/
theorem Takes.buffered_le (h : Takes b r r') :
    r'.buffered ≤ r.buffered + b.payload.length := by
  have hsum := h.buffered
  have hle := Slot.buffered_receive_le (r.slot b.key) b.key b.kind
  rw [← h.slot_eq] at hle
  have hpayload : (Burst.payload ⟨b.key, b.kind⟩).length = b.payload.length := rfl
  omega

theorem lacksRoom_of_le (h : r.buffered + b.payload.length ≤ r.config.mostBuffered) :
    r.lacksRoom b.kind = false := by
  obtain ⟨key, k⟩ := b
  cases k with
  | announce c => rfl
  | terminal => rfl
  | data i p => exact decide_eq_false (Nat.not_lt.mpr h)

end Receiver

end Shoreline
