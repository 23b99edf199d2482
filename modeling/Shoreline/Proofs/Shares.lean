import Shoreline.Proofs.AnyOrder
import Shoreline.Proofs.Finality
import Shoreline.Proofs.Retry
import Shoreline.Proofs.Room

/-!
# What is kept

While only bursts of one shipment come, the bytes that a receiver keeps are those of the pieces that
are there of its open packets: each packet has its share (`Framed.share`), and a packet that was
rebuilt has none.

* `PacketAssembly.buffered_of_contents`   the share of a packet;
* `Receiver.Underway`                     a receiver that has been given bursts of one shipment;
* `Receiver.buffered_handleBurst`         a burst changes the share of its packet only.
-/

namespace Shoreline

/-! ## Sizes -/

namespace Framed
variable {f : Framed} {has has' : Nat → Bool}

/-- the bytes of the pieces with these indices -/
def share (f : Framed) (has : Nat → Bool) : Nat :=
  ∑ i ∈ Finset.range (f.count + 1), if has i then ((f.piece? i).getD []).length else 0

theorem share_add_not (f : Framed) (has : Nat → Bool) :
    f.share has + f.share (fun i => !has i) = f.packet.length := by
  have hpieces : ∑ i ∈ Finset.range f.count, ((f.piece? (i + 1)).getD []).length =
      f.packet.length := by
    rw [packet, List.length_flatten]
    exact congrArg List.sum (map_range_getElem? (fun o => (o.getD []).length) f.pieces)
  rw [share, share, ← Finset.sum_add_distrib, ← hpieces, Finset.sum_range_succ']
  have hfirst : (f.piece? 0).getD [] = [] := rfl
  rw [hfirst, List.length_nil, ite_self, ite_self, Nat.add_zero]
  refine Finset.sum_congr rfl fun i _ => ?_
  cases has (i + 1)
  · exact Nat.zero_add _
  · exact Nat.add_zero _

theorem share_mono (h : ∀ i, has i = true → has' i = true) : f.share has ≤ f.share has' := by
  refine Finset.sum_le_sum fun i _ => ?_
  split
  · next hi => rw [if_pos (h i hi)]
  · exact Nat.zero_le _

/-- only the indices of pieces count -/
theorem share_congr (h : ∀ i, 1 ≤ i → i ≤ f.count → has i = has' i) :
    f.share has = f.share has' := by
  refine Finset.sum_congr rfl fun i hi => ?_
  rw [Finset.mem_range] at hi
  cases i with
  | zero => exact (ite_self _).trans (ite_self _).symm
  | succ i => rw [h (i + 1) (Nat.succ_pos i) (by omega)]

end Framed

/-- the bytes of these pieces of packet `n` -/
def Sender.share (s : Sender) (n : Nat) (has : Nat → Bool) : Nat :=
  s.packets[n]?.elim 0 fun x => x.framed.share has

theorem Shipment.share_sender {S : Shipment} {sc : SenderConfig} {t n : Nat} {q : Parcel}
    (hq : S.parcels[n]? = some q) (has : Nat → Bool) :
    (S.sender sc t).share n has = q.framed.share has := by
  rw [Sender.share, packet_sender.mpr ⟨q, hq, rfl⟩]
  rfl

theorem Shipment.exists_parcel_of_lt {S : Shipment} {n : Nat} (h : n < S.parcels.length) :
    ∃ (m : UInt16) (q : Parcel), m.toNat = n ∧ S.parcels[m.toNat]? = some q := by
  have hq := List.getElem?_eq_getElem h
  have hnumber := (toNat_lt hq).2
  exact ⟨UInt16.ofNat n, S.parcels[n], hnumber, by rw [hnumber, hq]⟩

/-! ## What is kept of a packet -/

namespace PacketAssembly

/-- piece `i` is there -/
def there (p : PacketAssembly) (i : Nat) : Bool := p.pieces.contains (UInt16.ofNat i)

/-- what is kept of a packet are the pieces that are there -/
theorem buffered_eq_share {p : PacketAssembly} {f : Framed} (hcount : f.count ≤ mostBursts)
    (h : ∀ i b, p.pieces.get? i = some b → f.piece? i.toNat = some b) :
    p.buffered = f.share p.there := by
  refine p.pieces.sum_values_eq _ _ _ (fun i b hb => ?_) fun j hj hnone => ?_
  · have hthere : p.there i.toNat = true := by
      rw [there, UInt16.ofNat_toNat, Keyed.contains, hb]
      rfl
    refine ⟨Nat.lt_succ_of_le (Framed.le_count_of_piece? (h i b hb)), ?_⟩
    show b.length = if p.there i.toNat then ((f.piece? i.toNat).getD []).length else 0
    rw [if_pos hthere, h i b hb]
    rfl
  · refine if_neg ?_
    rw [there, Keyed.contains, hnone _ (toNat_index hcount (Nat.le_of_lt_succ hj))]
    exact Bool.false_ne_true

theorem Gathered.buffered_eq {p : PacketAssembly} {f : Framed} {is : List Nat}
    (h : Gathered f is p) (hcount : f.count ≤ mostBursts) :
    p.buffered = f.share fun i => decide (i ∈ is) := by
  rw [buffered_eq_share hcount fun i b hb => (h.get?_eq_some hb).2]
  refine Framed.share_congr fun i h₁ h₂ => ?_
  obtain ⟨b, hb⟩ := Framed.exists_piece? h₁ h₂
  rw [there, Keyed.contains, h.piece, toNat_index hcount h₂, hb]
  by_cases hi : i ∈ is
  · rw [if_pos hi, decide_eq_true hi]
    rfl
  · rw [if_neg hi, decide_eq_false hi]
    rfl

section
variable {S : Shipment} {n : UInt16} {p : PacketAssembly} {q : Parcel} {k : BurstKind}
  (h : S.supply.Contents n p) (hq : S.parcels[n.toNat]? = some q)
include h hq

theorem buffered_of_contents : p.buffered = q.framed.share p.there :=
  buffered_eq_share (S.sound _ _ hq).count_le fun i b hb =>
    have hdata := Shipment.data_of_has (h.piece i b hb) hq
    Framed.piece?_eq_some.mpr ⟨hdata.1, hdata.2.2⟩

theorem buffered_of_hasAll (hall : p.hasAll = true) : p.buffered = q.framed.packet.length := by
  obtain ⟨q', hq', hbytes⟩ := Shipment.bytes_of_hasAll h hall
  obtain rfl := Option.some.inj (hq.symm.trans hq')
  rw [← hbytes, bytes, List.length_flatten]
  rfl

/-- a burst takes nothing away -/
theorem buffered_le_take (hk : S.Has n k) : p.buffered ≤ (p.take k).buffered := by
  rw [buffered_of_contents h hq,
    buffered_of_contents (Supply.contents_take h hk (Shipment.not_refused h hk)) hq]
  refine Framed.share_mono fun i hi => ?_
  cases k with
  | announce c =>
    rw [take, announce_eq h hk]
    exact hi
  | data j b => exact Keyed.contains_insert_of_contains b hi
  | terminal => exact hi

/-- a burst whose piece is there brings nothing new -/
theorem recorded_of_there {i : Nat} (hi : p.there i = true) (hk : q.framed.kind? i = some k) :
    p.Recorded k := by
  have hmost : q.framed.count ≤ 998 := (S.sound _ _ hq).count_le
  obtain ⟨b, hb⟩ := (Keyed.contains_iff _ _).mp hi
  obtain ⟨h₁, h₂, -⟩ := Shipment.data_of_has (h.piece _ b hb) hq
  rcases Framed.kind?_cases hk with ⟨rfl, -⟩ | ⟨j, b, rfl, -, rfl⟩ | ⟨rfl, -⟩
  · exact absurd h₁ (by decide)
  · exact Or.inr hi
  · rw [UInt16.toNat_ofNat'] at h₂
    omega

end

end PacketAssembly

namespace ProfileAssembly
variable {S : Shipment} {s s' : ProfileAssembly}

theorem buffered_eq_sum (h : Stocked S.supply s) :
    s.buffered = ∑ m ∈ Finset.range S.parcels.length, (s.packet (UInt16.ofNat m)).buffered := by
  refine s.packets.sum_values_eq _ _ _ (fun n p hp => ?_) fun m hm hnone => ?_
  · obtain ⟨k, hk⟩ := h.seen n ((Keyed.contains_iff _ _).mpr ⟨p, hp⟩)
    obtain ⟨q, hq⟩ := S.exists_parcel hk
    refine ⟨(List.getElem?_eq_some_iff.mp hq).1, ?_⟩
    show p.buffered = (s.packet (UInt16.ofNat n.toNat)).buffered
    rw [UInt16.ofNat_toNat, packet, hp]
    rfl
  · have hnumber := (Shipment.toNat_lt (List.getElem?_eq_getElem hm)).2
    rw [packet, hnone _ hnumber]
    rfl

end ProfileAssembly

/-! ## Receivers on the way -/

namespace Receiver
open ProfileAssembly PacketAssembly

theorem Reaches.trans {ws : List Bytes} {r r' r'' : Receiver} (h : Reaches ws r r')
    (h' : Reaches ws r' r'') : Reaches ws r r'' := by
  induction h' with
  | refl => exact h
  | input now _ hw ih => exact ih.input now hw
  | timers now _ ih => exact ih.timers now
  | emit _ ih => exact ih.emit

theorem exists_run_of_reaches {ws : List Bytes} {r r' : Receiver} (h : Reaches ws r r') :
    ∃ acts, r' = r.run acts := by
  have hadd {r' : Receiver} (h : ∃ acts, r' = r.run acts) (a : Act) :
      ∃ acts, r'.act a = r.run acts := by
    obtain ⟨acts, rfl⟩ := h
    exact ⟨acts ++ [a], by rw [run, run, List.foldl_append]; rfl⟩
  induction h with
  | refl => exact ⟨[], rfl⟩
  | @input r' w now _ _ ih => exact hadd ih (.input w now)
  | timers now _ ih => exact hadd ih (.timers now)
  | emit _ ih => exact hadd ih .transmit

/-- a receiver that was new and has been given bursts of the shipment -/
structure Underway (S : Shipment) (rc : ReceiverConfig) (r : Receiver) : Prop where
  tuned : Tuned S.supply r
  limit_le : S.limit ≤ r.reader.mostPayload
  config_eq : r.config = rc
  buffered_le : r.buffered ≤ r.config.mostBuffered
  spent : ∀ n, ((r.assembly S.key).packet n).held = true →
    ((r.assembly S.key).packet n).buffered = 0

variable {S : Shipment} {sc : SenderConfig} {t : Nat} {rc : ReceiverConfig} {start : Nat}
  {r r' : Receiver} {n : UInt16} {k : BurstKind} {q : Parcel}

theorem underway_of_reaches (hl : S.limit ≤ rc.mostPayload)
    (h : Reaches (S.sender sc t).drain.1 (new rc start) r) : Underway S rc r := by
  obtain ⟨ht, hlimit⟩ := tuned_of_reaches S.readable
    (fun w hw => (Sender.mem_drain_new S sc t w).mp hw) (tuned_new S.supply rc start) hl h
  obtain ⟨acts, rfl⟩ := exists_run_of_reaches h
  refine ⟨ht, hlimit, config_run rc start acts,
    (course_run _ acts).room (sound_new rc start) (Nat.zero_le _), fun n hheld => ?_⟩
  obtain ⟨as, htold, -⟩ := told_run rc start acts ⟨S.key, n⟩
  have hpieces := htold.pieces hheld
  rw [PacketAssembly.buffered]
  exact congrArg (fun m : Keyed UInt16 Bytes => (m.values.map List.length).sum) hpieces

theorem Tuned.contents (h : Tuned S.supply r) (n : UInt16) :
    S.supply.Contents n ((r.assembly S.key).packet n) := h.stocked.contents n

theorem Underway.buffered_eq (hu : Underway S rc r) :
    r.buffered = ∑ m ∈ Finset.range S.parcels.length,
      ((r.assembly S.key).packet (UInt16.ofNat m)).buffered :=
  (buffered_of_tuned hu.tuned).trans (buffered_eq_sum hu.tuned.stocked)

/-- what a burst of packet `n` adds to what is kept, it adds to the packet -/
theorem buffered_handleBurst (h : Tuned S.supply r) (hk : S.Has n k) (now : Nat)
    (hroom : r.lacksRoom k = false) :
    (handleBurst now r ⟨⟨S.key, n⟩, k⟩).buffered + ((r.assembly S.key).packet n).buffered =
      r.buffered + (((r.assembly S.key).packet n).receive n k).1.buffered := by
  have hassembly : (handleBurst now r ⟨⟨S.key, n⟩, k⟩).assembly S.key =
      ((r.assembly S.key).apply n k).1 := by
    rw [handleBurst_eq, if_neg (by rw [hroom]; exact Bool.false_ne_true)]
    exact assembly_update _ _ _
  have hold : r.buffered = (r.assembly S.key).buffered := buffered_of_tuned h
  have hnew : (handleBurst now r ⟨⟨S.key, n⟩, k⟩).buffered = _ :=
    buffered_of_tuned (tuned_handleBurst h hk now)
  have hpacket := (handleBurst_of_room h hk now hroom).1.packet_eq
  have hidle : Idle (r.assembly S.key) := h.idle
  have hsum := (apply_slot hidle n k).1.buffered
  rw [← hassembly, hpacket] at hsum
  rw [hnew, hold]
  exact hsum

theorem handleInput_render (h : Tuned S.supply r) (hl : S.limit ≤ r.reader.mostPayload)
    (hq : S.parcels[n.toNat]? = some q) {i : Nat} (hk : q.framed.kind? i = some k) (now : Nat) :
    r.handleInput ((q.framed.render? i).getD []) now = handleBurst now r ⟨⟨S.key, n⟩, k⟩ := by
  rw [Framed.render?_eq hk, Option.getD_some, Shipment.key_of_parcel hq]
  exact handleInput_burst h hl ⟨q, i, hq, hk⟩ now

end Receiver

end Shoreline
