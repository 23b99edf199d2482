import Shoreline.Proofs.Reception
import Shoreline.Proofs.Shipment

/-!
# Delivering a shipment

When all that comes belongs to one shipment, the packets of an assembly do not concern each other.
What a burst does to its packet, and what asking for a packet does, depend on what is there of this
packet alone (`receive`, `pursue`), for a packet that is all there always decodes.

* `Shipment.eq_of_yields`       an assembly can hold nothing but the shipment's packets;
* `ProfileAssembly.apply_eq`    a burst acts on its own packet;
* `ProfileAssembly.pursue_eq`   and so does asking for a packet;
* `Receiver.lacksRoom_eq_false` there is room for a piece that is not there yet.
-/

namespace Shoreline

/-! ## One packet by itself -/

namespace PacketAssembly

/-- what is asked for of an open packet: the missing pieces, or all of it before it is announced -/
def request (p : PacketAssembly) (n : UInt16) : List Answer :=
  if p.announced.isSome then p.missing.map (.wantsBurst n) else [.wantsAll n]

/-- what a burst does to packet `n`, if its pieces decode -/
def receive (p : PacketAssembly) (n : UInt16) (k : BurstKind) : PacketAssembly × List Answer :=
  if p.held then (p, if k = .terminal then [.stillHeld n] else [])
  else if (p.take k).ready then ((p.take k).hold, [.rebuilt n])
  else (p.take k, if k = .terminal then (p.take k).request n else [])

/-- what asking for packet `n` does, if its pieces decode -/
def pursue (p : PacketAssembly) (n : UInt16) : PacketAssembly × List Answer :=
  if p.held then (p, [])
  else if p.hasAll then (p.hold, [.rebuilt n])
  else (p, p.request n)

end PacketAssembly

/-! ## What a shipment supplies -/

namespace Shipment

theorem data_of_has {S : Shipment} {n i : UInt16} {b : Bytes} {p : Parcel}
    (h : S.Has n (.data i b)) (hp : S.parcels[n.toNat]? = some p) :
    1 ≤ i.toNat ∧ i.toNat ≤ p.framed.count ∧ p.framed.pieces[i.toNat - 1]? = some b := by
  obtain ⟨p', j, hp', hk⟩ := h
  obtain rfl : p' = p := Option.some.inj (hp'.symm.trans hp)
  have hcount : p'.framed.pieces.length ≤ 998 := (S.sound _ _ hp).count_le
  rcases Framed.kind?_cases hk with ⟨-, he⟩ | ⟨j, b', -, hb, he⟩ | ⟨-, he⟩
  · exact absurd he (by simp)
  · obtain ⟨rfl, rfl⟩ := BurstKind.data.inj he
    obtain ⟨hj, -⟩ := List.getElem?_eq_some_iff.mp hb
    have hi : (UInt16.ofNat (j + 1)).toNat = j + 1 := by
      rw [UInt16.toNat_ofNat']
      omega
    rw [hi]
    exact ⟨Nat.succ_pos j, hj, hb⟩
  · exact absurd he (by simp)

theorem announce_of_has {S : Shipment} {n c : UInt16} {p : Parcel}
    (h : S.Has n (.announce c)) (hp : S.parcels[n.toNat]? = some p) :
    c.toNat = p.framed.count := by
  obtain ⟨p', j, hp', hk⟩ := h
  obtain rfl : p' = p := Option.some.inj (hp'.symm.trans hp)
  have hcount : p'.framed.count ≤ 998 := (S.sound _ _ hp).count_le
  rcases Framed.kind?_cases hk with ⟨-, he⟩ | ⟨j, b', -, -, he⟩ | ⟨-, he⟩
  · rw [BurstKind.announce.inj he, UInt16.toNat_ofNat']
    omega
  · exact absurd he (by simp)
  · exact absurd he (by simp)

theorem exists_parcel {S : Shipment} {n : UInt16} {k : BurstKind} (h : S.Has n k) :
    ∃ p, S.parcels[n.toNat]? = some p := by
  obtain ⟨p, -, hp, -⟩ := h
  exact ⟨p, hp⟩

def supply (S : Shipment) : Supply where
  key := S.key
  Has := S.Has
  index_ne_zero := by
    intro n i b h
    obtain ⟨p, hp⟩ := S.exists_parcel h
    rintro rfl
    exact absurd (data_of_has h hp).1 (by decide)

theorem readable (S : Shipment) : S.supply.Readable S.limit :=
  ⟨fun h => (fits h).1, fun h => (fits h).2⟩

/-- all announced pieces together are the parcel's packet -/
theorem flatten_eq {S : Shipment} {n : UInt16} {pieces : List Bytes} {p : Parcel}
    (hp : S.parcels[n.toNat]? = some p) (hlt : pieces.length < 65536)
    (ha : S.Has n (.announce (UInt16.ofNat pieces.length)))
    (hd : ∀ (i : Nat) b, pieces[i]? = some b → S.Has n (.data (UInt16.ofNat (i + 1)) b)) :
    pieces.flatten = p.framed.packet := by
  have hlen := announce_of_has ha hp
  rw [UInt16.toNat_ofNat', Nat.mod_eq_of_lt hlt] at hlen
  have hcount : p.framed.count ≤ 998 := (S.sound _ _ hp).count_le
  rw [Framed.packet]
  congr 1
  apply List.ext_getElem?
  intro i
  cases hi : pieces[i]? with
  | none =>
    rw [List.getElem?_eq_none_iff] at hi
    exact (List.getElem?_eq_none (Nat.le_trans (Nat.le_of_eq hlen.symm) hi)).symm
  | some b =>
    obtain ⟨hil, -⟩ := List.getElem?_eq_some_iff.mp hi
    have hindex : (UInt16.ofNat (i + 1)).toNat = i + 1 := by
      rw [UInt16.toNat_ofNat']
      omega
    have := (data_of_has (hd i b hi) hp).2.2
    rw [hindex, Nat.add_sub_cancel] at this
    exact this.symm

/-- nothing but the content of a parcel comes out of its bursts -/
theorem eq_of_yields {S : Shipment} {n : UInt16} {q : Packet} (h : S.supply.Yields n q) :
    ∃ p, S.parcels[n.toNat]? = some p ∧ q = p.content := by
  obtain ⟨pieces, hlt, ha, hd, hq, -⟩ := h
  obtain ⟨p, hp⟩ := S.exists_parcel ha
  refine ⟨p, hp, ?_⟩
  rw [flatten_eq hp hlt ha hd, (S.sound _ _ hp).decode_eq] at hq
  exact (Except.ok.inj hq).symm

end Shipment

/-! ## What is there of a packet -/

section
variable {S : Shipment} {n : UInt16} {p : PacketAssembly}

theorem Shipment.bytes_of_hasAll (h : S.supply.Contents n p) (hall : p.hasAll = true) :
    ∃ q : Parcel, S.parcels[n.toNat]? = some q ∧ p.bytes = q.framed.packet := by
  obtain ⟨c, hc⟩ := PacketAssembly.announced_of_hasAll hall
  obtain ⟨q, hq⟩ := S.exists_parcel (h.announced c hc)
  obtain ⟨pieces, hlen, hbytes, hget⟩ := Supply.exists_pieces h hc hall
  have ha : S.Has n (.announce (UInt16.ofNat pieces.length)) := by
    rw [hlen, UInt16.ofNat_toNat]
    exact h.announced c hc
  exact ⟨q, hq, hbytes.trans (Shipment.flatten_eq hq (hlen ▸ c.toNat_lt) ha
    fun i b hb => h.piece _ b (hget i b hb))⟩

theorem Shipment.decode_of_hasAll (h : S.supply.Contents n p) (hall : p.hasAll = true) :
    ∃ q : Parcel, S.parcels[n.toNat]? = some q ∧ Packet.decode p.bytes = .ok q.content ∧
      q.content.key = { S.key with packet := n } := by
  obtain ⟨q, hq, hbytes⟩ := Shipment.bytes_of_hasAll h hall
  have hsound := S.sound _ _ hq
  refine ⟨q, hq, hbytes ▸ hsound.decode_eq, ?_⟩
  rw [hsound.content_key, hsound.key_eq, UInt16.ofNat_toNat]

theorem Shipment.not_refused (h : S.supply.Contents n p) {k : BurstKind} (hk : S.Has n k) :
    p.refuses k = false := by
  cases k with
  | announce c => rfl
  | terminal => rfl
  | data i b =>
    cases hc : p.announced with
    | none => rw [PacketAssembly.refuses, hc, Option.any_none]
    | some c =>
      obtain ⟨q, hq⟩ := S.exists_parcel hk
      have h₁ := Shipment.announce_of_has (h.announced c hc) hq
      have h₂ := (Shipment.data_of_has hk hq).2.1
      rw [PacketAssembly.refuses, hc, Option.any_some, decide_eq_false_iff_not,
        UInt16.lt_iff_toNat_lt]
      omega

theorem PacketAssembly.buffered_data {i : UInt16} (b : Bytes)
    (hnot : p.pieces.contains i = false) :
    (p.take (.data i b)).buffered = p.buffered + b.length := by
  have hsum := Keyed.sum_insert p.pieces List.length i b
  rw [Keyed.contains, Option.isSome_eq_false_iff, Option.isNone_iff_eq_none] at hnot
  rwa [hnot] at hsum

end

/-! ## An assembly, packet by packet -/

namespace ProfileAssembly

/-- packet `n` has become `p`, and the others are as they were -/
structure Replaces (s s' : ProfileAssembly) (n : UInt16) (p : PacketAssembly) : Prop where
  packet_eq : s'.packet n = p
  packet_ne : ∀ m, m ≠ n → s'.packet m = s.packet m

theorem replaces_self (s : ProfileAssembly) (n : UInt16) : Replaces s s n (s.packet n) :=
  ⟨rfl, fun _ _ => rfl⟩

theorem replaces_put (s : ProfileAssembly) (n : UInt16) (p : PacketAssembly) :
    Replaces s (s.put n p) n p :=
  ⟨s.packet_put n p, fun _ hm => s.packet_put_ne n hm p⟩

theorem replaces_store (s : ProfileAssembly) (n : UInt16) (q : Packet) :
    Replaces s (s.store n q) n (s.packet n).hold :=
  ⟨s.packet_store n q, fun _ hm => s.packet_store_ne n hm q⟩

theorem Replaces.trans {s s' s'' : ProfileAssembly} {n : UInt16} {p q : PacketAssembly}
    (h : Replaces s s' n p) (h' : Replaces s' s'' n q) : Replaces s s'' n q :=
  ⟨h'.packet_eq, fun m hm => (h'.packet_ne m hm).trans (h.packet_ne m hm)⟩

variable {S : Shipment} {s : ProfileAssembly} {n : UInt16}

theorem rebuild_eq (h : Stocked S.supply s) (hall : (s.packet n).hasAll = true) :
    Replaces s (s.rebuild n).1 n (s.packet n).hold ∧ (s.rebuild n).2 = .rebuilt n := by
  obtain ⟨q, -, hdecode, hkey⟩ := Shipment.decode_of_hasAll (h.contents n) hall
  have hsome : s.decoded? n = some q.content := by
    rw [decoded?, hdecode]
    exact if_pos (by rw [hkey, h.key_eq]; rfl)
  rw [rebuild_of_some s n hsome]
  exact ⟨replaces_store s n q.content, rfl⟩

theorem apply_eq (h : Stocked S.supply s) (hi : Idle s) {k : BurstKind} (hk : S.Has n k) :
    Replaces s (s.apply n k).1 n ((s.packet n).receive n k).1 ∧
      (s.apply n k).2 = ((s.packet n).receive n k).2 := by
  cases hheld : (s.packet n).held with
  | true =>
    rw [apply_of_held hheld, PacketAssembly.receive, if_pos hheld]
    exact ⟨replaces_self s n, rfl⟩
  | false =>
    have hr := Shipment.not_refused (h.contents n) hk
    have hput := replaces_put s n ((s.packet n).take k)
    rw [apply_of_open hi hheld hr, PacketAssembly.receive, hheld, if_neg Bool.false_ne_true]
    split
    · next hready =>
      have hstocked : Stocked S.supply (s.put n ((s.packet n).take k)) :=
        stocked_put h (Supply.contents_take (h.contents n) hk hr)
          (PacketAssembly.held_take _ _) ⟨k, hk⟩
      obtain ⟨hrep, ha⟩ := rebuild_eq (n := n) hstocked (by
        rw [packet_put]
        exact hasAll_of_ready hready)
      rw [packet_put] at hrep
      exact ⟨hput.trans hrep, congrArg (fun a => [a]) ha⟩
    · refine ⟨hput, ?_⟩
      cases k with
      | announce c => rfl
      | data i b => rfl
      | terminal =>
        show request _ _ = _
        rw [request_of_open (by rw [packet_put, PacketAssembly.held_take, hheld]), packet_put,
          if_pos rfl]
        rfl

theorem pursue_eq (h : Stocked S.supply s) (hi : Idle s) (n : UInt16) :
    Replaces s (s.pursue n).1 n ((s.packet n).pursue n).1 ∧
      (s.pursue n).2 = ((s.packet n).pursue n).2 := by
  cases hheld : (s.packet n).held with
  | true =>
    rw [pursue_of_not_hasAll (Or.inr hheld), request_of_held hheld, PacketAssembly.pursue,
      if_pos hheld]
    exact ⟨replaces_self s n, rfl⟩
  | false =>
    cases hall : (s.packet n).hasAll with
    | true =>
      obtain ⟨hrep, ha⟩ := rebuild_eq h hall
      rw [pursue_of_hasAll hi hheld hall, PacketAssembly.pursue, hheld, if_neg Bool.false_ne_true,
        if_pos hall]
      exact ⟨hrep, congrArg (fun a => [a]) ha⟩
    | false =>
      rw [pursue_of_not_hasAll (Or.inl ⟨hheld, hall⟩), request_of_open hheld,
        PacketAssembly.pursue, hheld, if_neg Bool.false_ne_true, hall, if_neg Bool.false_ne_true]
      exact ⟨replaces_self s n, rfl⟩

/-! ## What was rebuilt -/

theorem eq_content_of_stores (h : Stocked S.supply s) {q : Packet} (hq : s.Stores n q) :
    ∃ p, S.parcels[n.toNat]? = some p ∧ q = p.content :=
  Shipment.eq_of_yields (h.stores n q hq)

theorem info_eq (h : Stocked S.supply s) {p : InfoPacket} (hp : s.received.info = some p) :
    p = S.info := by
  obtain ⟨q, hq, he⟩ := eq_content_of_stores h (n := 0) (q := .info p) ⟨rfl, hp⟩
  rw [S.info_eq q hq] at he
  exact Packet.info.inj he

theorem info_of_held (h : Stocked S.supply s) (h0 : (s.packet 0).held = true) :
    s.received.info = some S.info := by
  obtain ⟨q, hq⟩ := (h.held_iff 0).mp h0
  cases q with
  | info p => rw [hq.2, info_eq h hq.2]
  | data p => exact absurd (h.stores 0 _ hq) Supply.Yields.not_data_zero

theorem contains_data_iff (h : Stocked S.supply s) (hn : n ≠ 0) :
    s.received.data.contains n = true ↔ (s.packet n).held = true := by
  rw [h.held_iff, Keyed.contains_iff]
  constructor
  · rintro ⟨d, hd⟩
    exact ⟨.data d, hd⟩
  · rintro ⟨q, hq⟩
    cases q with
    | info p => exact absurd hq.1 hn
    | data d => exact ⟨d, hq⟩

theorem mem_parcels_iff {S : Shipment} (n : UInt16) :
    (∃ q, S.parcels[n.toNat]? = some q) ↔ n.toNat ≤ S.info.definition.total := by
  have hlen := S.length_eq
  constructor
  · rintro ⟨q, hq⟩
    have := (List.getElem?_eq_some_iff.mp hq).1
    omega
  · intro hle
    exact ⟨_, List.getElem?_eq_getElem (by omega)⟩

/-- the Data Packets missing, once their number is known -/
theorem mem_missing_iff (h : Stocked S.supply s) (hinfo : s.received.info = some S.info) :
    n ∈ s.received.missing ↔
      n ≠ 0 ∧ (∃ q, S.parcels[n.toNat]? = some q) ∧ (s.packet n).held = false := by
  rw [ReceivedProfile.missing, ReceivedProfile.expected?, hinfo, List.mem_filter, mem_numbersTo,
    mem_parcels_iff]
  have hpos : 1 ≤ n.toNat ↔ n ≠ 0 := by
    rw [Nat.one_le_iff_ne_zero, Ne, Ne, ← UInt16.toNat_inj]
    rfl
  rw [hpos, Option.map_some, Option.getD_some]
  constructor
  · rintro ⟨⟨h0, hle⟩, hc⟩
    rw [Bool.not_eq_true', Bool.eq_false_iff, Ne, contains_data_iff h h0] at hc
    exact ⟨h0, hle, Bool.eq_false_iff.mpr hc⟩
  · rintro ⟨h0, hle, hheld⟩
    refine ⟨⟨h0, hle⟩, ?_⟩
    rw [Bool.not_eq_true', Bool.eq_false_iff, Ne, contains_data_iff h h0, hheld]
    exact Bool.false_ne_true

theorem isComplete_iff (h : Stocked S.supply s) :
    s.isComplete = true ↔
      ∀ (n : UInt16) q, S.parcels[n.toNat]? = some q → (s.packet n).held = true := by
  rw [isComplete, ReceivedProfile.isComplete, Bool.and_eq_true, List.isEmpty_iff,
    List.eq_nil_iff_forall_not_mem]
  constructor
  · rintro ⟨hsome, hmissing⟩ n q hq
    obtain ⟨p, hp⟩ := Option.isSome_iff_exists.mp hsome
    obtain rfl := info_eq h hp
    by_cases hn : n = 0
    · exact (h.held_iff n).mpr ⟨.info S.info, hn, hp⟩
    · cases hheld : (s.packet n).held with
      | true => rfl
      | false => exact absurd ((mem_missing_iff h hp).mpr ⟨hn, ⟨q, hq⟩, hheld⟩) (hmissing n)
  · intro hall
    have hinfo : s.received.info = some S.info := by
      obtain ⟨q, hq⟩ := (mem_parcels_iff (S := S) 0).mpr (Nat.zero_le _)
      exact info_of_held h (hall 0 q hq)
    refine ⟨by rw [hinfo]; rfl, fun n hn => ?_⟩
    obtain ⟨-, ⟨q, hq⟩, hopen⟩ := (mem_missing_iff h hinfo).mp hn
    rw [hall n q hq] at hopen
    exact absurd hopen (by simp)

theorem parcel_of_outstanding (h : Stocked S.supply s) (hn : n ∈ s.outstanding) :
    ∃ q, S.parcels[n.toNat]? = some q := by
  rw [outstanding, List.mem_append, List.mem_append] at hn
  rcases hn with (hfirst | hseen) | hmissing
  · split at hfirst
    · exact absurd hfirst (by simp)
    · rw [List.mem_singleton.mp hfirst]
      exact (mem_parcels_iff 0).mpr (Nat.zero_le _)
  · obtain ⟨p, hp⟩ := (Keyed.contains_iff _ _).mp ((Keyed.mem_keys_iff _ _).mp hseen)
    rw [Keyed.get?_filter, Option.filter_eq_some_iff] at hp
    obtain ⟨k, hk⟩ := h.seen n ((Keyed.contains_iff _ _).mpr ⟨p, hp.1⟩)
    exact S.exists_parcel hk
  · have hmem := (List.mem_filter.mp hmissing).1
    cases hinfo : s.received.info with
    | none =>
      rw [ReceivedProfile.missing, ReceivedProfile.expected?, hinfo, List.mem_filter,
        mem_numbersTo] at hmem
      exact absurd (Nat.le_trans hmem.1.1 hmem.1.2) (by decide)
    | some p =>
      obtain rfl := info_eq h hinfo
      exact ((mem_missing_iff h hinfo).mp hmem).2.1

/-- an open packet is asked for when it was seen, when it is the Info Packet, and when it is known how
many there are -/
theorem mem_outstanding (h : Stocked S.supply s) {q : Parcel} (hq : S.parcels[n.toNat]? = some q)
    (hopen : (s.packet n).held = false)
    (hknown : s.packets.contains n = true ∨ n = 0 ∨ s.received.info.isSome = true) :
    n ∈ s.outstanding := by
  rw [outstanding, List.mem_append, List.mem_append]
  cases hc : s.packets.contains n with
  | true =>
    refine Or.inl (Or.inr ((Keyed.mem_keys_iff _ _).mpr
      ((Keyed.contains_iff _ _).mpr ⟨s.packet n, ?_⟩)))
    rw [Keyed.get?_filter, get?_of_contains s n hc, Option.filter_eq_some_iff]
    exact ⟨rfl, by rw [hopen]; rfl⟩
  | false =>
    by_cases hn : n = 0
    · subst hn
      rw [hc]
      exact Or.inl (Or.inl (List.mem_singleton.mpr rfl))
    · rcases hknown with hseen | hzero | hinfo
      · rw [hc] at hseen
        exact absurd hseen Bool.false_ne_true
      · exact absurd hzero hn
      · obtain ⟨p, hp⟩ := Option.isSome_iff_exists.mp hinfo
        obtain rfl := info_eq h hp
        refine Or.inr (List.mem_filter.mpr ⟨(mem_missing_iff h hp).mpr ⟨hn, ⟨q, hq⟩, hopen⟩, ?_⟩)
        rw [hc]
        rfl

/-! ## Room -/

/-- pieces of a list, each under its index counted from 1, have no more bytes than the list -/
theorem buffered_le_of_pieces {p : PacketAssembly} {pieces : List Bytes}
    (h : ∀ i b, p.pieces.get? i = some b → 1 ≤ i.toNat ∧ pieces[i.toNat - 1]? = some b) :
    p.buffered ≤ pieces.flatten.length := by
  have hsum : ((List.range (pieces.length + 1)).map fun i =>
      if i = 0 then 0 else (pieces[i - 1]?.map List.length).getD 0).sum =
        pieces.flatten.length := by
    rw [List.range_succ_eq_map, List.map_cons, List.sum_cons, if_pos rfl, Nat.zero_add,
      List.map_map, List.length_flatten]
    exact congrArg List.sum (map_range_getElem? (fun o => (o.map List.length).getD 0) pieces)
  rw [PacketAssembly.buffered, ← hsum]
  apply Keyed.sum_values_le _ _ _ _
  intro i b hb
  obtain ⟨h₁, h₂⟩ := h i b hb
  have hlt := (List.getElem?_eq_some_iff.mp h₂).1
  refine ⟨show i.toNat < _ by omega, ?_⟩
  show b.length ≤ if i.toNat = 0 then 0 else (pieces[i.toNat - 1]?.map List.length).getD 0
  rw [if_neg (by omega), h₂]
  exact Nat.le_refl _

theorem buffered_le_of_contents {p : PacketAssembly} {q : Parcel} (h : S.supply.Contents n p)
    (hq : S.parcels[n.toNat]? = some q) : p.buffered ≤ q.framed.packet.length :=
  buffered_le_of_pieces fun i b hb =>
    have hdata := Shipment.data_of_has (h.piece i b hb) hq
    ⟨hdata.1, hdata.2.2⟩

theorem buffered_le (h : Stocked S.supply s) :
    s.buffered ≤ (S.parcels.map fun p => p.framed.packet.length).sum := by
  have htotal : ((List.range S.parcels.length).map fun i =>
      (S.parcels[i]?.map fun p => p.framed.packet.length).getD 0).sum =
        (S.parcels.map fun p => p.framed.packet.length).sum :=
    congrArg List.sum (map_range_getElem?
      (fun o => (o.map fun p : Parcel => p.framed.packet.length).getD 0) S.parcels)
  rw [← htotal]
  apply Keyed.sum_values_le _ _ _ _
  intro m p hp
  have hpacket : s.packet m = p := by
    rw [packet, hp]
    rfl
  obtain ⟨k, hk⟩ := h.seen m ((Keyed.contains_iff _ _).mpr ⟨p, hp⟩)
  obtain ⟨q, hq⟩ := S.exists_parcel hk
  refine ⟨(List.getElem?_eq_some_iff.mp hq).1, ?_⟩
  show p.buffered ≤ (S.parcels[m.toNat]?.map _).getD 0
  rw [hq]
  exact buffered_le_of_contents (hpacket ▸ h.contents m) hq

theorem buffered_put (s : ProfileAssembly) (n : UInt16) (p : PacketAssembly) :
    (s.put n p).buffered + (s.packet n).buffered = s.buffered + p.buffered := by
  have hold : ((s.packets.get? n).map PacketAssembly.buffered).getD 0 = (s.packet n).buffered := by
    rw [packet]
    cases s.packets.get? n <;> rfl
  have hsum := Keyed.sum_insert s.packets PacketAssembly.buffered n p
  rwa [hold] at hsum

/-- there is room in the shipment's total for a piece that is not there yet -/
theorem buffered_add_le (h : Stocked S.supply s) {i : UInt16} {b : Bytes}
    (hk : S.Has n (.data i b)) (hnot : (s.packet n).pieces.contains i = false) :
    s.buffered + b.length ≤ (S.parcels.map fun p => p.framed.packet.length).sum := by
  have hr := Shipment.not_refused (h.contents n) hk
  have hput : Stocked S.supply (s.put n ((s.packet n).take (.data i b))) :=
    stocked_put h (Supply.contents_take (h.contents n) hk hr) rfl ⟨_, hk⟩
  have hpiece := PacketAssembly.buffered_data b hnot
  have hsum := s.buffered_put n ((s.packet n).take (.data i b))
  have hle := buffered_le hput
  omega

end ProfileAssembly

/-! ## A receiver -/

namespace Receiver
open ProfileAssembly

variable {S : Shipment} {r : Receiver} {n : UInt16} {k : BurstKind}

theorem buffered_of_tuned {u : Supply} (h : Tuned u r) :
    r.buffered = (r.assembly u.key).buffered := by
  rw [buffered, Keyed.values]
  rcases h.solo with hnil | ⟨s, hs⟩
  · rw [assembly_of_nil hnil, hnil]
    rfl
  · rw [assembly_of_solo hs, hs]
    exact Nat.add_zero _

/-- there is room for a piece that is not there yet -/
theorem lacksRoom_eq_false (h : Tuned S.supply r)
    (hroom : (S.parcels.map fun p => p.framed.packet.length).sum ≤ r.config.mostBuffered)
    (hk : S.Has n k)
    (hnot : ∀ i b, k = .data i b → ((r.assembly S.key).packet n).pieces.contains i = false) :
    r.lacksRoom k = false := by
  cases k with
  | announce c => rfl
  | terminal => rfl
  | data i b =>
    have hle : (r.assembly S.key).buffered + b.length ≤ _ :=
      buffered_add_le h.stocked hk (hnot i b rfl)
    rw [lacksRoom, buffered_of_tuned h, decide_eq_false_iff_not, Nat.not_lt]
    exact Nat.le_trans hle hroom

/-- what a burst of the shipment leaves in the assembly and what it adds to the outbox -/
theorem handleBurst_of_room (h : Tuned S.supply r) (hk : S.Has n k) (now : Nat)
    (hroom : r.lacksRoom k = false) :
    Replaces (r.assembly S.key) ((handleBurst now r ⟨⟨S.key, n⟩, k⟩).assembly S.key) n
        (((r.assembly S.key).packet n).receive n k).1 ∧
      (handleBurst now r ⟨⟨S.key, n⟩, k⟩).outbox =
        r.outbox ++ (((r.assembly S.key).packet n).receive n k).2.map
          fun a => .control (a.line S.key) := by
  obtain ⟨hrep, hanswers⟩ := apply_eq h.stocked h.idle hk
  rw [handleBurst_eq, if_neg (by rw [hroom]; exact Bool.false_ne_true)]
  refine ⟨?_, ?_⟩
  · show Replaces _ ((update _ S.key _).assembly S.key) n _
    rw [assembly_update]
    exact hrep
  · exact congrArg (fun as => r.outbox ++ as.map fun a => .control (a.line S.key)) hanswers

theorem handleInput_burst (h : Tuned S.supply r) (hl : S.limit ≤ r.reader.mostPayload)
    (hk : S.Has n k) (now : Nat) :
    r.handleInput (Burst.wire ⟨⟨S.key, n⟩, k⟩) now = handleBurst now r ⟨⟨S.key, n⟩, k⟩ :=
  handleInput_wire S.readable h.buffer hl hk now

theorem handleBurst_of_lacksRoom {b : Burst} (now : Nat) (hroom : r.lacksRoom b.kind = true) :
    handleBurst now r b = { r with burstsReceived := r.burstsReceived + 1, lastBurst := now } := by
  rw [handleBurst_eq, if_pos hroom]

end Receiver

end Shoreline
