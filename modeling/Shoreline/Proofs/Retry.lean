import Shoreline.Proofs.Agreement
import Shoreline.Proofs.Replies

/-!
# Retried transfers

A profile is sent once, and then again under other instructions, to a receiver that still has what
came of it before.  What a packet is put together from can come from both attempts (`Mixed`): the
number of bursts is announced by one of them, and each piece is that of the one or of the other.
Nothing else is ever held, and whatever decodes among it can be held.  So the payloads are those of
one of the attempts exactly when no such mixture decodes to anything else.

* `mixed_of_yields`    what is held is a mixture;
* `stores_of_mixed`    a mixture that decodes can be held;
* `retried_payloads_rounded_iff`   both together;
* `retried_cast_mixed` attempts that do mix.
-/

namespace Shoreline

/-! ## What a receiver may become -/

namespace Receiver

/-- what can become of a receiver that is given these bursts only, as often and in whatever order one
likes -/
inductive Reaches (ws : List Bytes) (r : Receiver) : Receiver → Prop where
  | refl : Reaches ws r r
  | input {r' : Receiver} {w : Bytes} (now : Nat) :
    Reaches ws r r' → w ∈ ws → Reaches ws r (r'.handleInput w now)
  | timers {r' : Receiver} (now : Nat) : Reaches ws r r' → Reaches ws r (r'.pollTimers now)
  | emit {r' : Receiver} : Reaches ws r r' → Reaches ws r r'.emit?.2

variable {u : Supply} {limit : Nat} {ws : List Bytes} {r r' : Receiver}

theorem tuned_of_reaches (hu : u.Readable limit)
    (hws : ∀ w ∈ ws, ∃ n k, u.Has n k ∧ w = Burst.wire ⟨⟨u.key, n⟩, k⟩) (h : Tuned u r)
    (hl : limit ≤ r.reader.mostPayload) (hr : Reaches ws r r') :
    Tuned u r' ∧ limit ≤ r'.reader.mostPayload := by
  induction hr with
  | refl => exact ⟨h, hl⟩
  | input now _ hw ih =>
    obtain ⟨n, k, hk, rfl⟩ := hws _ hw
    obtain ⟨ht, hreader⟩ := tuned_handleInput hu ih.1 ih.2 hk now
    exact ⟨ht, hreader ▸ ih.2⟩
  | timers now _ ih =>
    exact ⟨tuned_pollTimers ih.1 now, by rw [reader_pollTimers_of_tuned ih.1]; exact ih.2⟩
  | emit _ ih => exact ⟨tuned_emit? ih.1, by rw [reader_emit?]; exact ih.2⟩

theorem reaches_takeAll {ws' : List Bytes} (hws : ∀ w ∈ ws', w ∈ ws) (h : Reaches ws r r')
    (now : Nat) : Reaches ws r (r'.takeAll ws' now) := by
  induction ws' generalizing r' with
  | nil => exact h
  | cons w ws' ih =>
    rw [takeAll, List.foldl_cons]
    exact ih (fun w' hw' => hws w' (List.mem_cons_of_mem _ hw'))
      (h.input now (hws w List.mem_cons_self))

end Receiver

/-! ## Two shipments of one profile -/

theorem Sender.mem_drain_new (S : Shipment) (sc : SenderConfig) (t : Nat) (w : Bytes) :
    w ∈ (S.sender sc t).drain.1 ↔
      ∃ n k, S.Has n k ∧ w = Burst.wire ⟨⟨S.key, n⟩, k⟩ := by
  have hships := ships_new S sc t
  rw [(drain_spec _ hships.exists_tabled).1 w]
  constructor
  · exact hships.burst_of_awaits
  · rintro ⟨n, k, ⟨p, i, hp, hk⟩, rfl⟩
    have hn := (Shipment.toNat_lt hp).2
    refine ⟨n.toNat, .new p.framed, i, k, Shipment.packet_sender.mpr ⟨p, hp, rfl⟩, ?_, hk, ?_⟩
    · exact BurstTable.unsent_new.mpr (Framed.lt_of_kind? hk)
    · show _ = Burst.wire ⟨p.framed.key, k⟩
      rw [Shipment.key_of_parcel hp]

namespace Shipment

def either (S S' : Shipment) : Supply where
  key := S.key
  Has n k := S.Has n k ∨ S'.Has n k
  index_ne_zero h := h.elim S.supply.index_ne_zero S'.supply.index_ne_zero

variable {S S' : Shipment}

theorem readable_either (hkey : S'.key = S.key) :
    (S.either S').Readable (max S.limit S'.limit) where
  fits := by
    rintro n k (h | h)
    · exact (fits h).1
    · have := (fits h).1
      rwa [hkey] at this
  payload := by
    rintro n k (h | h)
    · exact Nat.le_trans (fits h).2 (Nat.le_max_left _ _)
    · exact Nat.le_trans (fits h).2 (Nat.le_max_right _ _)

theorem exists_parcels (hlen : S'.parcels.length = S.parcels.length) {n : UInt16}
    {k : BurstKind} (h : (S.either S').Has n k) :
    ∃ p p', S.parcels[n.toNat]? = some p ∧ S'.parcels[n.toNat]? = some p' := by
  have hlt : n.toNat < S.parcels.length := by
    rcases h with h | h
    · obtain ⟨p, hp⟩ := S.exists_parcel h
      exact (List.getElem?_eq_some_iff.mp hp).1
    · obtain ⟨p, hp⟩ := S'.exists_parcel h
      exact hlen ▸ (List.getElem?_eq_some_iff.mp hp).1
  exact ⟨_, _, List.getElem?_eq_getElem hlt, List.getElem?_eq_getElem (hlen ▸ hlt)⟩

end Shipment

/-! ## Mixtures -/

def Framed.kinds (f : Framed) : List BurstKind := (List.range (f.count + 2)).filterMap f.kind?

theorem Framed.mem_kinds {f : Framed} {k : BurstKind} : k ∈ f.kinds ↔ ∃ i, f.kind? i = some k := by
  rw [kinds, List.mem_filterMap]
  constructor
  · rintro ⟨i, -, hi⟩
    exact ⟨i, hi⟩
  · rintro ⟨i, hi⟩
    exact ⟨i, List.mem_range.mpr (lt_of_kind? hi), hi⟩

/-- as many pieces as one of two framed packets has, each of them a piece of the one or the other -/
structure Framed.Mixes (f g : Framed) (pieces : List Bytes) : Prop where
  count : pieces.length = f.count ∨ pieces.length = g.count
  piece : ∀ (i : Nat) b, pieces[i]? = some b → f.pieces[i]? = some b ∨ g.pieces[i]? = some b

/-- pieces of packet `n` of both senders that decode to the Data Packet `d` -/
def Sender.Mixed (s s' : Sender) (n : UInt16) (d : DataPacket) : Prop :=
  ∃ (x y : Outbound) (pieces : List Bytes),
    s.packets[n.toNat]? = some x ∧ s'.packets[n.toNat]? = some y ∧
    x.framed.Mixes y.framed pieces ∧ Packet.decode pieces.flatten = .ok (.data d) ∧
    (Packet.data d).key = { s.key with packet := n }

namespace Shipment
variable {S S' : Shipment} {n : UInt16}

/-- what comes out of the bursts of both shipments is a mixture -/
theorem mixed_of_yields (hlen : S'.parcels.length = S.parcels.length) {q : Packet}
    (h : (S.either S').Yields n q) :
    ∃ p p' pieces, S.parcels[n.toNat]? = some p ∧ S'.parcels[n.toNat]? = some p' ∧
      p.framed.Mixes p'.framed pieces ∧ Packet.decode pieces.flatten = .ok q ∧
      q.key = { S.key with packet := n } := by
  obtain ⟨pieces, hlt, ha, hd, hq, hkey⟩ := h
  obtain ⟨p, p', hp, hp'⟩ := exists_parcels hlen ha
  have hcount : (UInt16.ofNat pieces.length).toNat = pieces.length := by
    rw [UInt16.toNat_ofNat', Nat.mod_eq_of_lt hlt]
  refine ⟨p, p', pieces, hp, hp', ⟨?_, ?_⟩, hq, hkey⟩
  · rw [← hcount]
    exact ha.imp (fun h => announce_of_has h hp) fun h => announce_of_has h hp'
  · intro i b hi
    obtain ⟨hil, -⟩ := List.getElem?_eq_some_iff.mp hi
    have hindex : (UInt16.ofNat (i + 1)).toNat - 1 = i := by
      rw [UInt16.toNat_ofNat']
      omega
    rcases hd i b hi with h | h
    · have := (data_of_has h hp).2.2
      rw [hindex] at this
      exact Or.inl this
    · have := (data_of_has h hp').2.2
      rw [hindex] at this
      exact Or.inr this

/-- a mixture that decodes is itself a packet of a shipment, in the place of packet `n` -/
theorem exists_mixture {p p' : Parcel} {pieces : List Bytes} {d : DataPacket}
    (hp : S.parcels[n.toNat]? = some p) (hp' : S'.parcels[n.toNat]? = some p')
    (hm : p.framed.Mixes p'.framed pieces) (hdecode : Packet.decode pieces.flatten = .ok (.data d))
    (hkey : (Packet.data d).key = { S.key with packet := n }) :
    ∃ M : Shipment, M.key = S.key ∧ M.limit = max S.limit S'.limit ∧
      M.parcels[n.toNat]? = some ⟨⟨{ S.key with packet := n }, pieces⟩, .data d⟩ := by
  have hlt := (List.getElem?_eq_some_iff.mp hp).1
  have hzero : n.toNat ≠ 0 := by
    intro h0
    refine Packet.packet_ne_zero_of_decode hdecode ?_
    have : d.header.packet = n := congrArg PacketKey.packet hkey
    rw [this]
    exact UInt16.toNat_inj.mp h0
  refine ⟨{
    key := S.key
    info := S.info
    limit := max S.limit S'.limit
    parcels := S.parcels.set n.toNat ⟨⟨{ S.key with packet := n }, pieces⟩, .data d⟩
    serial_le := S.serial_le
    limit_le := Nat.max_le.mpr ⟨S.limit_le, S'.limit_le⟩
    length_eq := by rw [List.length_set, S.length_eq]
    length_le := by rw [List.length_set]; exact S.length_le
    sound := fun m q hq => ?_
    info_eq := fun q hq => ?_ }, rfl, rfl, List.getElem?_set_self hlt⟩
  · by_cases hmn : m = n.toNat
    · subst hmn
      rw [List.getElem?_set_self hlt] at hq
      obtain rfl := Option.some.inj hq
      refine ⟨by rw [UInt16.ofNat_toNat], hdecode, hkey, ?_, ?_⟩
      · rcases hm.count with hc | hc
        · exact Nat.le_trans (Nat.le_of_eq hc) (S.sound _ p hp).count_le
        · exact Nat.le_trans (Nat.le_of_eq hc) (S'.sound _ p' hp').count_le
      · intro b hb
        obtain ⟨i, hi⟩ := List.getElem?_of_mem hb
        rcases hm.piece i b hi with hb | hb
        · obtain ⟨h₁, h₂⟩ := (S.sound _ p hp).piece b (List.mem_of_getElem? hb)
          exact ⟨h₁, Nat.le_trans h₂ (Nat.le_max_left _ _)⟩
        · obtain ⟨h₁, h₂⟩ := (S'.sound _ p' hp').piece b (List.mem_of_getElem? hb)
          exact ⟨h₁, Nat.le_trans h₂ (Nat.le_max_right _ _)⟩
    · rw [List.getElem?_set_ne (Ne.symm hmn)] at hq
      obtain ⟨h₁, h₂, h₃, h₄, h₅⟩ := S.sound m q hq
      exact ⟨h₁, h₂, h₃, h₄, fun b hb =>
        ⟨(h₅ b hb).1, Nat.le_trans (h₅ b hb).2 (Nat.le_max_left _ _)⟩⟩
  · rw [List.getElem?_set_ne hzero] at hq
    exact S.info_eq q hq

end Shipment

namespace Receiver
open ProfileAssembly

/-- a receiver with room for it holds a packet whose bursts have all come -/
theorem stores_of_all {M : Shipment} {n : UInt16} {q : Parcel} {r : Receiver} {ws : List Bytes}
    (h : Tuned M.supply r) (hl : M.limit ≤ r.reader.mostPayload)
    (hroom : (M.parcels.map fun p => p.framed.packet.length).sum ≤ r.config.mostBuffered)
    (hq : M.parcels[n.toNat]? = some q)
    (hws : ∀ w ∈ ws, ∃ k, M.Has n k ∧ w = Burst.wire ⟨⟨M.key, n⟩, k⟩)
    (hall : ∀ i k, q.framed.kind? i = some k → Burst.wire ⟨⟨M.key, n⟩, k⟩ ∈ ws) (now : Nat) :
    (r.takeAll ws now).profile? M.key = some ((r.takeAll ws now).assembly M.key).received ∧
      ((r.takeAll ws now).assembly M.key).Stores n q.content := by
  have hws' : ∀ w ∈ ws, ∃ m k, M.Has m k ∧ w = Burst.wire ⟨⟨M.key, m⟩, k⟩ := fun w hw => by
    obtain ⟨k, hk, rfl⟩ := hws w hw
    exact ⟨n, k, hk, rfl⟩
  obtain ⟨ht, -, -⟩ := tuned_takeAll h hl hws' now
  obtain ⟨-, hrecorded⟩ := moves_takeAll h hl hroom hq (Outbound.tabled_new q.framed) hws' now
  have hheld : (((r.takeAll ws now).assembly M.key).packet n).held = true :=
    PacketAssembly.held_of_recorded (ht.stocked.contents n) (ht.idle n) hq fun i k hk =>
      (hrecorded k ⟨q, i, hq, hk⟩ (hall i k hk)).1
  refine ⟨profile?_of_held hheld, ?_⟩
  obtain ⟨content, hstores⟩ := (ht.stocked.held_iff n).mp hheld
  obtain ⟨q', hq', rfl⟩ := eq_content_of_stores ht.stocked hstores
  obtain rfl := Option.some.inj (hq.symm.trans hq')
  exact hstores

end Receiver

namespace Shipment
variable {S S' : Shipment} {n : UInt16}

theorem has_of_mixes {p p' : Parcel} {key : PacketKey} {pieces : List Bytes}
    (hp : S.parcels[n.toNat]? = some p) (hp' : S'.parcels[n.toNat]? = some p')
    (hm : p.framed.Mixes p'.framed pieces) {i : Nat} {k : BurstKind}
    (hk : Framed.kind? ⟨key, pieces⟩ i = some k) : S.Has n k ∨ S'.Has n k := by
  rcases Framed.kind?_cases hk with ⟨-, rfl⟩ | ⟨j, b, -, hb, rfl⟩ | ⟨-, rfl⟩
  · show S.Has n (.announce (UInt16.ofNat pieces.length)) ∨
      S'.Has n (.announce (UInt16.ofNat pieces.length))
    rcases hm.count with hc | hc
    · rw [hc]
      exact Or.inl ⟨p, 0, hp, p.framed.kind?_zero⟩
    · rw [hc]
      exact Or.inr ⟨p', 0, hp', p'.framed.kind?_zero⟩
  · exact (hm.piece j b hb).imp (fun h => ⟨p, j + 1, hp, Framed.kind?_data h⟩)
      fun h => ⟨p', j + 1, hp', Framed.kind?_data h⟩
  · exact Or.inr ⟨p', _, hp', p'.framed.kind?_terminal⟩

/-- settings of a receiver that leave room for the shipment -/
def roomy (S : Shipment) : ReceiverConfig := { ReceiverConfig.standard with
  mostPayload := S.limit
  mostBuffered := (S.parcels.map fun p => p.framed.packet.length).sum }

/-- the bursts of packet `n` among these that the shipment has -/
theorem exists_wires (S : Shipment) (n : UInt16) (ks : List BurstKind) :
    ∃ ws : List Bytes, ∀ w, w ∈ ws ↔ ∃ k ∈ ks, S.Has n k ∧ w = Burst.wire ⟨⟨S.key, n⟩, k⟩ := by
  classical
  refine ⟨(ks.filter fun k => S.Has n k).map fun k => Burst.wire ⟨⟨S.key, n⟩, k⟩, fun w => ?_⟩
  rw [List.mem_map]
  constructor
  · rintro ⟨k, hk, rfl⟩
    obtain ⟨hk, hhas⟩ := List.mem_filter.mp hk
    exact ⟨k, hk, of_decide_eq_true hhas, rfl⟩
  · rintro ⟨k, hk, hhas, rfl⟩
    exact ⟨k, List.mem_filter.mpr ⟨hk, decide_eq_true hhas⟩, rfl⟩

/-- a mixture that decodes is held by a receiver that is given bursts of the one shipment, and then
bursts of the other -/
theorem stores_of_mixed (hkey : S'.key = S.key) {p p' : Parcel} {pieces : List Bytes}
    {d : DataPacket} (hp : S.parcels[n.toNat]? = some p) (hp' : S'.parcels[n.toNat]? = some p')
    (hm : p.framed.Mixes p'.framed pieces) (hdecode : Packet.decode pieces.flatten = .ok (.data d))
    (hd : (Packet.data d).key = { S.key with packet := n }) :
    ∃ (rc : ReceiverConfig) (ws ws' : List Bytes),
      rc.mostPayload = max S.limit S'.limit ∧
      (∀ w ∈ ws, ∃ n k, S.Has n k ∧ w = Burst.wire ⟨⟨S.key, n⟩, k⟩) ∧
      (∀ w ∈ ws', ∃ n k, S'.Has n k ∧ w = Burst.wire ⟨⟨S'.key, n⟩, k⟩) ∧
      ∃ r, (((Receiver.new rc 0).takeAll ws 0).takeAll ws' 0).profile? S.key = some r ∧
        r.data.get? n = some d := by
  obtain ⟨M, hMkey, hMlimit, hq⟩ := exists_mixture hp hp' hm hdecode hd
  obtain ⟨ws, hws⟩ := S.exists_wires n (Framed.kinds ⟨{ S.key with packet := n }, pieces⟩)
  obtain ⟨ws', hws'⟩ := S'.exists_wires n (Framed.kinds ⟨{ S.key with packet := n }, pieces⟩)
  rw [hkey] at hws'
  -- one by one, the bursts of the mixture are those of the one shipment and those of the other
  have hfrom (w : Bytes) (hw : w ∈ ws ++ ws') :
      ∃ k, M.Has n k ∧ w = Burst.wire ⟨⟨M.key, n⟩, k⟩ := by
    have hkinds : ∃ k ∈ Framed.kinds ⟨{ S.key with packet := n }, pieces⟩,
        w = Burst.wire ⟨⟨S.key, n⟩, k⟩ := by
      rcases List.mem_append.mp hw with hw | hw
      · obtain ⟨k, hk, -, he⟩ := (hws w).mp hw
        exact ⟨k, hk, he⟩
      · obtain ⟨k, hk, -, he⟩ := (hws' w).mp hw
        exact ⟨k, hk, he⟩
    obtain ⟨k, hk, rfl⟩ := hkinds
    obtain ⟨i, hi⟩ := Framed.mem_kinds.mp hk
    exact ⟨k, ⟨_, i, hq, hi⟩, by rw [hMkey]⟩
  have hto (i : Nat) (k : BurstKind)
      (hk : Framed.kind? ⟨{ S.key with packet := n }, pieces⟩ i = some k) :
      Burst.wire ⟨⟨M.key, n⟩, k⟩ ∈ ws ++ ws' := by
    have hmem := Framed.mem_kinds.mpr ⟨i, hk⟩
    rw [hMkey]
    rcases has_of_mixes hp hp' hm hk with hhas | hhas
    · exact List.mem_append_left _ ((hws _).mpr ⟨k, hmem, hhas, rfl⟩)
    · exact List.mem_append_right _ ((hws' _).mpr ⟨k, hmem, hhas, rfl⟩)
  refine ⟨M.roomy, ws, ws', hMlimit, ?_, ?_, ?_⟩
  · intro w hw
    obtain ⟨k, -, hhas, rfl⟩ := (hws w).mp hw
    exact ⟨n, k, hhas, rfl⟩
  · intro w hw
    obtain ⟨k, -, hhas, rfl⟩ := (hws' w).mp hw
    exact ⟨n, k, hhas, by rw [hkey]⟩
  · obtain ⟨hprofile, hstores⟩ := Receiver.stores_of_all
      (Receiver.tuned_new M.supply M.roomy 0) (Nat.le_refl _) (Nat.le_refl _) hq hfrom hto 0
    rw [Receiver.takeAll_append, hMkey] at hprofile hstores
    exact ⟨_, hprofile, hstores⟩

end Shipment

/-! ## Both attempts -/

/-- the payload of packet `n` rounded as one of the packages asks -/
def Package.Rounds (pkg pkg' : Package) (n : UInt16) (d : DataPacket) : Prop :=
  ∃ o ∈ pkg.data[n.toNat - 1]?,
    d.payload = Body.rounded (.ofSensor o.header.sensor) pkg.stages.noise o.payload ∨
      d.payload = Body.rounded (.ofSensor o.header.sensor) pkg'.stages.noise o.payload

instance (pkg pkg' : Package) (n : UInt16) (d : DataPacket) : Decidable (pkg.Rounds pkg' n d) :=
  inferInstanceAs (Decidable (∃ o ∈ pkg.data[n.toNat - 1]?, _))

theorem Framed.Mixes.eq_pieces {f : Framed} {pieces : List Bytes} (h : f.Mixes f pieces) :
    pieces = f.pieces := by
  have hlen : pieces.length = f.pieces.length := h.count.elim id id
  apply List.ext_getElem?
  intro i
  cases hi : pieces[i]? with
  | none =>
    rw [List.getElem?_eq_none_iff] at hi
    exact (List.getElem?_eq_none (hlen ▸ hi)).symm
  | some b => exact ((h.piece i b hi).elim id id).symm

/-- bursts of one encoding do not mix to anything else -/
theorem Package.rounds_of_mixed_self [Deflate.Encoder] {p : Profile} {i : Instructions}
    {pkg : Package} {sc : SenderConfig} {t : Nat} {s : Sender} (hserial : p.serial.toNat ≤ 9999)
    (hpkg : p.package i = .ok pkg) (hs : Sender.new pkg sc t = .ok s) {n : UInt16}
    {d : DataPacket} (h : s.Mixed s n d) : pkg.Rounds pkg n d := by
  obtain ⟨S, -, -, -, -, rfl, hholds⟩ := exists_shipment hserial hpkg hs
  obtain ⟨x, y, pieces, hx, hy, hm, hdecode, -⟩ := h
  obtain rfl := Option.some.inj (hx.symm.trans hy)
  obtain ⟨q, hq, rfl⟩ := Shipment.packet_sender.mp hx
  have hcontent : q.content = .data d := by
    rw [hm.eq_pieces] at hdecode
    exact Except.ok.inj ((S.sound _ q hq).decode_eq.symm.trans hdecode)
  have := hholds _ q hq
  rw [hcontent] at this
  cases hn : n.toNat with
  | zero =>
    rw [hn] at this
    exact absurd this (by simp [Package.Holds])
  | succ m =>
    rw [hn] at this
    obtain ⟨o, header, ho, -, hd⟩ := this
    exact ⟨o, by rw [hn]; exact ho, Or.inl (by rw [Packet.data.inj hd])⟩

namespace Receiver

section
variable {S S' : Shipment} {sc sc' : SenderConfig} {t t' : Nat} {n : UInt16} {d : DataPacket}

theorem mixed_of_reaches (hkey : S'.key = S.key) (hlen : S'.parcels.length = S.parcels.length)
    {rc : ReceiverConfig} (hl : S.limit ≤ rc.mostPayload) (hl' : S'.limit ≤ rc.mostPayload)
    {now : Nat} {r r' : Receiver} (hr : Reaches (S.sender sc t).drain.1 (.new rc now) r)
    (hr' : Reaches (S'.sender sc' t').drain.1 r r') {key : ProfileKey} {received : ReceivedProfile}
    (hreceived : r'.profile? key = some received) (hd : received.data.get? n = some d) :
    (S.sender sc t).Mixed (S'.sender sc' t') n d := by
  have hreadable := Shipment.readable_either hkey
  have hws (w : Bytes) (hw : w ∈ (S.sender sc t).drain.1) :
      ∃ m k, (S.either S').Has m k ∧ w = Burst.wire ⟨⟨S.key, m⟩, k⟩ := by
    obtain ⟨m, k, hk, rfl⟩ := (Sender.mem_drain_new S sc t w).mp hw
    exact ⟨m, k, Or.inl hk, rfl⟩
  have hws' (w : Bytes) (hw : w ∈ (S'.sender sc' t').drain.1) :
      ∃ m k, (S.either S').Has m k ∧ w = Burst.wire ⟨⟨S.key, m⟩, k⟩ := by
    obtain ⟨m, k, hk, rfl⟩ := (Sender.mem_drain_new S' sc' t' w).mp hw
    exact ⟨m, k, Or.inr hk, by rw [hkey]⟩
  obtain ⟨ht, hlimit⟩ := tuned_of_reaches hreadable hws (tuned_new (S.either S') rc now)
    (Nat.max_le.mpr ⟨hl, hl'⟩) hr
  obtain ⟨ht', -⟩ := tuned_of_reaches hreadable hws' ht hlimit hr'
  obtain ⟨-, rfl⟩ := eq_of_profile? ht' hreceived
  obtain ⟨q, q', pieces, hq, hq', hm, hdecode, hkeyd⟩ :=
    Shipment.mixed_of_yields hlen (ht'.stocked.stores n (.data d) hd)
  exact ⟨.new q.framed, .new q'.framed, pieces, Shipment.packet_sender.mpr ⟨q, hq, rfl⟩,
    Shipment.packet_sender.mpr ⟨q', hq', rfl⟩, hm, hdecode, hkeyd⟩

theorem reaches_of_mixed (hkey : S'.key = S.key)
    (h : (S.sender sc t).Mixed (S'.sender sc' t') n d) :
    ∃ (rc : ReceiverConfig) (r r' : Receiver) (received : ReceivedProfile),
      rc.mostPayload = max S.limit S'.limit ∧
      Reaches (S.sender sc t).drain.1 (.new rc 0) r ∧ Reaches (S'.sender sc' t').drain.1 r r' ∧
      r'.profile? S.key = some received ∧ received.data.get? n = some d := by
  obtain ⟨x, y, pieces, hx, hy, hm, hdecode, hd⟩ := h
  obtain ⟨q, hq, rfl⟩ := Shipment.packet_sender.mp hx
  obtain ⟨q', hq', rfl⟩ := Shipment.packet_sender.mp hy
  obtain ⟨rc, ws, ws', hrc, hws, hws', received, hreceived, hrd⟩ :=
    Shipment.stores_of_mixed hkey hq hq' hm hdecode hd
  refine ⟨rc, _, _, received, hrc, reaches_takeAll ?_ .refl 0, reaches_takeAll ?_ .refl 0,
    hreceived, hrd⟩
  · intro w hw
    exact (Sender.mem_drain_new S sc t w).mpr (hws w hw)
  · intro w hw
    exact (Sender.mem_drain_new S' sc' t' w).mpr (hws' w hw)

end

theorem retried_payloads_rounded_iff [Deflate.Encoder] {p : Profile} {i i' : Instructions}
    {pkg pkg' : Package} {sc sc' : SenderConfig} {t t' : Nat} {s s' : Sender}
    (hserial : p.serial.toNat ≤ 9999) (hpkg : p.package i = .ok pkg)
    (hpkg' : p.package i' = .ok pkg') (hs : Sender.new pkg sc t = .ok s)
    (hs' : Sender.new pkg' sc' t' = .ok s') :
    (∀ rc now r r', pkg.burstSize ≤ rc.mostPayload → pkg'.burstSize ≤ rc.mostPayload →
      Reaches s.drain.1 (.new rc now) r → Reaches s'.drain.1 r r' →
      ∀ key received n d, r'.profile? key = some received → received.data.get? n = some d →
        pkg.Rounds pkg' n d) ↔
    ∀ n d, s.Mixed s' n d → pkg.Rounds pkg' n d := by
  obtain ⟨S, hkey, hinfo, -, hlimit, hS, -⟩ := exists_shipment hserial hpkg hs
  obtain ⟨S', hkey', hinfo', -, hlimit', hS', -⟩ := exists_shipment hserial hpkg' hs'
  have hsame : S'.key = S.key := hkey'.trans hkey.symm
  have hlen : S'.parcels.length = S.parcels.length := by
    rw [S.length_eq, S'.length_eq, hinfo, hinfo']
  subst hS hS'
  rw [← hlimit, ← hlimit']
  constructor
  · intro hrounds n d hmixed
    obtain ⟨rc, r, r', received, hrc, hr, hr', hreceived, hd⟩ := reaches_of_mixed hsame hmixed
    have hl : S.limit ≤ rc.mostPayload := by
      rw [hrc]
      exact Nat.le_max_left _ _
    have hl' : S'.limit ≤ rc.mostPayload := by
      rw [hrc]
      exact Nat.le_max_right _ _
    exact hrounds rc 0 r r' hl hl' hr hr' S.key received n d hreceived hd
  · intro hmixed rc now r r' hl hl' hr hr' key received n d hreceived hd
    exact hmixed n d (mixed_of_reaches hsame hlen hl hl' hr hr' hreceived hd)

theorem same_plan_retried :
    ∃ pkg s, Exchange.smallCast.package Exchange.smallPlan = .ok pkg ∧
      Sender.new pkg .standard 0 = .ok s ∧
      ∀ rc now r r', pkg.burstSize ≤ rc.mostPayload → pkg.burstSize ≤ rc.mostPayload →
        Reaches s.drain.1 (.new rc now) r → Reaches s.drain.1 r r' →
        ∀ key received n d, r'.profile? key = some received → received.data.get? n = some d →
          pkg.Rounds pkg n d := by
  have heval : Exchange.passes Exchange.smallCast Exchange.smallPlan (fun _ _ => true) = true := by
    decide +kernel
  obtain ⟨pkg, s, hpkg, hs, -⟩ := Exchange.exists_of_passes heval
  exact ⟨pkg, s, hpkg, hs,
    (retried_payloads_rounded_iff (by decide) hpkg hpkg hs hs).mpr fun n d =>
      Package.rounds_of_mixed_self (by decide) hpkg hs⟩

/-- three items of one class, whose bytes are all alike -/
def evenCast : Profile :=
  ⟨770, 12345, .of fun s => .ofText s.name,
    .of fun s => if s = .mcoms then List.replicate 120 2 else []⟩

def plainPlan : Instructions := .identity 128

/-- Gray coded samples, in as many bursts -/
def grayPlan : Instructions := { plainPlan with representation := .gray }

/-- burst `i` of packet `n` of a new sender -/
def burst? (s : Sender) (n i : Nat) : Option Bytes := s.packets[n]?.bind fun x => x.framed.render? i

theorem mem_drain_of_burst? [Deflate.Encoder] {p : Profile} {i : Instructions} {pkg : Package}
    {sc : SenderConfig} {t : Nat} {s : Sender} (hserial : p.serial.toNat ≤ 9999)
    (hpkg : p.package i = .ok pkg) (hs : Sender.new pkg sc t = .ok s) {n j : Nat} {w : Bytes}
    (hw : burst? s n j = some w) : w ∈ s.drain.1 := by
  obtain ⟨S, -, -, -, -, rfl, -⟩ := exists_shipment hserial hpkg hs
  obtain ⟨x, hx, hw⟩ := Option.bind_eq_some_iff.mp hw
  obtain ⟨q, hq, rfl⟩ := Shipment.packet_sender.mp hx
  obtain ⟨b, hb, rfl⟩ := Option.map_eq_some_iff.mp hw
  obtain ⟨k, hk, rfl⟩ := Option.map_eq_some_iff.mp hb
  have hn := (Shipment.toNat_lt hq).2
  refine (Sender.mem_drain_new S sc t _).mpr ⟨UInt16.ofNat n, k, ⟨q, j, by rw [hn]; exact hq, hk⟩, ?_⟩
  rw [show (Outbound.new q.framed).framed.key = _ from (S.sound n q hq).key_eq]

set_option maxRecDepth 2000 in
/-- the second piece of the first attempt is taken for that of the second: a receiver can hold what
was never sent -/
theorem retried_cast_mixed :
    ∃ pkg pkg' s s' r r' received d,
      evenCast.package plainPlan = .ok pkg ∧ evenCast.package grayPlan = .ok pkg' ∧
      Sender.new pkg .standard 0 = .ok s ∧ Sender.new pkg' .standard 0 = .ok s' ∧
      Reaches s.drain.1 (.new .standard 0) r ∧ Reaches s'.drain.1 r r' ∧
      r'.profile? ⟨770, 12345⟩ = some received ∧ received.data.get? 1 = some d ∧
      ¬ pkg.Rounds pkg' 1 d := by
  have heval : (do
      let pkg ← (evenCast.package plainPlan).toOption
      let pkg' ← (evenCast.package grayPlan).toOption
      let s ← (Sender.new pkg .standard 0).toOption
      let s' ← (Sender.new pkg' .standard 0).toOption
      let announce ← burst? s 1 0
      let second ← burst? s 1 2
      let first ← burst? s' 1 1
      let terminal ← burst? s' 1 3
      let received ← (((Receiver.new .standard 0).takeAll [announce, second] 0).takeAll
        [first, terminal] 0).profile? ⟨770, 12345⟩
      let d ← received.data.get? 1
      if pkg.Rounds pkg' 1 d then none else some ()) = some () := by decide +kernel
  obtain ⟨pkg, hpkg, heval⟩ := Option.bind_eq_some_iff.mp heval
  obtain ⟨pkg', hpkg', heval⟩ := Option.bind_eq_some_iff.mp heval
  obtain ⟨s, hs, heval⟩ := Option.bind_eq_some_iff.mp heval
  obtain ⟨s', hs', heval⟩ := Option.bind_eq_some_iff.mp heval
  obtain ⟨announce, hannounce, heval⟩ := Option.bind_eq_some_iff.mp heval
  obtain ⟨second, hsecond, heval⟩ := Option.bind_eq_some_iff.mp heval
  obtain ⟨first, hfirst, heval⟩ := Option.bind_eq_some_iff.mp heval
  obtain ⟨terminal, hterminal, heval⟩ := Option.bind_eq_some_iff.mp heval
  obtain ⟨received, hreceived, heval⟩ := Option.bind_eq_some_iff.mp heval
  obtain ⟨d, hd, heval⟩ := Option.bind_eq_some_iff.mp heval
  have hpkg := toOption_eq_some hpkg
  have hpkg' := toOption_eq_some hpkg'
  have hs := toOption_eq_some hs
  have hs' := toOption_eq_some hs'
  refine ⟨pkg, pkg', s, s', _, _, received, d, hpkg, hpkg', hs, hs',
    reaches_takeAll ?_ .refl 0, reaches_takeAll ?_ .refl 0,
    hreceived, hd, ?_⟩
  · intro w hw
    rcases List.mem_pair.mp hw with rfl | rfl
    · exact mem_drain_of_burst? (by decide) hpkg hs hannounce
    · exact mem_drain_of_burst? (by decide) hpkg hs hsecond
  · intro w hw
    rcases List.mem_pair.mp hw with rfl | rfl
    · exact mem_drain_of_burst? (by decide) hpkg' hs' hfirst
    · exact mem_drain_of_burst? (by decide) hpkg' hs' hterminal
  · intro hrounds
    rw [if_pos hrounds] at heval
    exact absurd heval (by simp)

end Receiver

end Shoreline
