import Shoreline.Proofs.Acceptance
import Shoreline.Proofs.Agreement
import Shoreline.Proofs.EmissionOrder
import Shoreline.Proofs.InOrder

/-!
# A transfer without losses

A cast is built and finalized, packaged, sent in one go to a new receiver, and what the receiver says
is heard in one go.  Then everything is sent once and in order, every packet is confirmed once and in
order, nothing is asked for again, the transfer is a success, and the receiver has the cast as it was
acquired but for the rounding of its samples.

* `Agrees.payloads_eq`   the payloads of a class, when every packet is there;
* `success_of_confirmations`   a sender that hears every packet confirmed has succeeded;
* `profile?_of_through`  a receiver that has heard every packet has the cast;
* `lossless_transfer`    all of it.
-/

namespace Shoreline

/-! ## What the receiver has -/

namespace ReceivedProfile

/-- the payloads of the Data Packets of a class, in the order of their packet numbers -/
def payloads (p : ReceivedProfile) (c : Sensor) : List Bytes :=
  (p.data.values.filter fun d => d.header.sensor = c).map DataPacket.payload

/-- a payload with its class, as it arrives -/
def arrived (noise : Noise) (x : Sensor × Bytes) : Sensor × Bytes :=
  (x.1, Body.rounded (.ofSensor x.1) noise x.2)

section
variable {pkg : Package} {p : ReceivedProfile} (h : p.Agrees pkg)
include h

theorem Agrees.arrived_eq {n : UInt16} {d : DataPacket} (hd : p.data.get? n = some d) :
    ∃ o, 1 ≤ n.toNat ∧ pkg.data[n.toNat - 1]? = some o ∧
      (d.header.sensor, d.payload) = arrived pkg.stages.noise (o.header.sensor, o.payload) := by
  obtain ⟨o, hn, ho, hheader, hpayload⟩ := h.data n d hd
  have hsensor : d.header.sensor = o.header.sensor := by rw [hheader]
  have hstages : d.header.stages = pkg.stages := by rw [hheader]
  exact ⟨o, hn, ho, by rw [arrived, hpayload, hstages, hsensor]⟩

variable (hlen : pkg.data.length ≤ mostPackets)
  (hall : ∀ n : UInt16, 1 ≤ n.toNat → n.toNat ≤ pkg.data.length → p.data.contains n = true)
include hlen hall

/-- the Data Packets that are there are the packaged ones, numbered from 1 -/
theorem Agrees.entries_eq :
    (p.data.map fun d => (d.header.sensor, d.payload)).entries =
      pkg.data.zipIdx.map fun x => (UInt16.ofNat (x.2 + 1),
        arrived pkg.stages.noise (x.1.header.sensor, x.1.payload)) := by
  have hmost : pkg.data.length ≤ 9999 := hlen
  have hnumber : ∀ i, i < pkg.data.length → (UInt16.ofNat (i + 1)).toNat = i + 1 := by
    intro i hi
    rw [UInt16.toNat_ofNat']
    omega
  refine Keyed.entries_eq _ ?_ fun n a => ?_
  · rw [List.pairwise_map, List.pairwise_iff_getElem]
    intro i j hi hj hij
    rw [List.length_zipIdx] at hi hj
    rw [List.getElem_zipIdx, List.getElem_zipIdx]
    show (UInt16.ofNat (0 + i + 1)).toNat < (UInt16.ofNat (0 + j + 1)).toNat
    rw [Nat.zero_add, Nat.zero_add, hnumber i hi, hnumber j hj]
    omega
  · rw [Keyed.get?_map, Option.map_eq_some_iff, List.mem_map]
    constructor
    · rintro ⟨⟨o, i⟩, hi, he⟩
      obtain ⟨rfl, rfl⟩ := Prod.mk.inj he
      have ho := List.mem_zipIdx_iff_getElem?.mp hi
      have hlt : i < pkg.data.length := (List.getElem?_eq_some_iff.mp ho).1
      have hn := hnumber i hlt
      obtain ⟨d, hd⟩ := (Keyed.contains_iff _ _).mp
        (hall (UInt16.ofNat (i + 1)) (by omega) (by omega))
      obtain ⟨o', -, ho', hd'⟩ := h.arrived_eq hd
      rw [hn, Nat.add_sub_cancel, ho] at ho'
      obtain rfl := Option.some.inj ho'
      exact ⟨d, hd, hd'⟩
    · rintro ⟨d, hd, rfl⟩
      obtain ⟨o, hn, ho, hd'⟩ := h.arrived_eq hd
      refine ⟨(o, n.toNat - 1), List.mem_zipIdx_iff_getElem?.mpr ho, ?_⟩
      rw [Nat.sub_add_cancel hn, UInt16.ofNat_toNat, hd']

theorem Agrees.values_eq :
    p.data.values.map (fun d => (d.header.sensor, d.payload)) =
      pkg.data.map fun d => arrived pkg.stages.noise (d.header.sensor, d.payload) := by
  rw [← Keyed.values_map, Keyed.values, h.entries_eq hlen hall, List.map_map]
  conv => rhs; rw [← List.zipIdx_map_fst 0 pkg.data, List.map_map]
  rfl

/-- together the payloads of a class are its items, rounded -/
theorem Agrees.payloads_eq {cast : Profile}
    (hcast : pkg.data.map (fun d => (d.header.sensor, d.payload)) = cast.payloads) (c : Sensor) :
    (p.payloads c).flatten =
      Body.rounded (.ofSensor c) pkg.stages.noise (cast.samples.get c) := by
  have hvalues : p.data.values.map (fun d => (d.header.sensor, d.payload)) =
      cast.payloads.map (arrived pkg.stages.noise) := by
    rw [h.values_eq hlen hall, ← hcast, List.map_map]
    rfl
  have hclass : p.payloads c =
      ((cast.payloads.map (arrived pkg.stages.noise)).filter fun x => x.1 = c).map Prod.snd := by
    rw [← hvalues, List.filter_map, List.map_map]
    rfl
  have hrounded : p.payloads c =
      (chunks (c.itemsPerPacket * c.itemSize) (cast.samples.get c)).map
        (Body.rounded (.ofSensor c) pkg.stages.noise) := by
    rw [hclass, List.filter_map, List.map_map, ← cast.payloads_of_class, List.map_map]
    refine List.map_congr_left fun x hx => ?_
    have hx : x.1 = c := of_decide_eq_true (List.mem_filter.mp hx).2
    show Body.rounded (.ofSensor x.1) _ x.2 = Body.rounded (.ofSensor c) _ x.2
    rw [hx]
  have hchunks := Body.rounded_chunks (.ofSensor c) (Layout.itemSize_ofSensor_pos c)
    pkg.stages.noise c.itemsPerPacket_pos (cast.samples.get c)
  rwa [Layout.itemSize_ofSensor, ← hrounded] at hchunks

end

end ReceivedProfile

/-! ## What the sender hears -/

/-- a packet that is said to be held is confirmed, and stays so while nothing else is said -/
theorem Outbound.confirmed_foldl {n : Nat} {x : Outbound} {os : List Outgoing}
    (hos : ∀ o ∈ os, ∃ k, o = .control (.received k))
    (h : x.status = .confirmed ∨ ∃ k, .control (.received k) ∈ os ∧ k.packet.toNat = n) :
    (os.foldl (hear n) x).status = .confirmed := by
  induction os generalizing x with
  | nil =>
    rcases h with h | ⟨k, hk, -⟩
    · exact h
    · exact absurd hk (by simp)
  | cons o os ih =>
    obtain ⟨k, rfl⟩ := hos o List.mem_cons_self
    refine ih (fun o' ho' => hos o' (List.mem_cons_of_mem _ ho')) ?_
    have hhear : x.hear n (.control (.received k)) =
        if k.packet.toNat = n then x.apply (.received k) else x := rfl
    by_cases hn : k.packet.toNat = n
    · rw [hhear, if_pos hn]
      exact Or.inl (confirmed_apply_received x k)
    · rw [hhear, if_neg hn]
      refine h.imp_right ?_
      rintro ⟨k', hk', hn'⟩
      rcases List.mem_cons.mp hk' with he | hk'
      · rw [ControlLine.received, ControlLine.received] at he
        obtain rfl : k' = k := (ControlLine.mk.inj (Outgoing.control.inj he)).2.1
        exact absurd hn' hn
      · exact ⟨k', hk', hn'⟩

namespace Sender
open Outbound

/-- the word that packet `n` of the shipment is held -/
def confirmation (S : Shipment) (n : Nat) : Outgoing :=
  .control (.received ⟨S.key, UInt16.ofNat n⟩)

/-- when each packet is said to be held, the transfer is a success -/
theorem success_of_confirmations {S : Shipment} {s : Sender} (h : Ships S s) (now : Nat) :
    let lines := ((List.range S.parcels.length).map (confirmation S)).map Outgoing.wire
    ((lines.foldl (fun s l => s.handleInput l now) s).pollStatus now).1 = some .success := by
  intro lines
  have hnumber : ∀ n, n < S.parcels.length → (UInt16.ofNat n).toNat = n := fun n hn =>
    (Shipment.toNat_lt (List.getElem?_eq_getElem hn)).2
  have hsuits : ∀ o ∈ (List.range S.parcels.length).map (confirmation S), o.Suits s.key := by
    intro o ho
    obtain ⟨n, hn, rfl⟩ := List.mem_map.mp ho
    have hlt := List.mem_range.mp hn
    have hmost := S.length_le
    have hn := hnumber n hlt
    have hwhole : ControlLine.wholePacket.toNat ≤ 999 := by decide
    refine ⟨⟨S.serial_le, ?_, hwhole⟩, h.key_eq.symm⟩
    show (UInt16.ofNat n).toNat ≤ 9999
    omega
  have hheard := hears_foldl h.buffer hsuits now
  have hcomplete : (lines.foldl (fun s l => s.handleInput l now) s).isComplete = true := by
    refine List.all_eq_true.mpr fun y hy => beq_iff_eq.mpr ?_
    obtain ⟨n, hn⟩ := List.getElem?_of_mem hy
    rw [hheard.packet, Option.map_eq_some_iff] at hn
    obtain ⟨x, hx, rfl⟩ := hn
    obtain ⟨p, hp, -⟩ := h.tabled n x hx
    have hlt := (List.getElem?_eq_some_iff.mp hp).1
    refine confirmed_foldl (fun o ho => ?_) (Or.inr ⟨⟨S.key, UInt16.ofNat n⟩, ?_, hnumber n hlt⟩)
    · obtain ⟨m, -, rfl⟩ := List.mem_map.mp ho
      exact ⟨_, rfl⟩
    · exact List.mem_map.mpr ⟨n, List.mem_range.mpr hlt, rfl⟩
  rw [pollStatus_of_isComplete hcomplete]

/-- a new sender hands out the bursts of all its packets -/
theorem drain_sender (S : Shipment) (sc : SenderConfig) (t : Nat) :
    (S.sender sc t).drain.1 = S.parcels.flatMap fun q => q.framed.wires := by
  refine (List.map_inj_right fun _ _ => Option.some.inj).mp ?_
  rw [drain_new, List.map_flatMap]
  show (S.parcels.map fun q => Outbound.new q.framed).flatMap _ = _
  rw [List.flatMap_map]
  congr 1
  funext q
  exact q.framed.map_render?

theorem ships_drain (S : Shipment) (sc : SenderConfig) (t : Nat) :
    Ships S (S.sender sc t).drain.2 := by
  have h := ships_new S sc t
  obtain ⟨-, hsends, -, hsame⟩ := drain_spec _ h.exists_tabled
  exact ships_of_sends h hsends hsame

end Sender

/-! ## The transfer -/

namespace Receiver
open ProfileAssembly

/-- a new receiver is given all that a new sender hands out -/
theorem through_drain {S : Shipment} {rc : ReceiverConfig} (hl : S.limit ≤ rc.mostPayload)
    (hroom : ∀ q ∈ S.parcels, q.framed.packet.length ≤ rc.mostBuffered) (sc : SenderConfig)
    (t₁ t₂ now : Nat) : Through S S.parcels.length (.new rc t₂)
      ((Receiver.new rc t₂).takeAll (S.sender sc t₁).drain.1 now) := by
  have h := through_takeAll (r := .new rc t₂) hl hroom (through_new S rc t₂) now (Nat.le_refl _)
  rwa [List.take_length, ← Sender.drain_sender S sc t₁] at h

theorem held_of_through {S : Shipment} {r r' : Receiver}
    (h : Through S S.parcels.length r r') {n : UInt16} {q : Parcel}
    (hq : S.parcels[n.toNat]? = some q) : ((r'.assembly S.key).packet n).held = true :=
  (h.before n (List.getElem?_eq_some_iff.mp hq).1).1

/-- a receiver that has heard the whole shipment has the cast -/
theorem profile?_of_through {S : Shipment} {r r' : Receiver} {pkg : Package} {cast : Profile}
    (h : Through S S.parcels.length r r') (hkey : S.key = ⟨pkg.info.serial, pkg.info.profile⟩)
    (hinfo : S.info = pkg.info)
    (hholds : ∀ (n : Nat) p, S.parcels[n]? = some p → pkg.Holds n p.content)
    (hlen : S.parcels.length = pkg.packetCount)
    (hcast : pkg.data.map (fun d => (d.header.sensor, d.payload)) = cast.payloads) :
    ∃ p, r'.profile? S.key = some p ∧ p.info = some pkg.info ∧ ∀ c, (p.payloads c).flatten =
      Body.rounded (.ofSensor c) pkg.stages.noise (cast.samples.get c) := by
  have hstocked : Stocked S.supply (r'.assembly S.key) := h.tuned.stocked
  obtain ⟨q₀, hq₀⟩ := (mem_parcels_iff (S := S) 0).mpr (Nat.zero_le _)
  have hheld₀ := held_of_through h hq₀
  have hagrees := agrees_of_stocked hstocked hkey hinfo hholds
  have hcount : S.parcels.length = pkg.data.length + 1 := hlen
  have hmost := S.length_le
  refine ⟨_, profile?_of_held hheld₀, ?_, fun c => hagrees.payloads_eq ?_ ?_ hcast c⟩
  · rw [info_of_held hstocked hheld₀, hinfo]
  · show pkg.data.length ≤ 9999
    omega
  · intro n h₁ h₂
    have hn : n ≠ 0 := by
      rintro rfl
      exact absurd h₁ (by decide)
    exact (contains_data_iff hstocked hn).mpr
      (held_of_through h (List.getElem?_eq_getElem (by omega)))

end Receiver

namespace Exchange
open Receiver

/-- whatever was gathered is packaged, sent, put together and confirmed, in one pass each way -/
theorem lossless_transfer [Deflate.Encoder] {b : Builder} (hb : b.Built)
    (hserial : b.finalize.serial.toNat ≤ 9999)
    (hitems : ∀ c, b.finalize.definition.items.get c ≤ 9999) {i : Instructions}
    (hi : i.validate = .ok ()) (hdeflate : i.compression = .deflate → Deflate.Bounded)
    (sc : SenderConfig) (t₁ : Nat) :
    let cast := b.finalize
    let key : ProfileKey := ⟨cast.serial, cast.profile⟩
    ∃ pkg s, cast.package i = .ok pkg ∧ Sender.new pkg sc t₁ = .ok s ∧
      s.packets.length = pkg.packetCount ∧
      (∀ (n : Nat) x, s.packets[n]? = some x → x.framed.key = ⟨key, UInt16.ofNat n⟩) ∧
      ∀ (rc : ReceiverConfig) (t₂ now : Nat), i.burstSize ≤ rc.mostPayload →
        (∀ x ∈ s.packets, x.framed.packet.length ≤ rc.mostBuffered) →
        let sent := s.drain
        let said := ((Receiver.new rc t₂).takeAll sent.1 now).drain
        let told := said.1.foldl (fun s line => s.handleInput line now) sent.2
        sent.1.map some = s.packets.flatMap (fun x =>
          (List.range (x.framed.count + 2)).map x.framed.render?) ∧
        said.1 = (List.range pkg.packetCount).map (fun n =>
          ControlLine.wire (.received ⟨key, UInt16.ofNat n⟩)) ∧
        (told.pollStatus now).1 = some .success ∧
        ∃ p, said.2.profile? key = some p ∧ p.info = some pkg.info ∧
          ∀ c, (p.payloads c).flatten =
            Body.rounded (.ofSensor c) i.noise (cast.samples.get c) := by
  intro cast key
  obtain ⟨pkg, hpkg, hcast⟩ := Profile.exists_package (p := cast) (Builder.dvd_of_built hb) hitems hi
  obtain ⟨hpkginfo, hstages, hsize, hpackaged⟩ := Profile.package_eq_ok hpkg
  obtain ⟨s, hs⟩ := Sender.exists_new hpackaged.burstSize (Profile.length_le_of_package hpkg)
    (by rw [hstages]; exact hdeflate) sc t₁
  obtain ⟨S, hS, -, hinfo, hlimit, rfl, hholds⟩ := exists_shipment hserial hpkg hs
  have hkey : S.key = key := hS
  have hcount : S.parcels.length = pkg.packetCount := by
    rw [S.length_eq, Package.packetCount, hpackaged.total, hinfo]
  refine ⟨pkg, _, hpkg, hs, ?_, ?_, ?_⟩
  · rw [← hcount]
    exact List.length_map _
  · intro n x hx
    obtain ⟨q, hq, rfl⟩ := Shipment.packet_sender.mp hx
    show q.framed.key = _
    rw [(S.sound n q hq).key_eq, hkey]
  intro rc t₂ now hmost hroom sent said told
  have hl : S.limit ≤ rc.mostPayload := by
    rw [hlimit, hsize]
    exact hmost
  have hthrough := through_drain hl (fun q hq => hroom _ (List.mem_map.mpr ⟨q, hq, rfl⟩)) sc
    t₁ t₂ now
  have hsaid : said.1 =
      ((List.range S.parcels.length).map (Sender.confirmation S)).map Outgoing.wire :=
    congrArg (List.map Outgoing.wire) hthrough.outbox
  refine ⟨Sender.drain_new S sc t₁, ?_, ?_, ?_⟩
  · rw [hsaid, hcount, List.map_map, ← hkey]
    rfl
  · have hsuccess := Sender.success_of_confirmations (Sender.ships_drain S sc t₁) now
    rw [← hsaid] at hsuccess
    exact hsuccess
  · have hkey' : S.key = ⟨pkg.info.serial, pkg.info.profile⟩ := by
      rw [hpkginfo, hkey]
    obtain ⟨p, hp, hpinfo, hpayloads⟩ :=
      profile?_of_through hthrough hkey' hinfo.symm hholds hcount hcast
    rw [hkey] at hp
    rw [hstages] at hpayloads
    exact ⟨p, hp, hpinfo, hpayloads⟩

/-- two spectra, and three items of the last class -/
def gathered : Builder :=
  { Builder.new 770 12345 with
    samples := ⟨(List.range 160).map UInt8.ofNat, [], [], List.replicate 120 7⟩ }

/-- two low bits are rounded away, bodies are deflated and written as ASCII, and packets are cut into
bursts of 128 bytes -/
def fullPlan : Instructions := ⟨.gray, true, 2, .deflate, .base85, 128⟩

set_option maxRecDepth 2000 in
theorem gathered_cast_arrives :
    ∃ pkg s, gathered.finalize.package fullPlan = .ok pkg ∧ Sender.new pkg .standard 0 = .ok s ∧
      let sent := s.drain
      let said := ((Receiver.new .standard 0).takeAll sent.1 5).drain
      let told := said.1.foldl (fun s line => s.handleInput line 5) sent.2
      said.1 = (List.range pkg.packetCount).map (fun n =>
        ControlLine.wire (.received ⟨⟨770, 12345⟩, UInt16.ofNat n⟩)) ∧
      (told.pollStatus 5).1 = some .success ∧
      ∃ p, said.2.profile? ⟨770, 12345⟩ = some p ∧ p.info = some pkg.info ∧
        ∀ c, (p.payloads c).flatten =
          Body.rounded (.ofSensor c) (.removed 2) (gathered.samples.get c) := by
  have heval : passes gathered.finalize fullPlan (fun _ s =>
      s.packets.all fun x => decide (x.framed.packet.length ≤ 16777216)) = true := by
    decide +kernel
  obtain ⟨pkg', s', hpkg', hs', hroom⟩ := exists_of_passes heval
  have hbuilt : gathered.Built := Builder.built_iff.mpr fun c => by cases c <;> decide
  have hitems : ∀ c, gathered.finalize.definition.items.get c ≤ 9999 := fun c => by
    cases c <;> decide
  have hvalid : fullPlan.validate = .ok () := by decide
  obtain ⟨pkg, s, hpkg, hs, -, -, harrives⟩ := lossless_transfer hbuilt (by decide) hitems hvalid
    (fun _ => Deflate.bounded_stored) .standard 0
  obtain rfl := Except.ok.inj (hpkg.symm.trans hpkg')
  obtain rfl := Except.ok.inj (hs.symm.trans hs')
  obtain ⟨-, hsaid, hsuccess, hprofile⟩ := harrives .standard 0 5 (by decide)
    fun x hx => of_decide_eq_true (List.all_eq_true.mp hroom x hx)
  exact ⟨pkg, s, hpkg, hs, hsaid, hsuccess, hprofile⟩

end Exchange

end Shoreline
