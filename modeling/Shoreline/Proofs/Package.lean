import Shoreline.Profile.Package
import Shoreline.Proofs.Packet

/-!
# What a package holds

When packaging succeeds, the Data Packets are well formed, they are numbered from 1 without a gap, and
there are as many of them as the Info Packet counts (`Packaged`).

* `mapM_eq_ok`         what a list of results says about each of them;
* `map_range_getElem?` a list by its positions;
* `length_payloads`    as many payloads as the definition counts packets, if the items are whole;
* `data_of_package`    a Data Packet for each payload;
* `package_eq_ok`      all of it together.
-/

namespace Shoreline

theorem mapM_eq_ok {ε α β : Type} {f : α → Except ε β} {xs : List α} {ys : List β}
    (h : xs.mapM f = .ok ys) :
    ys.length = xs.length ∧ ∀ (i : Nat) y, ys[i]? = some y → ∃ x, xs[i]? = some x ∧ f x = .ok y := by
  induction xs generalizing ys with
  | nil =>
    rw [← Except.ok.inj h]
    exact ⟨rfl, fun i y hy => absurd hy (by simp)⟩
  | cons x xs ih =>
    rw [List.mapM_cons] at h
    obtain ⟨y, hy, h⟩ := bind_eq_ok h
    obtain ⟨zs, hzs, h⟩ := bind_eq_ok h
    obtain ⟨hlen, hget⟩ := ih hzs
    rw [← Except.ok.inj h]
    refine ⟨by rw [List.length_cons, List.length_cons, hlen], fun i z hz => ?_⟩
    cases i with
    | zero =>
      rw [List.getElem?_cons_zero] at hz
      exact ⟨x, rfl, hy.trans (congrArg Except.ok (Option.some.inj hz))⟩
    | succ i =>
      rw [List.getElem?_cons_succ] at hz
      exact hget i z hz

theorem map_range_getElem? {α β : Type} (f : Option α → β) (l : List α) :
    (List.range l.length).map (fun i => f l[i]?) = l.map fun a => f (some a) := by
  apply List.ext_getElem (by simp)
  intro i h₁ h₂
  rw [List.length_map] at h₂
  rw [List.getElem_map, List.getElem_map, List.getElem_range, List.getElem?_eq_getElem h₂]

/-! ## Instructions -/

theorem Instructions.validate_eq_ok {i : Instructions} (h : i.validate = .ok ()) :
    i.burstSize ∈ burstSizes ∧ i.stages.noise.bits ≤ Noise.most := by
  rw [validate] at h
  split at h
  · exact absurd h (by simp)
  next hsize =>
  split at h
  · exact absurd h (by simp)
  next hbits =>
  refine ⟨Decidable.not_not.mp hsize, ?_⟩
  show i.noise.bits ≤ Noise.most
  rw [noise]
  split
  · exact Nat.le_of_not_lt hbits
  · exact Nat.zero_le _

/-! ## How many payloads there are -/

theorem ceil_mul (a b q : Nat) (hb : 0 < b) :
    (q * b + a * b - 1) / (a * b) = (q + a - 1) / a := by
  rcases Nat.eq_zero_or_pos (q + a) with hz | hpos
  · have hq : q = 0 := by omega
    have ha : a = 0 := by omega
    rw [hq, ha]
    simp
  · have hinner : (q * b + a * b - 1) / b = q + a - 1 := by
      rw [← Nat.add_mul]
      obtain ⟨n, hn⟩ : ∃ n, q + a = n + 1 := ⟨q + a - 1, by omega⟩
      rw [hn, Nat.succ_mul, Nat.add_sub_assoc hb, Nat.mul_comm n b, Nat.mul_add_div hb,
        Nat.div_eq_of_lt (by omega)]
      omega
    rw [Nat.mul_comm a b, ← Nat.div_div_eq_div_mul, Nat.mul_comm b a, hinner]

namespace Profile

theorem dvd_samples (p : Profile) (s : Sensor)
    (h : ∀ x ∈ p.payloads, x.2.length % x.1.itemSize = 0) :
    s.itemSize ∣ (p.samples.get s).length := by
  have hpos : 0 < s.itemsPerPacket * s.itemSize :=
    Nat.mul_pos s.itemsPerPacket_pos s.itemSize_pos
  have hall : ∀ c ∈ chunks (s.itemsPerPacket * s.itemSize) (p.samples.get s),
      s.itemSize ∣ c.length := by
    intro c hc
    refine Nat.dvd_of_mod_eq_zero (h (s, c) ?_)
    exact List.mem_flatMap.mpr ⟨s, s.mem_all, List.mem_map.mpr ⟨c, hc, rfl⟩⟩
  have key : ∀ cs : List Bytes, (∀ c ∈ cs, s.itemSize ∣ c.length) →
      s.itemSize ∣ cs.flatten.length := by
    intro cs hcs
    induction cs with
    | nil => exact Nat.dvd_zero _
    | cons c cs ih =>
      rw [List.flatten_cons, List.length_append]
      exact Nat.dvd_add (hcs c List.mem_cons_self) (ih fun d hd => hcs d (List.mem_cons_of_mem _ hd))
  have := key _ hall
  rwa [chunks_flatten _ hpos] at this

/-- a count that the Info Packet can state is exact -/
theorem items_definition {p : Profile} {s : Sensor} (h : p.definition.items.get s ≤ mostItems) :
    p.definition.items.get s = (p.samples.get s).length / s.itemSize := by
  have hleast : p.definition.items.get s =
      min ((p.samples.get s).length / s.itemSize) mostCounted := by
    rw [definition, PerSensor.get_of]
  have hmost : mostItems < mostCounted := by decide
  omega

/-- as many pieces as the definition counts packets of the class -/
theorem length_pieces (p : Profile) {s : Sensor} (h : s.itemSize ∣ (p.samples.get s).length)
    (hitems : p.definition.items.get s ≤ mostItems) :
    (chunks (s.itemsPerPacket * s.itemSize) (p.samples.get s)).length = p.definition.packets s := by
  obtain ⟨q, hq⟩ := h
  have hpos : 0 < s.itemsPerPacket * s.itemSize :=
    Nat.mul_pos s.itemsPerPacket_pos s.itemSize_pos
  rw [length_chunks hpos, Definition.packets, items_definition hitems, Sensor.packetsFor, hq,
    Nat.mul_div_cancel_left _ s.itemSize_pos, Nat.mul_comm s.itemSize q]
  exact ceil_mul _ _ _ s.itemSize_pos

theorem length_payloads (p : Profile) (h : ∀ x ∈ p.payloads, x.2.length % x.1.itemSize = 0)
    (hitems : ∀ s, p.definition.items.get s ≤ mostItems) :
    p.payloads.length = p.definition.total := by
  rw [payloads, List.length_flatMap, Definition.total]
  congr 1
  apply List.map_congr_left
  intro s _
  rw [List.length_map, p.length_pieces (p.dvd_samples s h) (hitems s)]

end Profile

/-! ## The package -/

/-- what packaging promises -/
structure Package.Packaged (p : Package) : Prop where
  burstSize : p.burstSize ∈ burstSizes
  bits : p.stages.noise.bits ≤ Noise.most
  fits : p.info.Fits
  total : p.data.length = p.info.definition.total
  length_le : p.data.length ≤ mostPackets
  wellFormed : ∀ d ∈ p.data, d.WellFormed
  numbered : ∀ (n : Nat) d, p.data[n]? = some d → d.header.packet = UInt16.ofNat (n + 1)
  serial : ∀ d ∈ p.data, d.header.serial = p.info.serial ∧ d.header.profile = p.info.profile

theorem DataPacket.ofPayload_eq_ok {serial profile packet : UInt16} {s : Sensor} {id : SensorId}
    {payload : Bytes} {d : DataPacket} (h : ofPayload serial profile packet s id payload = .ok d) :
    payload.length % s.itemSize = 0 ∧ payload.length / s.itemSize ≤ mostItems ∧
      d.header.serial = serial ∧ d.header.profile = profile ∧ d.header.packet = packet ∧
      d.header.itemCount.toNat = payload.length / s.itemSize ∧
      d.payload.length = d.header.payloadSize := by
  rw [ofPayload] at h
  split at h
  · exact absurd h (by simp)
  next hmod =>
  split at h
  · exact absurd h (by simp)
  next hitems =>
  have hmod' : payload.length % s.itemSize = 0 := Decidable.not_not.mp hmod
  have hitems' : payload.length / s.itemSize ≤ 9999 := Nat.le_of_not_lt hitems
  have hcount : (UInt16.ofNat (payload.length / s.itemSize)).toNat =
      payload.length / s.itemSize := by
    rw [UInt16.toNat_ofNat', Nat.mod_eq_of_lt (Nat.lt_of_le_of_lt hitems' (by decide))]
  rw [← Except.ok.inj h]
  refine ⟨hmod', hitems', rfl, rfl, rfl, hcount, ?_⟩
  show payload.length = (UInt16.ofNat (payload.length / s.itemSize)).toNat * s.itemSize
  rw [hcount, Nat.div_mul_cancel (Nat.dvd_of_mod_eq_zero hmod')]

theorem Profile.dataPacket_eq_ok {p : Profile} {n : Nat} {x : Sensor × Bytes} {d : DataPacket}
    (h : p.dataPacket n x = .ok d) :
    n ≤ mostPackets ∧ x.2.length % x.1.itemSize = 0 ∧ d.header.packet = UInt16.ofNat n ∧
      d.header.serial = p.serial ∧ d.header.profile = p.profile ∧ (n ≠ 0 → d.WellFormed) := by
  rw [dataPacket] at h
  split at h
  · exact absurd h (by simp)
  next hn =>
  obtain ⟨hmod, hitems, hserial, hprofile, hpacket, hcount, hpayload⟩ := DataPacket.ofPayload_eq_ok h
  have hn' : n ≤ 9999 := Nat.le_of_not_lt hn
  refine ⟨hn', hmod, hpacket, hserial, hprofile, fun h0 => ⟨?_, hcount ▸ hitems, hpayload⟩⟩
  rw [hpacket]
  intro he
  have := congrArg UInt16.toNat he
  rw [UInt16.toNat_ofNat'] at this
  exact absurd this (by simp; omega)

theorem Profile.checkItems_eq_ok {p : Profile} (h : p.checkItems = .ok ()) (s : Sensor) :
    p.definition.items.get s ≤ 9999 := by
  rw [checkItems] at h
  split at h
  · exact absurd h (by simp)
  next hnone =>
  have := List.find?_eq_none.mp hnone (p.definition.items.get s)
    (List.mem_map.mpr ⟨s, s.mem_all, rfl⟩)
  rw [decide_eq_true_iff] at this
  exact Nat.le_of_not_lt this

theorem Profile.dataPackets_eq_ok {p : Profile} {data : List DataPacket}
    (h : (p.payloads.zipIdx 1).mapM (fun x => p.dataPacket x.2 x.1) = .ok data) :
    data.length = p.payloads.length ∧ ∀ (k : Nat) d, data[k]? = some d →
      ∃ x, p.payloads[k]? = some x ∧ p.dataPacket (k + 1) x = .ok d := by
  obtain ⟨hlen, hget⟩ := mapM_eq_ok h
  rw [List.length_zipIdx] at hlen
  refine ⟨hlen, fun k d hd => ?_⟩
  obtain ⟨⟨x, m⟩, hx, hok⟩ := hget k d hd
  rw [List.getElem?_zipIdx, Option.map_eq_some_iff] at hx
  obtain ⟨y, hy, he⟩ := hx
  obtain ⟨rfl, rfl⟩ := Prod.mk.inj he
  exact ⟨y, hy, by rwa [Nat.add_comm] at hok⟩

/-- the payloads go into the Data Packets one by one -/
theorem Profile.data_of_package {p : Profile} {i : Instructions} {pkg : Package}
    (h : p.package i = .ok pkg) :
    pkg.data.length = p.payloads.length ∧ ∀ (k : Nat) d, pkg.data[k]? = some d →
      ∃ x, p.payloads[k]? = some x ∧ p.dataPacket (k + 1) x = .ok d := by
  obtain ⟨-, -, h⟩ := bind_eq_ok h
  obtain ⟨-, -, h⟩ := bind_eq_ok h
  obtain ⟨data, hdata, h⟩ := bind_eq_ok h
  obtain rfl := Except.ok.inj h
  exact dataPackets_eq_ok hdata

theorem Profile.package_eq_ok {p : Profile} {i : Instructions} {pkg : Package}
    (h : p.package i = .ok pkg) :
    pkg.info = ⟨p.serial, p.profile, p.definition⟩ ∧ pkg.stages = i.stages ∧
      pkg.burstSize = i.burstSize ∧ pkg.Packaged := by
  obtain ⟨hlen, hall⟩ := data_of_package h
  obtain ⟨⟨⟩, hvalid, h⟩ := bind_eq_ok h
  obtain ⟨⟨⟩, hcheck, h⟩ := bind_eq_ok h
  obtain ⟨data, -, h⟩ := bind_eq_ok h
  obtain ⟨hsize, hbits⟩ := Instructions.validate_eq_ok hvalid
  rw [← Except.ok.inj h] at hlen hall
  dsimp only at hlen hall
  have hmem (d : DataPacket) (hd : d ∈ data) : ∃ k x, p.dataPacket (k + 1) x = .ok d := by
    obtain ⟨k, hk⟩ := List.getElem?_of_mem hd
    obtain ⟨x, -, hok⟩ := hall k d hk
    exact ⟨k, x, hok⟩
  have hwhole : ∀ x ∈ p.payloads, x.2.length % x.1.itemSize = 0 := by
    intro x hx
    obtain ⟨k, hk⟩ := List.getElem?_of_mem hx
    obtain ⟨hlt, -⟩ := List.getElem?_eq_some_iff.mp hk
    obtain ⟨d, hd⟩ : ∃ d, data[k]? = some d := ⟨data[k], List.getElem?_eq_getElem (by omega)⟩
    obtain ⟨y, hy, hok⟩ := hall k d hd
    rw [hk] at hy
    obtain rfl := Option.some.inj hy
    exact (dataPacket_eq_ok hok).2.1
  rw [← Except.ok.inj h]
  refine ⟨rfl, rfl, rfl, hsize, hbits, fun s => checkItems_eq_ok hcheck s, ?_, ?_, ?_, ?_, ?_⟩
  · show data.length = p.definition.total
    rw [hlen, p.length_payloads hwhole (checkItems_eq_ok hcheck)]
  · show data.length ≤ mostPackets
    rcases Nat.eq_zero_or_pos data.length with hz | hpos
    · omega
    · obtain ⟨k, hk⟩ : ∃ k, data.length = k + 1 := ⟨data.length - 1, by omega⟩
      obtain ⟨x, -, hok⟩ := hall k data[k] (List.getElem?_eq_getElem (by omega))
      have := (dataPacket_eq_ok hok).1
      omega
  · intro d hd
    obtain ⟨k, x, hok⟩ := hmem d hd
    exact (dataPacket_eq_ok hok).2.2.2.2.2 (Nat.succ_ne_zero k)
  · intro n d hd
    obtain ⟨x, -, hok⟩ := hall n d hd
    exact (dataPacket_eq_ok hok).2.2.1
  · intro d hd
    obtain ⟨k, x, hok⟩ := hmem d hd
    obtain ⟨-, -, -, hserial, hprofile, -⟩ := dataPacket_eq_ok hok
    exact ⟨hserial, hprofile⟩

end Shoreline
