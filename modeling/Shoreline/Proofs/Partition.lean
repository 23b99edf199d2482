import Shoreline.Proofs.Acquisition

/-!
# Packaging is a partition

The Data Packets of a package are numbered from 1 without a gap, and they come class by class; those of
one class are its items cut up, all of them full but the last.  The Info Packet, which the receiver
counts by, says as many packets of each class as there are, and is read back from its bytes.

* `numbers_of_package`   the numbers;
* `sensors_of_package`   the classes, each as often as the definition counts its packets;
* `payloads_ofClass`     the payloads of a class are the pieces of its items;
* `header_ofClass`       the sensor id and the items of each packet of a class;
* `package_partitions`   all of it, for whatever is acquired.
-/

namespace Shoreline

/-- the Data Packets of a class, in order -/
def Package.ofClass (pkg : Package) (c : Sensor) : List DataPacket :=
  pkg.data.filter fun d => d.header.sensor = c

theorem Definition.packets_eq_zero_iff (d : Definition) (c : Sensor) :
    d.packets c = 0 ↔ d.items.get c = 0 := by
  have hpos := c.itemsPerPacket_pos
  rw [packets, Sensor.packetsFor, Nat.div_eq_zero_iff]
  omega

namespace Profile
variable {p : Profile} {i : Instructions} {pkg : Package}

theorem numbers_of_package (h : p.package i = .ok pkg) :
    pkg.data.map (fun d => d.header.packet.toNat) =
      List.range' 1 pkg.info.definition.total := by
  obtain ⟨-, -, -, hpackaged⟩ := package_eq_ok h
  have hmost : pkg.data.length ≤ 9999 := hpackaged.length_le
  refine List.ext_getElem (by rw [List.length_map, List.length_range', hpackaged.total]) ?_
  intro k hk _
  rw [List.length_map] at hk
  rw [List.getElem_map, List.getElem_range',
    hpackaged.numbered k _ (List.getElem?_eq_getElem hk), UInt16.toNat_ofNat']
  omega

theorem sensors_of_payloads (hwhole : ∀ c : Sensor, c.itemSize ∣ (p.samples.get c).length)
    (hitems : ∀ c, p.definition.items.get c ≤ mostItems) :
    p.payloads.map Prod.fst =
      Sensor.all.flatMap fun c => List.replicate (p.definition.packets c) c := by
  rw [payloads, List.map_flatMap]
  congr 1
  funext c
  rw [List.map_map, ← p.length_pieces (hwhole c) (hitems c)]
  exact List.map_const'

theorem sensors_of_package (hwhole : ∀ c : Sensor, c.itemSize ∣ (p.samples.get c).length)
    (h : p.package i = .ok pkg) :
    pkg.data.map (fun d => d.header.sensor) =
      Sensor.all.flatMap fun c => List.replicate (pkg.info.definition.packets c) c := by
  obtain ⟨hinfo, -, -, hpackaged⟩ := package_eq_ok h
  have hitems : ∀ c, pkg.info.definition.items.get c ≤ mostItems := hpackaged.fits
  rw [hinfo] at hitems
  rw [hinfo, ← sensors_of_payloads hwhole hitems, ← payloads_of_package h, List.map_map]
  rfl

theorem payloads_ofClass (h : p.package i = .ok pkg) (c : Sensor) :
    (pkg.ofClass c).map (fun d => d.payload) =
      chunks (c.itemsPerPacket * c.itemSize) (p.samples.get c) := by
  rw [← p.payloads_of_class c, ← payloads_of_package h, List.filter_map, List.map_map]
  rfl

theorem header_ofClass (h : p.package i = .ok pkg) {c : Sensor} {d : DataPacket}
    (hd : d ∈ pkg.ofClass c) :
    d.header.sensorId = p.sensorIds.get c ∧
      d.payload.length = d.header.itemCount.toNat * c.itemSize := by
  obtain ⟨hmem, hclass⟩ := List.mem_filter.mp hd
  rw [decide_eq_true_iff] at hclass
  obtain ⟨k, hk⟩ := List.getElem?_of_mem hmem
  obtain ⟨x, -, hok⟩ := (data_of_package h).2 k d hk
  obtain ⟨hsensor, hid, -⟩ := payload_of_dataPacket hok
  have hlen := ((package_eq_ok h).2.2.2.wellFormed d hmem).payload
  rw [DataHeader.payloadSize, hclass] at hlen
  exact ⟨by rw [hid, ← hsensor, hclass], hlen⟩

/-- every packet of a class is full but the last, which is not empty -/
theorem itemCount_ofClass (h : p.package i = .ok pkg) {c : Sensor} {k : Nat} {d : DataPacket}
    (hd : (pkg.ofClass c)[k]? = some d) :
    1 ≤ d.header.itemCount.toNat ∧ d.header.itemCount.toNat ≤ c.itemsPerPacket ∧
      (k + 1 < (pkg.ofClass c).length → d.header.itemCount.toNat = c.itemsPerPacket) := by
  have hpos := Nat.mul_pos c.itemsPerPacket_pos c.itemSize_pos
  have hpiece : (chunks (c.itemsPerPacket * c.itemSize) (p.samples.get c))[k]? =
      some d.payload := by
    rw [← payloads_ofClass h c, List.getElem?_map, hd]
    rfl
  have hcount : (chunks (c.itemsPerPacket * c.itemSize) (p.samples.get c)).length =
      (pkg.ofClass c).length := by
    rw [← payloads_ofClass h c, List.length_map]
  obtain ⟨-, hlen⟩ := header_ofClass h (List.mem_of_getElem? hd)
  obtain ⟨hone, hle, hfull⟩ := length_of_getElem?_chunks hpos hpiece
  rw [hlen] at hone hle hfull
  rw [hcount] at hfull
  refine ⟨?_, Nat.le_of_mul_le_mul_right hle c.itemSize_pos, fun hk => ?_⟩
  · exact Nat.pos_of_mul_pos_right hone
  · exact Nat.eq_of_mul_eq_mul_right c.itemSize_pos (hfull hk)

/-- for whatever is acquired and packaged: the Data Packets are the acquired items, cut up and numbered
class by class, and the Info Packet says so -/
theorem package_partitions {serial profile : UInt16} {calls : List Builder.Call}
    (h : (((Builder.new serial profile).acquire calls).finalize).package i = .ok pkg) :
    let cast := ((Builder.new serial profile).acquire calls).finalize
    let counts := pkg.info.definition
    pkg.data.map (fun d => d.header.packet.toNat) = List.range' 1 counts.total ∧
    pkg.data.map (fun d => d.header.sensor) =
      Sensor.all.flatMap (fun c => List.replicate (counts.packets c) c) ∧
    (∀ c,
      ((pkg.ofClass c).map fun d => d.payload).flatten = cast.samples.get c ∧
      (cast.samples.get c).length = counts.items.get c * c.itemSize ∧
      (pkg.ofClass c).length = counts.packets c ∧
      (counts.packets c = 0 ↔ counts.items.get c = 0) ∧
      ∀ k d, (pkg.ofClass c)[k]? = some d →
        d.header.sensorId = cast.sensorIds.get c ∧
        d.payload.length = d.header.itemCount.toNat * c.itemSize ∧
        1 ≤ d.header.itemCount.toNat ∧ d.header.itemCount.toNat ≤ c.itemsPerPacket ∧
        (k + 1 < (pkg.ofClass c).length → d.header.itemCount.toNat = c.itemsPerPacket)) ∧
    InfoPacket.parse pkg.info.render = .ok pkg.info := by
  intro cast counts
  have hwhole := Builder.dvd_acquire serial profile calls
  obtain ⟨hinfo, -, -, hpackaged⟩ := package_eq_ok h
  have hcounts : counts = cast.definition := by
    show pkg.info.definition = _
    rw [hinfo]
  have hitems : ∀ c, counts.items.get c ≤ mostItems := hpackaged.fits
  rw [hcounts] at hitems
  refine ⟨numbers_of_package h, sensors_of_package hwhole h, fun c => ⟨?_, ?_, ?_, ?_, ?_⟩,
    InfoPacket.parse_render pkg.info hpackaged.fits⟩
  · rw [payloads_ofClass h c, chunks_flatten _ (Nat.mul_pos c.itemsPerPacket_pos c.itemSize_pos)]
  · rw [hcounts, items_definition (hitems c), Nat.div_mul_cancel (hwhole c)]
  · rw [hcounts, ← length_pieces _ (hwhole c) (hitems c), ← payloads_ofClass h c, List.length_map]
  · exact counts.packets_eq_zero_iff c
  · intro k d hd
    obtain ⟨hid, hlen⟩ := header_ofClass h (List.mem_of_getElem? hd)
    exact ⟨hid, hlen, itemCount_ofClass h hd⟩

/-- three packets: the 101 items of one class fill one and begin another -/
theorem interrupted_cast_partitioned :
    let cast := ((Builder.new 770 12345).acquire Builder.interruptedCalls).finalize
    ∃ pkg, cast.package .standard = .ok pkg ∧
      pkg.data.map (fun d => d.header.packet.toNat) = [1, 2, 3] ∧
      pkg.data.map (fun d => d.header.sensor) = [.port, .port, .mcoms] ∧
      ((pkg.ofClass .port).map fun d => d.payload).flatten = cast.samples.get .port ∧
      (∀ d, (pkg.ofClass .port)[0]? = some d →
        d.header.sensorId = .ofText "PORT-504" ∧ d.header.itemCount.toNat = 100) ∧
      InfoPacket.parse pkg.info.render = .ok pkg.info := by
  intro cast
  have hcounts : cast.definition = ⟨⟨0, 101, 0, 2⟩⟩ := by decide +kernel
  obtain ⟨pkg, hpkg, -⟩ := exists_package (p := cast) (i := .standard)
    (Builder.dvd_acquire 770 12345 Builder.interruptedCalls)
    (fun c => by rw [hcounts]; cases c <;> decide) rfl
  obtain ⟨hnumbers, hsensors, hclass, hinfo⟩ := package_partitions hpkg
  have hdefinition : pkg.info.definition = ⟨⟨0, 101, 0, 2⟩⟩ := by
    rw [(package_eq_ok hpkg).1]
    exact hcounts
  rw [hdefinition] at hnumbers hsensors
  obtain ⟨hpayloads, -, hlen, -, hget⟩ := hclass .port
  refine ⟨pkg, hpkg, hnumbers, hsensors, hpayloads, fun d hd => ?_, hinfo⟩
  obtain ⟨hid, -, -, -, hfull⟩ := hget 0 d hd
  refine ⟨hid, hfull ?_⟩
  rw [hlen, hdefinition]
  decide

end Profile

end Shoreline
