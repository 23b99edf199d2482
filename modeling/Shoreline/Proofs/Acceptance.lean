import Shoreline.Proofs.Shipment

/-!
# What is accepted for sending

A cast that was gathered by a builder holds whole items.  With at most 9999 items of each class it can
be packaged under all valid instructions, and a sender can be made of the package: the Data Packets
stay so small that their sizes fit into the header and their pieces into 998 bursts, whatever the burst
size.  The one thing to be asked for is that deflating does not blow up (`Deflate.Bounded`).

* `Builder.dvd_of_built`   a builder holds whole items;
* `Profile.exists_package` the cast is packaged, each payload in its Data Packet;
* `DataPacket.exists_encode`   a Data Packet is encoded to at most 32614 bytes;
* `Sender.exists_new`      a sender is made.
-/

namespace Shoreline

theorem exists_mapM {ε α β : Type} {f : α → Except ε β} {xs : List α}
    (h : ∀ x ∈ xs, ∃ y, f x = .ok y) : ∃ ys, xs.mapM f = .ok ys := by
  induction xs with
  | nil => exact ⟨[], rfl⟩
  | cons x xs ih =>
    obtain ⟨y, hy⟩ := h x List.mem_cons_self
    obtain ⟨ys, hys⟩ := ih fun z hz => h z (List.mem_cons_of_mem _ hz)
    refine ⟨y :: ys, ?_⟩
    rw [List.mapM_cons, hy, hys]
    rfl

/-! ## Whole items -/

/-- what becomes of a new builder by the operations that succeed -/
inductive Builder.Built : Builder → Prop where
  | new (serial profile : UInt16) : Built (.new serial profile)
  | setSensorId {b : Builder} (s : Sensor) (id : SensorId) : Built b → Built (b.setSensorId s id)
  | append {b b' : Builder} {s : Sensor} {items : Bytes} :
    Built b → b.append s items = .ok b' → Built b'
  | read {b b' : Builder} {s : Sensor} {source : Source} {n : Nat} :
    Built b → b.read s source = .ok (n, b') → Built b'

theorem Builder.dvd_append {b b' : Builder} {s : Sensor} {items : Bytes}
    (h : ∀ t : Sensor, t.itemSize ∣ (b.samples.get t).length) (hb : b.append s items = .ok b')
    (t : Sensor) : t.itemSize ∣ (b'.samples.get t).length := by
  rw [append] at hb
  split at hb
  · exact absurd hb (by simp)
  next hmod =>
  rw [← Except.ok.inj hb]
  by_cases ht : t = s
  · rw [ht, PerSensor.get_set, List.length_append]
    exact Nat.dvd_add (h s) (Nat.dvd_of_mod_eq_zero (Decidable.not_not.mp hmod))
  · rw [PerSensor.get_set_ne _ ht]
    exact h t

theorem Builder.dvd_of_built {b : Builder} (h : Built b) (t : Sensor) :
    t.itemSize ∣ (b.samples.get t).length := by
  induction h generalizing t with
  | new serial profile =>
    rw [new, PerSensor.get_of]
    exact Nat.dvd_zero _
  | setSensorId s id _ ih => exact ih t
  | append _ hb ih => exact dvd_append ih hb t
  | read _ hb ih =>
    obtain ⟨items, -, hb⟩ := bind_eq_ok hb
    obtain ⟨b'', happend, hb⟩ := bind_eq_ok hb
    obtain ⟨-, rfl⟩ := Prod.mk.inj (Except.ok.inj hb)
    exact dvd_append ih happend t

/-- every builder with whole items is made in this way -/
theorem Builder.built_iff {b : Builder} :
    Built b ↔ ∀ t : Sensor, t.itemSize ∣ (b.samples.get t).length := by
  refine ⟨dvd_of_built, fun h => ?_⟩
  obtain ⟨serial, profile, ⟨i₁, i₂, i₃, i₄⟩, ⟨b₁, b₂, b₃, b₄⟩⟩ := b
  have hwhole (t : Sensor) := not_not_intro (Nat.mod_eq_zero_of_dvd (h t))
  have hids : Built ⟨serial, profile, ⟨i₁, i₂, i₃, i₄⟩, ⟨[], [], [], []⟩⟩ :=
    ((((Built.new serial profile).setSensorId .starboard i₁).setSensorId .port i₂).setSensorId
      .ocr i₃).setSensorId .mcoms i₄
  have h₁ : Built ⟨serial, profile, ⟨i₁, i₂, i₃, i₄⟩, ⟨b₁, [], [], []⟩⟩ :=
    hids.append (if_neg (hwhole .starboard))
  have h₂ : Built ⟨serial, profile, ⟨i₁, i₂, i₃, i₄⟩, ⟨b₁, b₂, [], []⟩⟩ :=
    h₁.append (if_neg (hwhole .port))
  have h₃ : Built ⟨serial, profile, ⟨i₁, i₂, i₃, i₄⟩, ⟨b₁, b₂, b₃, []⟩⟩ :=
    h₂.append (if_neg (hwhole .ocr))
  exact h₃.append (if_neg (hwhole .mcoms))

/-! ## Packaging -/

theorem dvd_of_mem_chunks {α : Type} {n d : Nat} (hn : 0 < n) (hd : d ∣ n) (xs : List α)
    (h : d ∣ xs.length) : ∀ c ∈ chunks n xs, d ∣ c.length := by
  intro c hc
  by_cases hx : xs = []
  · rw [hx, chunks_nil] at hc
    exact absurd hc (by simp)
  · rw [chunks_of_ne_nil n hn xs hx] at hc
    rcases List.mem_cons.mp hc with rfl | hc
    · rw [List.length_take]
      rcases Nat.le_total n xs.length with hle | hle
      · rwa [Nat.min_eq_left hle]
      · rwa [Nat.min_eq_right hle]
    · refine dvd_of_mem_chunks hn hd (xs.drop n) ?_ c hc
      rw [List.length_drop]
      exact Nat.dvd_sub h hd
termination_by xs.length
decreasing_by
  have := List.length_pos_iff.mpr hx
  simp only [List.length_drop]
  omega

/-- the bytes of a full packet, of whichever class -/
theorem Sensor.fullSize (s : Sensor) : s.itemsPerPacket * s.itemSize = 8000 := by cases s <;> rfl

namespace Profile
variable {p : Profile}

theorem mem_payloads {x : Sensor × Bytes} (h : x ∈ p.payloads) :
    x.2 ∈ chunks (x.1.itemsPerPacket * x.1.itemSize) (p.samples.get x.1) := by
  obtain ⟨s, -, hs⟩ := List.mem_flatMap.mp h
  obtain ⟨c, hc, rfl⟩ := List.mem_map.mp hs
  exact hc

theorem length_payload_le {x : Sensor × Bytes} (h : x ∈ p.payloads) : x.2.length ≤ 8000 := by
  have := length_le_of_mem_chunks _ (by rw [x.1.fullSize]; decide) _ _ (mem_payloads h)
  rwa [x.1.fullSize] at this

theorem payload_of_dataPacket {n : Nat} {x : Sensor × Bytes} {d : DataPacket}
    (h : p.dataPacket n x = .ok d) :
    d.header.sensor = x.1 ∧ d.header.sensorId = p.sensorIds.get x.1 ∧ d.payload = x.2 := by
  rw [dataPacket] at h
  split at h
  · exact absurd h (by simp)
  rw [DataPacket.ofPayload] at h
  split at h
  · exact absurd h (by simp)
  split at h
  · exact absurd h (by simp)
  · rw [← Except.ok.inj h]
    exact ⟨rfl, rfl, rfl⟩

theorem payloads_of_package {i : Instructions} {pkg : Package} (h : p.package i = .ok pkg) :
    pkg.data.map (fun d => (d.header.sensor, d.payload)) = p.payloads := by
  obtain ⟨hlen, hget⟩ := data_of_package h
  refine List.ext_getElem (by rw [List.length_map, hlen]) fun k hk hk' => ?_
  rw [List.length_map] at hk
  obtain ⟨x, hx, hok⟩ := hget k pkg.data[k] (List.getElem?_eq_getElem hk)
  obtain ⟨hsensor, -, hpayload⟩ := payload_of_dataPacket hok
  rw [List.getElem_map, hsensor, hpayload]
  exact (List.getElem?_eq_some_iff.mp hx).2.symm

theorem length_le_of_package {i : Instructions} {pkg : Package} (h : p.package i = .ok pkg) :
    ∀ d ∈ pkg.data, d.payload.length ≤ 8000 := fun d hd =>
  length_payload_le (x := (d.header.sensor, d.payload))
    (payloads_of_package h ▸ List.mem_map.mpr ⟨d, hd, rfl⟩)

theorem exists_dataPacket {n : Nat} {x : Sensor × Bytes} (hn : n ≤ mostPackets)
    (hmod : x.2.length % x.1.itemSize = 0) (hlen : x.2.length ≤ 8000) :
    ∃ d, p.dataPacket n x = .ok d := by
  have hitems : x.2.length / x.1.itemSize ≤ mostItems :=
    Nat.le_trans (Nat.div_le_self _ _) (Nat.le_trans hlen (by decide))
  rw [dataPacket, if_neg (Nat.not_lt.mpr hn), DataPacket.ofPayload, if_neg (not_not_intro hmod),
    if_neg (Nat.not_lt.mpr hitems)]
  exact ⟨_, rfl⟩

theorem checkItems_of_le (hitems : ∀ s, p.definition.items.get s ≤ mostItems) :
    p.checkItems = .ok () := by
  have hnone : p.definition.items.toList.find? (mostItems < ·) = none := by
    refine List.find?_eq_none.mpr fun n hn => ?_
    obtain ⟨s, -, rfl⟩ := List.mem_map.mp hn
    rw [decide_eq_true_iff]
    exact Nat.not_lt.mpr (hitems s)
  rw [checkItems, hnone]

/-- a cast of whole items is packaged; the payloads go into the Data Packets one by one -/
theorem exists_package (hwhole : ∀ s : Sensor, s.itemSize ∣ (p.samples.get s).length)
    (hitems : ∀ s, p.definition.items.get s ≤ mostItems) {i : Instructions}
    (hi : i.validate = .ok ()) :
    ∃ pkg, p.package i = .ok pkg ∧
      pkg.data.map (fun d => (d.header.sensor, d.payload)) = p.payloads := by
  have hmod : ∀ x ∈ p.payloads, x.2.length % x.1.itemSize = 0 := fun x hx =>
    Nat.mod_eq_zero_of_dvd (dvd_of_mem_chunks (by rw [x.1.fullSize]; decide) (Nat.dvd_mul_left _ _)
      _ (hwhole x.1) _ (mem_payloads hx))
  have hcount : p.payloads.length ≤ 290 := p.length_payloads hmod hitems ▸ Definition.total_le hitems
  obtain ⟨data, hdata⟩ : ∃ data,
      (p.payloads.zipIdx 1).mapM (fun x => p.dataPacket x.2 x.1) = .ok data := by
    refine exists_mapM fun x hx => ?_
    obtain ⟨k, hk⟩ := List.getElem?_of_mem hx
    rw [List.getElem?_zipIdx, Option.map_eq_some_iff] at hk
    obtain ⟨y, hy, rfl⟩ := hk
    have hmem := List.mem_of_getElem? hy
    have hlt := (List.getElem?_eq_some_iff.mp hy).1
    exact exists_dataPacket (by show 1 + k ≤ 9999; omega) (hmod y hmem) (length_payload_le hmem)
  have hok : p.package i = .ok ⟨⟨p.serial, p.profile, p.definition⟩, data, i.stages, i.burstSize⟩ := by
    rw [package, hi, checkItems_of_le hitems]
    dsimp only [bind, Except.bind]
    rw [hdata]
  exact ⟨_, hok, payloads_of_package hok⟩

/-- the payloads of a class are the pieces of its items -/
theorem payloads_of_class (p : Profile) (c : Sensor) :
    (p.payloads.filter fun x => x.1 = c).map Prod.snd =
      chunks (c.itemsPerPacket * c.itemSize) (p.samples.get c) := by
  have hclass (s : Sensor) :
      ((((chunks (s.itemsPerPacket * s.itemSize) (p.samples.get s)).map fun b =>
        (s, b)).filter fun x => x.1 = c).map Prod.snd) =
      if s = c then chunks (c.itemsPerPacket * c.itemSize) (p.samples.get c) else [] := by
    split
    · next hs =>
      rw [hs, List.filter_eq_self.mpr fun x hx => ?_, List.map_map]
      · exact List.map_id _
      · obtain ⟨b, -, rfl⟩ := List.mem_map.mp hx
        exact decide_eq_true rfl
    · next hs =>
      rw [List.filter_eq_nil_iff.mpr fun x hx => ?_, List.map_nil]
      obtain ⟨b, -, rfl⟩ := List.mem_map.mp hx
      rw [decide_eq_true_iff]
      exact hs
  rw [payloads, List.filter_flatMap, List.map_flatMap]
  simp only [hclass]
  cases c <;> simp [Sensor.all]

end Profile

/-! ## Sizes -/

/-- deflating may add a little and a frame, but does not blow up: every writer can fall back on stored
blocks, five bytes for each -/
def Deflate.Bounded [Deflate.Encoder] : Prop :=
  ∀ b, (Deflate.Encoder.encode b).length ≤ 2 * b.length + 256

theorem Deflate.length_storedBlocks_le (bs : List Bytes) :
    (storedBlocks bs).length ≤ bs.flatten.length + 5 * bs.length + 5 := by
  have hblock (isLast : Bool) (b : Bytes) : (storedBlock isLast b).length = b.length + 5 := by
    rw [storedBlock, List.length_cons, List.length_append, List.length_append, length_ofWord,
      length_ofWord]
    omega
  fun_induction storedBlocks bs with
  | case1 => exact Nat.le_of_eq (hblock true [])
  | case2 b =>
    rw [hblock, List.flatten_singleton, List.length_singleton]
    omega
  | case3 b bs _ ih =>
    rw [List.length_append, hblock, List.flatten_cons, List.length_append, List.length_cons]
    omega

theorem Deflate.bounded_stored : Deflate.Bounded := by
  intro b
  have hle := length_storedBlocks_le (chunks blockSize b)
  rw [chunks_flatten blockSize (by decide), length_chunks (by decide)] at hle
  show (storedBlocks (chunks blockSize b)).length ≤ _
  simp only [blockSize] at hle ⊢
  omega

theorem length_flatMap_le {α β : Type} {xs : List α} {f : α → List β} {m : Nat}
    (h : ∀ x ∈ xs, (f x).length ≤ m) : (xs.flatMap f).length ≤ xs.length * m := by
  induction xs with
  | nil => exact Nat.zero_le _
  | cons x xs ih =>
    have hx := h x List.mem_cons_self
    have hxs := ih fun y hy => h y (List.mem_cons_of_mem _ hy)
    rw [List.flatMap_cons, List.length_append, List.length_cons, Nat.succ_mul]
    omega

namespace Body

theorem length_armor_le (e : Encoding) (b : Bytes) : (armor e b).length ≤ 2 * b.length + 8 := by
  cases e with
  | none =>
    show b.length ≤ _
    omega
  | base85 =>
    have hgroup : ∀ g ∈ chunks 4 b, (Base85.encodeGroup g).length ≤ 5 := by
      intro g _
      rw [Base85.encodeGroup]
      split
      · exact Nat.le_of_ble_eq_true rfl
      · rw [List.length_map, List.length_take]
        exact Nat.min_le_right _ _
    have hlen := length_flatMap_le hgroup
    rw [length_chunks (by decide)] at hlen
    show (Base85.encode b).length ≤ _
    rw [Base85.encode]
    omega
  | base64 =>
    have hgroup : ∀ g ∈ chunks 3 b, (Base64.encodeGroup g).length ≤ 4 := fun g hg =>
      Nat.le_of_eq (Base64.length_encodeGroup (length_le_of_mem_chunks 3 (by decide) b g hg))
    have hlen := length_flatMap_le hgroup
    rw [length_chunks (by decide)] at hlen
    show (Base64.encode b).length ≤ _
    rw [Base64.encode]
    omega

/-- bit planes are filled up to whole bytes, one for each of at most 16 planes -/
theorem stagedSize_le (l : Layout) (noise : Noise) (n : Nat) : stagedSize l noise n ≤ n + 14 := by
  cases noise with
  | untransposed => exact Nat.le_add_right _ _
  | removed k =>
    have hsamples : 2 * l.sampleCount n ≤ n := by
      have hdiv := Nat.div_mul_le_self n l.itemSize
      have hsize : 2 * l.samplesPerItem ≤ l.itemSize := by
        rw [l.itemSize_eq]
        omega
      have hmul := Nat.mul_le_mul_left (n / l.itemSize) hsize
      rw [Nat.mul_left_comm] at hmul
      exact Nat.le_trans hmul hdiv
    have hplanes : Planes.size (l.sampleCount n) k ≤ 16 * ((l.sampleCount n + 7) / 8) :=
      Nat.mul_le_mul_right _ (Nat.sub_le _ _)
    show Planes.size (l.sampleCount n) k + l.rawSize n ≤ n + 14
    rw [Layout.rawSize]
    omega

end Body

/-- what needs at most 998 of the smallest bursts can be framed in bursts of any permitted size -/
theorem Framed.exists_frame (key : PacketKey) {packet : Bytes} {size : Nat}
    (hsize : size ∈ burstSizes) (hlen : packet.length ≤ mostBursts * 128) :
    ∃ f, frame key packet size = .ok f := by
  have hmin := (mem_burstSizes hsize).1
  have hneeded : needed packet.length size ≤ mostBursts := by
    rw [needed, ← Nat.lt_succ_iff, Nat.div_lt_iff_lt_mul (by omega)]
    have hmul := Nat.mul_le_mul_left mostBursts hmin
    rw [Nat.succ_mul]
    omega
  exact ⟨_, frame_eq_ok_iff.mpr ⟨hsize, hneeded, rfl⟩⟩

section
variable [Deflate.Encoder]

theorem Body.length_compress_le {c : Compression} (hc : c = .deflate → Deflate.Bounded)
    (b : Bytes) : (compress c b).length ≤ 2 * b.length + 256 := by
  cases c with
  | none =>
    show b.length ≤ _
    omega
  | deflate => exact hc rfl b

theorem Body.encoded_le {l : Layout} (hl : 0 < l.itemSize) {s : Stages}
    (hs : s.compression = .deflate → Deflate.Bounded) {payload : Bytes} {e : Encoded}
    (h : encode l s payload = .ok e) :
    e.compressedSize ≤ 2 * payload.length + 284 ∧ e.body.length ≤ 4 * payload.length + 576 := by
  obtain ⟨staged, hstage, he⟩ := bind_eq_ok h
  have hlen := length_stage l hl payload s hstage
  have hstaged := stagedSize_le l s.noise payload.length
  have hcompressed := length_compress_le hs staged
  have hbody := length_armor_le s.encoding (compress s.compression staged)
  rw [← Except.ok.inj he]
  dsimp only
  omega

theorem DataPacket.exists_encode {d : DataPacket} {s : Stages} (hd : d.payload.length ≤ 8000)
    (hs : s.compression = .deflate → Deflate.Bounded) :
    ∃ b, d.encode s = .ok b ∧ b.length ≤ 32614 := by
  have hl := Layout.itemSize_ofSensor_pos d.header.sensor
  obtain ⟨e, he⟩ := Body.exists_encode (.ofSensor d.header.sensor) hl s d.payload
  obtain ⟨hcompressed, hencoded⟩ := Body.encoded_le hl hs he
  have hsize : e.compressedSize ≤ mostBytes := by
    show e.compressedSize ≤ 999999
    omega
  have hbody : e.body.length ≤ mostBytes := by
    show e.body.length ≤ 999999
    omega
  refine ⟨{ d.header with
    stages := s
    compressedSize := UInt32.ofNat e.compressedSize
    encodedSize := UInt32.ofNat e.body.length }.render ++ e.body, ?_, ?_⟩
  · have h₁ : sizeField .compressedSize e.compressedSize = .ok (UInt32.ofNat e.compressedSize) :=
      if_neg (Nat.not_lt.mpr hsize)
    have h₂ : sizeField .encodedSize e.body.length = .ok (UInt32.ofNat e.body.length) :=
      if_neg (Nat.not_lt.mpr hbody)
    rw [encode, he]
    dsimp only [bind, Except.bind]
    rw [h₁]
    dsimp only
    rw [h₂]
  · rw [List.length_append, DataHeader.length_render]
    show 38 + e.body.length ≤ 32614
    omega

theorem Sender.exists_new {pkg : Package} (hsize : pkg.burstSize ∈ burstSizes)
    (hdata : ∀ d ∈ pkg.data, d.payload.length ≤ 8000)
    (hs : pkg.stages.compression = .deflate → Deflate.Bounded) (sc : SenderConfig) (now : Nat) :
    ∃ s, Sender.new pkg sc now = .ok s := by
  have hrender : pkg.info.render.length ≤ mostBursts * 128 := by
    rw [InfoPacket.length_render]
    decide
  obtain ⟨info, hinfo⟩ :=
    Framed.exists_frame ⟨⟨pkg.info.serial, pkg.info.profile⟩, 0⟩ hsize hrender
  obtain ⟨data, hframed⟩ : ∃ data, pkg.data.mapM (fun d => do
      let packet ← d.encode pkg.stages
      Framed.frame ⟨⟨pkg.info.serial, pkg.info.profile⟩, d.header.packet⟩ packet
        pkg.burstSize) = .ok data := by
    refine exists_mapM fun d hd => ?_
    obtain ⟨packet, hpacket, hlen⟩ := DataPacket.exists_encode (hdata d hd) hs
    obtain ⟨f, hf⟩ := Framed.exists_frame
      ⟨⟨pkg.info.serial, pkg.info.profile⟩, d.header.packet⟩ hsize
      (Nat.le_trans hlen (by decide))
    exact ⟨f, by rw [hpacket]; exact hf⟩
  rw [new, hinfo]
  dsimp only [bind, Except.bind] at hframed ⊢
  rw [hframed]
  exact ⟨_, rfl⟩

end

end Shoreline
