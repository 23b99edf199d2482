import Shoreline.Packet
import Shoreline.Proofs.Body
import Shoreline.Proofs.Fields

/-!
# Packets are read back

An Info Packet is read back as it was written.  A Data Packet is read back with the stages and sizes
in its header and with the rounded payload, whatever stands behind it.

* `DataHeader.parse_render`    headers;
* `DataPacket.decode_encode`   Data Packets;
* `InfoPacket.parse_render`    Info Packets;
* `Packet.decode_encode`, `Packet.decode_render`   either, told apart by the packet number.
-/

namespace Shoreline

theorem getD_add (a b : Bytes) {i : Nat} (ha : a.length = i) (j : Nat) :
    (a ++ b).getD (i + j) 0 = b.getD j 0 := by
  rw [List.getD_eq_getElem?_getD, List.getD_eq_getElem?_getD,
    List.getElem?_append_right (by omega), ha, Nat.add_sub_cancel_left]

theorem SensorId.ofBytes_bytes (id : SensorId) : SensorId.ofBytes id.bytes = id := by
  have h : (id.bytes ++ List.replicate 10 32).take 10 = id.bytes := by
    rw [← id.length_bytes, List.take_left]
  obtain ⟨b, hb⟩ := id
  simp only [SensorId.ofBytes, h]

theorem Stages.parse_codes (s : Stages) (hk : s.noise.bits ≤ Noise.most) {i : Nat} (a b : Bytes)
    (ha : a.length = i) : Stages.parse i (a ++ (s.codes ++ b)) = .ok s := by
  have h₀ : (a ++ (s.codes ++ b)).getD i 0 = s.representation.code :=
    getD_add a _ ha 0
  have h₁ : (a ++ (s.codes ++ b)).getD (i + 1) 0 = s.noise.code := getD_add a _ ha 1
  have h₂ : (a ++ (s.codes ++ b)).getD (i + 2) 0 = s.compression.code := getD_add a _ ha 2
  have h₃ : (a ++ (s.codes ++ b)).getD (i + 3) 0 = s.encoding.code := getD_add a _ ha 3
  rw [Stages.parse, h₀, h₁, h₂, h₃, stageLetter, stageLetter, stageLetter, stageLetter,
    Representation.ofCode?_code, Noise.ofCode?_code _ hk, Compression.ofCode?_code,
    Encoding.ofCode?_code]
  rfl

theorem Noise.bits_of_ofCode? {c : UInt8} {noise : Noise} (h : ofCode? c = some noise) :
    noise.bits ≤ most := by
  rw [ofCode?] at h
  split at h
  · rw [← Option.some.inj h]
    exact Nat.zero_le _
  split at h
  next hc =>
    rw [← Option.some.inj h]
    have hle : c.toNat ≤ 55 := hc.2
    show c.toNat - 48 ≤ 7
    omega
  · exact absurd h (by simp)

theorem Stages.bits_of_parse {i : Nat} {b : Bytes} {s : Stages} (h : parse i b = .ok s) :
    s.noise.bits ≤ Noise.most := by
  obtain ⟨representation, -, h⟩ := bind_eq_ok h
  obtain ⟨noise, hnoise, h⟩ := bind_eq_ok h
  obtain ⟨compression, -, h⟩ := bind_eq_ok h
  obtain ⟨encoding, -, h⟩ := bind_eq_ok h
  rw [← Except.ok.inj h]
  exact Noise.bits_of_ofCode? (orFault_eq_ok hnoise)

/-! ## Headers -/

namespace DataHeader

structure Fits (h : DataHeader) : Prop where
  packet : h.packet ≠ 0
  itemCount : h.itemCount.toNat ≤ 9999
  bits : h.stages.noise.bits ≤ Noise.most
  compressedSize : h.compressedSize.toNat ≤ 999999
  encodedSize : h.encodedSize.toNat ≤ 999999

def front (h : DataHeader) : Bytes :=
  ofWord h.serial ++ ofWord h.profile ++ ofWord h.packet ++ [h.sensor.code, 32]

theorem render_eq (h : DataHeader) :
    h.render = h.front ++ (h.sensorId.bytes ++ (decimal 4 h.itemCount.toNat ++ (h.stages.codes ++
      (decimal 6 h.compressedSize.toNat ++ decimal 6 h.encodedSize.toNat)))) := by
  simp only [render, front, List.append_assoc]

theorem length_render (h : DataHeader) : h.render.length = size := by
  have h₁ : h.front.length = 8 := rfl
  have h₂ : h.stages.codes.length = 4 := rfl
  simp only [render_eq, List.length_append, length_decimal, h.sensorId.length_bytes, h₁, h₂]
  rfl

theorem wordAt_render (h : DataHeader) (b : Bytes) :
    wordAt 0 (h.render ++ b) = h.serial ∧ wordAt 2 (h.render ++ b) = h.profile ∧
      wordAt 4 (h.render ++ b) = h.packet := by
  refine ⟨?_, ?_, ?_⟩
  · exact word_ofWord h.serial
  · exact word_ofWord h.profile
  · exact word_ofWord h.packet

theorem parse_render (h : DataHeader) (hf : h.Fits) (b : Bytes) : parse (h.render ++ b) = .ok h := by
  obtain ⟨h₀, h₂, h₄⟩ := h.wordAt_render b
  have hitems := hf.itemCount
  have hcomp := hf.compressedSize
  have henc := hf.encodedSize
  have hfront : h.front.length = 8 := rfl
  have hcodes : h.stages.codes.length = 4 := rfl
  have hid := h.sensorId.length_bytes
  have hlen : ((h.render ++ b).take size).length = size := by
    rw [List.length_take, List.length_append, length_render]
    omega
  have hsensor : (h.render ++ b).getD 6 0 = h.sensor.code := rfl
  have hslice₁ : slice 8 10 (h.render ++ b) = h.sensorId.bytes := by
    rw [render_eq, List.append_assoc, List.append_assoc]
    exact slice_mid _ hfront hid
  have hslice₂ : slice 18 4 (h.render ++ b) = decimal 4 h.itemCount.toNat := by
    rw [render_eq, ← List.append_assoc h.front, List.append_assoc (h.front ++ _),
      List.append_assoc (decimal 4 _)]
    refine slice_mid _ ?_ (length_decimal _ _)
    rw [List.length_append, hfront, hid]
  have hstages : Stages.parse 22 (h.render ++ b) = .ok h.stages := by
    rw [render_eq, ← List.append_assoc h.front, ← List.append_assoc (h.front ++ _),
      List.append_assoc, List.append_assoc h.stages.codes]
    refine Stages.parse_codes h.stages hf.bits _ _ ?_
    simp only [List.length_append, hfront, hid, length_decimal]
  have hslice₃ : slice 26 6 (h.render ++ b) = decimal 6 h.compressedSize.toNat := by
    rw [render_eq, ← List.append_assoc h.front, ← List.append_assoc (h.front ++ _),
      ← List.append_assoc (h.front ++ _ ++ _), List.append_assoc, List.append_assoc (decimal 6 _)]
    refine slice_mid _ ?_ (length_decimal _ _)
    simp only [List.length_append, hfront, hid, hcodes, length_decimal]
  have hslice₄ : slice 32 6 (h.render ++ b) = decimal 6 h.encodedSize.toNat := by
    rw [render_eq, ← List.append_assoc h.front, ← List.append_assoc (h.front ++ _),
      ← List.append_assoc (h.front ++ _ ++ _), ← List.append_assoc (h.front ++ _ ++ _ ++ _),
      List.append_assoc]
    refine slice_mid _ ?_ (length_decimal _ _)
    simp only [List.length_append, hfront, hid, hcodes, length_decimal]
  rw [parse, hlen, if_neg (Nat.lt_irrefl _), h₀, h₂, h₄, if_neg hf.packet, hsensor, hslice₁,
    hslice₂, hslice₃, hslice₄, hstages, Sensor.parse, Sensor.ofCode?_code,
    Field.number_decimal .itemCount (by decide) (by omega),
    Field.number_decimal .compressedSize (by decide) (by omega),
    Field.number_decimal .encodedSize (by decide) (by omega)]
  dsimp only [orFault, bind, Except.bind]
  rw [SensorId.ofBytes_bytes, UInt16.ofNat_toNat, UInt32.ofNat_toNat, UInt32.ofNat_toNat]

/-- `h` stands at the front of `b`, field by field -/
structure Found (b : Bytes) (h : DataHeader) : Prop where
  length : size ≤ b.length
  serial : h.serial = wordAt 0 b
  profile : h.profile = wordAt 2 b
  packet : h.packet = wordAt 4 b
  numbered : h.packet ≠ 0
  sensor : Sensor.ofCode? (b.getD 6 0) = some h.sensor
  sensorId : h.sensorId = .ofBytes (slice 8 10 b)
  itemCount : Field.itemCount.number (slice 18 4 b) = .ok h.itemCount.toNat
  stages : Stages.parse 22 b = .ok h.stages
  compressedSize : Field.compressedSize.number (slice 26 6 b) = .ok h.compressedSize.toNat
  encodedSize : Field.encodedSize.number (slice 32 6 b) = .ok h.encodedSize.toNat

theorem found_of_parse {b : Bytes} {h : DataHeader} (hb : parse b = .ok h) : Found b h := by
  rw [parse] at hb
  split at hb
  · exact absurd hb (by simp)
  next hlen =>
  split at hb
  · exact absurd hb (by simp)
  next hpacket =>
  obtain ⟨sensor, hsensor, hb⟩ := bind_eq_ok hb
  obtain ⟨items, hitems, hb⟩ := bind_eq_ok hb
  obtain ⟨stages, hstages, hb⟩ := bind_eq_ok hb
  obtain ⟨compressed, hcompressed, hb⟩ := bind_eq_ok hb
  obtain ⟨encoded, hencoded, hb⟩ := bind_eq_ok hb
  -- numbers of so few digits are below the bounds of the words that hold them
  have hitems' := Field.number_lt hitems
  have hcompressed' := Field.number_lt hcompressed
  have hencoded' := Field.number_lt hencoded
  rw [List.length_take] at hlen
  rw [← Except.ok.inj hb]
  refine ⟨by omega, rfl, rfl, rfl, hpacket, orFault_eq_ok hsensor, rfl, ?_, hstages, ?_, ?_⟩
  · rw [UInt16.toNat_ofNat', Nat.mod_eq_of_lt (by omega), hitems]
  · rw [UInt32.toNat_ofNat', Nat.mod_eq_of_lt (by omega), hcompressed]
  · rw [UInt32.toNat_ofNat', Nat.mod_eq_of_lt (by omega), hencoded]

/-- the headers that are read are those that can be written -/
theorem of_parse {b : Bytes} {h : DataHeader} (hb : parse b = .ok h) :
    h.packet ≠ 0 ∧ h.itemCount.toNat ≤ mostItems ∧ h.stages.noise.bits ≤ Noise.most :=
  have hfound := found_of_parse hb
  ⟨hfound.numbered, Nat.le_of_lt_succ (Field.number_lt hfound.itemCount),
    Stages.bits_of_parse hfound.stages⟩

theorem front_of_parse {b : Bytes} {h : DataHeader} (hb : parse b = .ok h) :
    size ≤ b.length ∧ h.packet = wordAt 4 b :=
  ⟨(found_of_parse hb).length, (found_of_parse hb).packet⟩

end DataHeader

/-! ## Data Packets -/

namespace DataPacket

/-- whole items, as many as the header says, and a packet number other than 0 -/
structure WellFormed (p : DataPacket) : Prop where
  packet : p.header.packet ≠ 0
  itemCount : p.header.itemCount.toNat ≤ mostItems
  payload : p.payload.length = p.header.payloadSize

theorem sizeField_eq_ok {field : Field} {n : Nat} {v : UInt32} (h : sizeField field n = .ok v) :
    v.toNat = n ∧ n ≤ mostBytes := by
  rw [sizeField] at h
  split at h
  · exact absurd h (by simp)
  · next hle =>
    have hle' : n ≤ 999999 := Nat.le_of_not_lt hle
    refine ⟨?_, Nat.le_of_not_lt hle⟩
    rw [← Except.ok.inj h, UInt32.toNat_ofNat']
    omega

/-- `body` is the payload of `p` after all steps, and `header` states its length and the length before
the ASCII step -/
def Carries [Deflate.Encoder] (p : DataPacket) (header : DataHeader) (body : Bytes) : Prop :=
  ∃ staged, Body.stage (.ofSensor p.header.sensor) header.stages p.payload = .ok staged ∧
    header.compressedSize.toNat = (Body.compress header.stages.compression staged).length ∧
    header.encodedSize.toNat = body.length ∧
    body = Body.armor header.stages.encoding (Body.compress header.stages.compression staged)

/-- an encoded packet is its header, completed, and a body that stands for the rounded payload -/
theorem encode_eq_ok [Deflate.Encoder] {p : DataPacket} (hp : p.WellFormed) {s : Stages}
    (hk : s.noise.bits ≤ Noise.most) {b : Bytes} (h : p.encode s = .ok b) :
    ∃ (header : DataHeader) (body : Bytes),
      header = { p.header with
        stages := s, compressedSize := header.compressedSize, encodedSize := header.encodedSize } ∧
      header.Fits ∧ b = header.render ++ body ∧ p.Carries header body ∧
      Body.decode (.ofSensor p.header.sensor) s p.payload.length body =
        .ok (Body.rounded (.ofSensor p.header.sensor) s.noise p.payload) := by
  obtain ⟨e, he, h⟩ := bind_eq_ok h
  obtain ⟨c, hc, h⟩ := bind_eq_ok h
  obtain ⟨n, hn, h⟩ := bind_eq_ok h
  obtain ⟨hcv, hcm⟩ := sizeField_eq_ok hc
  obtain ⟨hnv, hnm⟩ := sizeField_eq_ok hn
  refine ⟨{ p.header with stages := s, compressedSize := c, encodedSize := n }, e.body, rfl, ?_,
    (Except.ok.inj h).symm, ?_, ?_⟩
  · exact ⟨hp.packet, hp.itemCount, hk, hcv ▸ hcm, hnv ▸ hnm⟩
  · obtain ⟨staged, hstaged, hparts⟩ := bind_eq_ok he
    obtain rfl := Except.ok.inj hparts
    exact ⟨staged, hstaged, hcv, hnv, rfl⟩
  · exact Body.decode_encode _ (Layout.itemSize_ofSensor_pos _) s hk p.payload he

theorem decode_encode [Deflate.Encoder] {p : DataPacket} (hp : p.WellFormed) {s : Stages}
    (hk : s.noise.bits ≤ Noise.most) {b : Bytes} (h : p.encode s = .ok b) :
    ∃ header : DataHeader,
      header = { p.header with
        stages := s, compressedSize := header.compressedSize, encodedSize := header.encodedSize } ∧
      p.Carries header (b.drop DataHeader.size) ∧ wordAt 4 b = p.header.packet ∧ 6 ≤ b.length ∧
      decode b = .ok ⟨header, Body.rounded (.ofSensor p.header.sensor) s.noise p.payload⟩ := by
  obtain ⟨header, body, hh, hfits, hb, hbody, hdecode⟩ := encode_eq_ok hp hk h
  refine ⟨header, hh, ?_, ?_, ?_, ?_⟩
  · rwa [hb, ← header.length_render, List.drop_left]
  · rw [hb, (header.wordAt_render body).2.2, hh]
  · rw [hb, List.length_append, DataHeader.length_render]
    exact Nat.le_trans (by decide) (Nat.le_add_right DataHeader.size _)
  · obtain ⟨-, -, -, hlen, -⟩ := hbody
    have hslice : slice DataHeader.size header.encodedSize.toNat b = body := by
      rw [hb]
      exact slice_end header.length_render hlen.symm
    have hsize : header.payloadSize = p.payload.length := by
      rw [hp.payload, hh]
      rfl
    have hsensor : header.sensor = p.header.sensor := by rw [hh]
    have hstages : header.stages = s := by rw [hh]
    rw [decode]
    rw [show DataHeader.parse b = .ok header by rw [hb, header.parse_render hfits]]
    dsimp only [bind, Except.bind]
    rw [hslice, if_neg (by omega), hsize, hsensor, hstages, hdecode]

/-- what there is to a Data Packet that was read -/
theorem decode_eq_ok_iff {b : Bytes} {p : DataPacket} :
    decode b = .ok p ↔
      DataHeader.parse b = .ok p.header ∧
      DataHeader.size + p.header.encodedSize.toNat ≤ b.length ∧
      Body.decode (.ofSensor p.header.sensor) p.header.stages p.header.payloadSize
        (slice DataHeader.size p.header.encodedSize.toNat b) = .ok p.payload := by
  constructor
  · intro h
    obtain ⟨header, hheader, h⟩ := bind_eq_ok h
    obtain ⟨hsize, -⟩ := DataHeader.front_of_parse hheader
    dsimp only at h
    split at h
    · exact absurd h (by simp)
    next hlen =>
      obtain ⟨payload, hpayload, h⟩ := bind_eq_ok h
      rw [slice, List.length_take, List.length_drop] at hlen
      rw [← Except.ok.inj h]
      refine ⟨hheader, ?_, hpayload⟩
      show DataHeader.size + header.encodedSize.toNat ≤ b.length
      omega
  · rintro ⟨hheader, hlen, hpayload⟩
    rw [decode, hheader]
    dsimp only [bind, Except.bind]
    rw [length_slice _ _ _ hlen, if_neg (Nat.lt_irrefl _), hpayload]

theorem packet_ne_zero_of_decode {p : DataPacket} {b : Bytes} (h : decode b = .ok p) :
    p.header.packet ≠ 0 :=
  (DataHeader.of_parse (decode_eq_ok_iff.mp h).1).1

end DataPacket

/-! ## Info Packets -/

/-- counts of four digits make few packets -/
theorem Definition.total_le {d : Definition} (h : ∀ s, d.items.get s ≤ mostItems) :
    d.total ≤ 290 := by
  have hpackets (s : Sensor) :
      d.packets s ≤ (mostItems + s.itemsPerPacket - 1) / s.itemsPerPacket :=
    Nat.div_le_div_right (by have := h s; omega)
  have h₁ := hpackets .starboard
  have h₂ := hpackets .port
  have h₃ := hpackets .ocr
  have h₄ := hpackets .mcoms
  simp only [mostItems, Sensor.itemsPerPacket] at h₁ h₂ h₃ h₄
  simp only [total, Sensor.all, List.map_cons, List.map_nil, List.sum_cons, List.sum_nil]
  omega

namespace InfoPacket

theorem packetsFor_le (s : Sensor) (n : Nat) : s.packetsFor n ≤ n := by
  have hpos := s.itemsPerPacket_pos
  rw [Sensor.packetsFor, Nat.div_le_iff_le_mul hpos]
  have := Nat.mul_le_mul_left n hpos
  rw [Nat.mul_comm] at this
  cases n with
  | zero => omega
  | succ n =>
    rw [Nat.succ_mul]
    have := Nat.le_mul_of_pos_right n hpos
    omega

theorem offset_le (s : Sensor) : offset s + 8 ≤ size := by cases s <;> decide

theorem length_classField (d : Definition) (s : Sensor) : (classField d s).length = 8 := by
  rw [classField, List.length_append, length_decimal, length_decimal]

/-- the counts of a class, and what stands before and behind them -/
theorem exists_render (p : InfoPacket) (s : Sensor) : ∃ before after,
    p.render = before ++ (classField p.definition s ++ after) ∧ before.length = offset s := by
  have h := length_classField p.definition
  cases s with
  | starboard =>
    refine ⟨ofWord p.serial ++ ofWord p.profile ++ ofWord 0, _, List.append_assoc _ _ _, rfl⟩
  | port =>
    refine ⟨ofWord p.serial ++ ofWord p.profile ++ ofWord 0 ++ classField p.definition .starboard,
      classField p.definition .ocr ++ (classField p.definition .mcoms ++ List.replicate 26 0), ?_, ?_⟩
    · simp only [render, Sensor.all, List.flatMap_cons, List.flatMap_nil, List.append_nil,
        List.append_assoc]
    · simp only [List.length_append, h, length_ofWord]
      rfl
  | ocr =>
    refine ⟨ofWord p.serial ++ ofWord p.profile ++ ofWord 0 ++ classField p.definition .starboard ++
      classField p.definition .port,
      classField p.definition .mcoms ++ List.replicate 26 0, ?_, ?_⟩
    · simp only [render, Sensor.all, List.flatMap_cons, List.flatMap_nil, List.append_nil,
        List.append_assoc]
    · simp only [List.length_append, h, length_ofWord]
      rfl
  | mcoms =>
    refine ⟨ofWord p.serial ++ ofWord p.profile ++ ofWord 0 ++ classField p.definition .starboard ++
      classField p.definition .port ++ classField p.definition .ocr, List.replicate 26 0, ?_, ?_⟩
    · simp only [render, Sensor.all, List.flatMap_cons, List.flatMap_nil, List.append_nil,
        List.append_assoc]
    · simp only [List.length_append, h, length_ofWord]
      rfl

def Fits (p : InfoPacket) : Prop := ∀ s, p.definition.items.get s ≤ 9999

theorem parseClass_render (p : InfoPacket) (hf : p.Fits) (s : Sensor) :
    parseClass p.render s = .ok (p.definition.items.get s) := by
  obtain ⟨before, after, hr, hb⟩ := p.exists_render s
  have hitems := hf s
  have hpackets : p.definition.packets s ≤ 9999 := Nat.le_trans (packetsFor_le s _) hitems
  have h₁ : slice (offset s) 4 p.render = decimal 4 (p.definition.items.get s) := by
    rw [hr, classField, List.append_assoc]
    exact slice_mid _ hb (length_decimal _ _)
  have h₂ : slice (offset s + 4) 4 p.render = decimal 4 (p.definition.packets s) := by
    rw [hr, classField, List.append_assoc, ← List.append_assoc]
    exact slice_mid _ (by rw [List.length_append, hb, length_decimal]) (length_decimal _ _)
  rw [parseClass, h₁, h₂, Field.number_decimal .classItems (by decide) (by omega),
    Field.number_decimal .classPackets (by decide) (by omega)]
  dsimp only [bind, Except.bind]
  exact if_pos rfl

theorem length_render (p : InfoPacket) : p.render.length = size := by
  have h := length_classField p.definition
  simp only [render, Sensor.all, List.flatMap_cons, List.flatMap_nil, List.length_append, h,
    length_ofWord, List.length_replicate, List.length_nil]
  rfl

theorem wordAt_render (p : InfoPacket) :
    wordAt 0 p.render = p.serial ∧ wordAt 2 p.render = p.profile ∧ wordAt 4 p.render = 0 := by
  refine ⟨?_, ?_, ?_⟩
  · exact word_ofWord p.serial
  · exact word_ofWord p.profile
  · exact word_ofWord 0

theorem parseClass_le {b : Bytes} {s : Sensor} {n : Nat} (h : parseClass b s = .ok n) :
    n ≤ 9999 := by
  obtain ⟨items, hitems, h⟩ := bind_eq_ok h
  obtain ⟨packets, -, h⟩ := bind_eq_ok h
  split at h
  · obtain rfl := Except.ok.inj h
    exact Nat.le_of_lt_succ (Field.number_lt hitems)
  · exact absurd h (by simp)

/-- what there is to an Info Packet that was read -/
theorem parse_eq_ok_iff {b : Bytes} {p : InfoPacket} :
    parse b = .ok p ↔
      size ≤ b.length ∧ wordAt 4 b = 0 ∧ p.serial = wordAt 0 b ∧ p.profile = wordAt 2 b ∧
      ∀ s, parseClass b s = .ok (p.definition.items.get s) := by
  constructor
  · intro h
    rw [parse] at h
    split at h
    · exact absurd h (by simp)
    next hlen =>
    split at h
    · exact absurd h (by simp)
    next hword =>
    obtain ⟨starboard, hstarboard, h⟩ := bind_eq_ok h
    obtain ⟨port, hport, h⟩ := bind_eq_ok h
    obtain ⟨ocr, hocr, h⟩ := bind_eq_ok h
    obtain ⟨mcoms, hmcoms, h⟩ := bind_eq_ok h
    rw [← Except.ok.inj h]
    rw [List.length_take] at hlen
    refine ⟨by omega, Decidable.not_not.mp hword, rfl, rfl, fun s => ?_⟩
    cases s with
    | starboard => exact hstarboard
    | port => exact hport
    | ocr => exact hocr
    | mcoms => exact hmcoms
  · rintro ⟨hlen, hword, hserial, hprofile, hclass⟩
    rw [parse, List.length_take, Nat.min_eq_left hlen, if_neg (Nat.lt_irrefl _), hword,
      if_neg (not_not_intro rfl), hclass .starboard, hclass .port, hclass .ocr, hclass .mcoms,
      ← hserial, ← hprofile]
    rfl

/-- the counts that can be read are those that can be written -/
theorem fits_of_parse {b : Bytes} {p : InfoPacket} (h : parse b = .ok p) : p.Fits :=
  fun s => parseClass_le ((parse_eq_ok_iff.mp h).2.2.2.2 s)

theorem parse_render (p : InfoPacket) (hf : p.Fits) : parse p.render = .ok p := by
  obtain ⟨h₀, h₂, h₄⟩ := p.wordAt_render
  rw [parse, List.take_of_length_le (Nat.le_of_eq p.length_render), p.length_render,
    if_neg (Nat.lt_irrefl _), h₀, h₂, h₄, if_neg (by simp), p.parseClass_render hf .starboard,
    p.parseClass_render hf .port, p.parseClass_render hf .ocr, p.parseClass_render hf .mcoms]
  rfl

end InfoPacket

/-! ## Either -/

namespace Packet

theorem decode_info_iff {b : Bytes} {p : InfoPacket} :
    decode b = .ok (.info p) ↔ InfoPacket.parse b = .ok p := by
  constructor
  · intro h
    rw [decode] at h
    split at h
    · exact absurd h (by simp)
    split at h
    · obtain ⟨q, hq, hp⟩ := map_eq_ok h
      rwa [← Packet.info.inj hp]
    · obtain ⟨_, -, hp⟩ := map_eq_ok h
      exact absurd hp (by simp)
  · intro h
    obtain ⟨hlen, hword, -⟩ := InfoPacket.parse_eq_ok_iff.mp h
    have hlen : 64 ≤ b.length := hlen
    rw [decode, if_neg (by rw [List.length_take]; omega), if_pos hword, h]
    rfl

theorem decode_data_iff {b : Bytes} {p : DataPacket} :
    decode b = .ok (.data p) ↔ DataPacket.decode b = .ok p := by
  constructor
  · intro h
    rw [decode] at h
    split at h
    · exact absurd h (by simp)
    split at h
    · obtain ⟨_, -, hp⟩ := map_eq_ok h
      exact absurd hp (by simp)
    · obtain ⟨q, hq, hp⟩ := map_eq_ok h
      rwa [← Packet.data.inj hp]
  · intro h
    obtain ⟨hlen, hword⟩ := DataHeader.front_of_parse (DataPacket.decode_eq_ok_iff.mp h).1
    have hlen : 38 ≤ b.length := hlen
    have hzero := hword ▸ DataPacket.packet_ne_zero_of_decode h
    rw [decode, if_neg (by rw [List.length_take]; omega), if_neg hzero, h]
    rfl

theorem fits_of_decode {p : InfoPacket} {b : Bytes} (h : decode b = .ok (.info p)) : p.Fits :=
  InfoPacket.fits_of_parse (decode_info_iff.mp h)

theorem packet_ne_zero_of_decode {p : DataPacket} {b : Bytes} (h : decode b = .ok (.data p)) :
    p.header.packet ≠ 0 :=
  DataPacket.packet_ne_zero_of_decode (decode_data_iff.mp h)

theorem decode_render (p : InfoPacket) (hf : p.Fits) : decode p.render = .ok (.info p) :=
  decode_info_iff.mpr (p.parse_render hf)

theorem decode_encode [Deflate.Encoder] {p : DataPacket} (hp : p.WellFormed) {s : Stages}
    (hk : s.noise.bits ≤ Noise.most) {b : Bytes} (h : p.encode s = .ok b) :
    ∃ header : DataHeader,
      header = { p.header with
        stages := s, compressedSize := header.compressedSize, encodedSize := header.encodedSize } ∧
      p.Carries header (b.drop DataHeader.size) ∧
      decode b = .ok
        (.data ⟨header, Body.rounded (.ofSensor p.header.sensor) s.noise p.payload⟩) := by
  obtain ⟨header, hh, hbody, -, -, hdecode⟩ := DataPacket.decode_encode hp hk h
  exact ⟨header, hh, hbody, decode_data_iff.mpr hdecode⟩

end Packet

end Shoreline
