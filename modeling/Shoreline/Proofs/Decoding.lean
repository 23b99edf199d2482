import Mathlib.Algebra.Order.Floor.Div
import Shoreline.Proofs.Faults
import Shoreline.Proofs.GuardedPacket

/-!
# What is read from any bytes

A reader looks only at the bytes that its packet takes up, and at the fields of a class only where
they stand.

* `DataPacket.decode_append`, `InfoPacket.parse_append`   what follows a packet is not looked at;
* `InfoPacket.counts_of_parse`     the two counts of a class, as they are written;
* `Packet.any_bytes_read_safely`   any bytes are read without an access that fails, and what is read
  is well-formed.
-/

namespace Shoreline

/-! ## What follows a packet -/

section
variable {b : Bytes} (t : Bytes)

theorem getD_append {i : Nat} (h : i < b.length) : (b ++ t).getD i 0 = b.getD i 0 := by
  rw [List.getD_eq_getElem?_getD, List.getD_eq_getElem?_getD, List.getElem?_append_left h]

theorem wordAt_append {i : Nat} (h : i + 1 < b.length) : wordAt i (b ++ t) = wordAt i b := by
  rw [wordAt, wordAt, getD_append t (Nat.lt_of_succ_lt h), getD_append t h]

theorem Stages.parse_append {i : Nat} (h : i + 3 < b.length) : parse i (b ++ t) = parse i b := by
  rw [parse, parse, getD_append t (by omega), getD_append t (by omega), getD_append t (by omega),
    getD_append t h]

theorem DataHeader.parse_append (h : size ≤ b.length) : parse (b ++ t) = parse b := by
  have hlen : 38 ≤ b.length := h
  have hfull : ¬ (b.take size).length < size := by
    rw [List.length_take]
    omega
  rw [parse, parse, List.take_append_of_le_length h, if_neg hfull, if_neg hfull,
    wordAt_append t (by omega), wordAt_append t (by omega), wordAt_append t (by omega),
    getD_append t (by omega), slice_append (by omega), slice_append (by omega),
    slice_append (by omega), slice_append (by omega), Stages.parse_append t (by omega)]

theorem DataPacket.decode_append {p : DataPacket} (h : decode b = .ok p) :
    decode (b ++ t) = .ok p := by
  obtain ⟨hheader, hlen, hpayload⟩ := decode_eq_ok_iff.mp h
  obtain ⟨hsize, -⟩ := DataHeader.front_of_parse hheader
  refine decode_eq_ok_iff.mpr ⟨?_, ?_, ?_⟩
  · rw [DataHeader.parse_append t hsize, hheader]
  · rw [List.length_append]
    omega
  · rw [slice_append hlen, hpayload]

theorem InfoPacket.parse_append {p : InfoPacket} (h : parse b = .ok p) :
    parse (b ++ t) = .ok p := by
  obtain ⟨hlen, hword, hserial, hprofile, hclass⟩ := parse_eq_ok_iff.mp h
  have h64 : 64 ≤ b.length := hlen
  have hparts : ∀ s, parseClass (b ++ t) s = parseClass b s := by
    intro s
    have hend := offset_le s
    rw [parseClass, parseClass, slice_append (by omega), slice_append (by omega)]
  refine parse_eq_ok_iff.mpr ⟨?_, ?_, ?_, ?_, fun s => (hparts s).trans (hclass s)⟩
  · rw [List.length_append]
    omega
  · rw [wordAt_append t (by omega), hword]
  · rw [wordAt_append t (by omega), hserial]
  · rw [wordAt_append t (by omega), hprofile]

end

/-! ## Counts -/

theorem Sensor.packetsFor_eq_ceilDiv (s : Sensor) (n : Nat) :
    s.packetsFor n = n ⌈/⌉ s.itemsPerPacket := (Nat.ceilDiv_eq_add_pred_div n _).symm

/-- the two counts of a class, as they are written -/
theorem InfoPacket.counts_of_parse {b : Bytes} {p : InfoPacket} (h : parse b = .ok p) (s : Sensor) :
    value? (slice (offset s) 4 b) = some (p.definition.items.get s) ∧
      value? (slice (offset s + 4) 4 b) = some (p.definition.items.get s ⌈/⌉ s.itemsPerPacket) := by
  obtain ⟨-, -, -, -, hclass⟩ := parse_eq_ok_iff.mp h
  obtain ⟨items, hitems, h⟩ := bind_eq_ok (hclass s)
  obtain ⟨packets, hpackets, h⟩ := bind_eq_ok h
  split at h
  next heq =>
    rw [← Except.ok.inj h, ← s.packetsFor_eq_ceilDiv, heq]
    exact ⟨orFault_eq_ok hitems, orFault_eq_ok hpackets⟩
  · exact absurd h (by simp)

/-! ## Packets from any bytes -/

namespace Packet

theorem decode_append {b : Bytes} {p : Packet} (h : decode b = .ok p) (t : Bytes) :
    decode (b ++ t) = .ok p := by
  cases p with
  | info p => exact decode_info_iff.mpr (InfoPacket.parse_append t (decode_info_iff.mp h))
  | data p => exact decode_data_iff.mpr (DataPacket.decode_append t (decode_data_iff.mp h))

/-- any bytes are read as with every access checked, so no index, slice or length fails; once the
staged payload has the length that the header states, the packet is read, and the planes and the
layout have no faults of their own; a Data Packet that is read has a number, a payload of whole items
and rounded samples; an Info Packet states the packets that its items fill; and what follows a packet
is not looked at -/
theorem any_bytes_read_safely (b : Bytes) :
    Guarded.packet b = (decode b).mapError .fault ∧
    (∀ (header : DataHeader) (staged : Bytes),
      let expected :=
        Body.stagedSize (.ofSensor header.sensor) header.stages.noise header.payloadSize
      DataHeader.parse b = .ok header →
      DataHeader.size + header.encodedSize.toNat ≤ b.length →
      Body.unpack header.stages expected (slice DataHeader.size header.encodedSize.toNat b) =
        .ok staged →
      staged.length = expected →
      ∃ payload, decode b = .ok (.data ⟨header, payload⟩)) ∧
    (∀ f, decode b = .error (.body f) → f.stage ≠ "bit-plane" ∧ f.stage ≠ "layout") ∧
    (∀ p, decode b = .ok (.data p) →
      1 ≤ p.header.packet.toNat ∧
      p.payload.length = p.header.itemCount.toNat * p.header.sensor.itemSize ∧
      Body.rounded (.ofSensor p.header.sensor) p.header.stages.noise p.payload = p.payload) ∧
    (∀ p, decode b = .ok (.info p) → ∀ s : Sensor, ∃ items packets,
      value? (slice (6 + 8 * s.position) 4 b) = some items ∧
      value? (slice (6 + 8 * s.position + 4) 4 b) = some packets ∧
      p.definition.items.get s = items ∧ packets = items ⌈/⌉ s.itemsPerPacket) ∧
    (∀ p t, decode b = .ok p → decode (b ++ t) = .ok p) := by
  refine ⟨Guarded.packet_eq b, ?_, ?_, ?_, ?_, ?_⟩
  · intro header staged expected hheader hlen hunpack hstaged
    obtain ⟨payload, hpayload⟩ :=
      Body.decode_of_unpack (Layout.itemSize_ofSensor_pos _) hunpack hstaged
    exact ⟨payload,
      decode_data_iff.mpr (DataPacket.decode_eq_ok_iff.mpr ⟨hheader, hlen, hpayload⟩)⟩
  · intro f hf
    rcases failsIn_decode b _ hf with hfield | ⟨stage, hstage, g, hg, rfl⟩
    · exact absurd rfl (hfield f)
    · obtain rfl := Fault.body.inj hg
      constructor <;> intro hname <;> rw [hname] at hstage <;> exact absurd hstage (by decide)
  · intro p hp
    obtain ⟨⟨hpacket, -, hlen⟩, -, hrounded⟩ := DataPacket.of_decode (decode_data_iff.mp hp)
    refine ⟨Nat.pos_of_ne_zero fun hzero => hpacket ?_, hlen, hrounded⟩
    exact UInt16.toNat_inj.mp hzero
  · intro p hp s
    obtain ⟨hitems, hpackets⟩ := InfoPacket.counts_of_parse (decode_info_iff.mp hp) s
    exact ⟨_, _, hitems, hpackets, rfl, rfl⟩
  · intro p t hp
    exact decode_append hp t

/-- an Info Packet, and a Data Packet with bits behind the last sample of each plane, each of them
with the other behind it -/
theorem both_kinds_read_safely :
    let info : Bytes := InfoPacket.render ⟨770, 12345, ⟨⟨250, 0, 1, 200⟩⟩⟩
    let data : Bytes := DataHeader.render ⟨770, 12345, 1, .mcoms, SensorId.ofText "mcoms", 1,
      ⟨.gray, .removed 0, .none, .none⟩, 44, 44⟩ ++ List.replicate 44 255
    (∃ p, decode info = .ok (.info p) ∧ decode (info ++ data) = .ok (.info p) ∧
      value? (slice 6 4 info) = some 250 ∧ value? (slice 10 4 info) = some 3) ∧
    ∃ p, decode data = .ok (.data p) ∧ decode (data ++ info) = .ok (.data p) ∧
      p.payload.length = 1 * 40 ∧
      Body.rounded (.ofSensor .mcoms) (.removed 0) p.payload = p.payload ∧
      Guarded.packet data = .ok (.data p) := by
  intro info data
  constructor
  · have hp : decode info = .ok (.info ⟨770, 12345, ⟨⟨250, 0, 1, 200⟩⟩⟩) :=
      decode_render _ fun s => by cases s <;> decide
    obtain ⟨-, -, -, -, hcounts, hfollowed⟩ := any_bytes_read_safely info
    obtain ⟨items, packets, hitems, hpackets, rfl, rfl⟩ := hcounts _ hp .starboard
    have hthree : 250 ⌈/⌉ Sensor.starboard.itemsPerPacket = 3 := by decide
    exact ⟨_, hp, hfollowed _ data hp, hitems, hpackets.trans (congrArg some hthree)⟩
  · obtain ⟨x, hx⟩ : ∃ x, (do
        let p ← (DataPacket.decode data).toOption
        if p.header.sensor = .mcoms ∧ p.header.itemCount = 1 ∧ p.header.stages.noise = .removed 0
          then some p else none) = some x := Option.isSome_iff_exists.mp (by decide +kernel)
    obtain ⟨p, hp, hx⟩ := Option.bind_eq_some_iff.mp hx
    split at hx
    next hheader =>
      obtain ⟨hsensor, hcount, hnoise⟩ := hheader
      have hp := decode_data_iff.mpr (toOption_eq_some hp)
      obtain ⟨hchecked, -, -, hdata, -, hfollowed⟩ := any_bytes_read_safely data
      obtain ⟨-, hlen, hrounded⟩ := hdata p hp
      rw [hsensor, hcount] at hlen
      rw [hsensor, hnoise] at hrounded
      exact ⟨p, hp, hfollowed _ info hp, hlen, hrounded, by rw [hchecked, hp]; rfl⟩
    · exact absurd hx (by simp)

end Packet

end Shoreline
