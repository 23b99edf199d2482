import Shoreline.Proofs.Packet
import Shoreline.Proofs.Spelling

/-!
# Packet headers have one form

A header that fits into its fields is read back from the bytes it is written as.  The other way round
every field that was read is written as it stood: the letters and the words are those of the bytes,
and digits have one spelling.  The fields together are the front of the bytes, but for what is not
read: the blank at 7 of a Data Packet's header, and what follows the counts of an Info Packet.

* `Stages.codes_of_parse`, `ofWord_wordAt`   single fields;
* `DataHeader.render_of_parse`, `InfoPacket.render_of_parse`   headers;
* `Packet.headers_invertible`                both ways.
-/

namespace Shoreline

/-! ## Letters -/

theorem Sensor.code_of_ofCode? {c : UInt8} {s : Sensor} (h : ofCode? c = some s) : s.code = c := by
  have hcode := List.find?_some h
  exact eq_of_beq hcode

/-- one more letter that a code can be -/
theorem code_of_ite {α : Type} {f : α → UInt8} {x : α} {c : UInt8} {r : α} {rest : Option α}
    (h : (if c = f x then some x else rest) = some r) (hrest : rest = some r → f r = c) :
    f r = c := by
  split at h
  · next hc => rw [← Option.some.inj h, hc]
  · exact hrest h

theorem Representation.code_of_ofCode? {c : UInt8} {r : Representation} (h : ofCode? c = some r) :
    r.code = c :=
  code_of_ite (x := gray) h fun h => code_of_ite (x := binary) h nofun

theorem Noise.code_of_ofCode? {c : UInt8} {n : Noise} (h : ofCode? c = some n) : n.code = c := by
  refine code_of_ite (x := untransposed) h fun h => ?_
  split at h
  · next hc =>
    have hle : 48 ≤ c.toNat := hc.1
    rw [← Option.some.inj h, code, Nat.add_sub_cancel' hle, UInt8.ofNat_toNat]
  · exact absurd h (by simp)

theorem Compression.code_of_ofCode? {c : UInt8} {r : Compression} (h : ofCode? c = some r) :
    r.code = c :=
  code_of_ite (x := none) h fun h => code_of_ite (x := deflate) h nofun

theorem Encoding.code_of_ofCode? {c : UInt8} {r : Encoding} (h : ofCode? c = some r) :
    r.code = c :=
  code_of_ite (x := none) h fun h => code_of_ite (x := base85) h fun h =>
    code_of_ite (x := base64) h nofun

/-! ## Fields by position -/

theorem slice_add (i m n : Nat) (b : Bytes) :
    slice i (m + n) b = slice i m b ++ slice (i + m) n b := by
  rw [slice, slice, slice, List.take_add, List.drop_drop]

theorem slice_one {i : Nat} {b : Bytes} (h : i < b.length) : slice i 1 b = [b.getD i 0] := by
  rw [slice, List.drop_eq_getElem_cons h, List.take_succ_cons, List.take_zero,
    List.getD_eq_getElem?_getD, List.getElem?_eq_getElem h, Option.getD_some]

theorem ofWord_wordAt {i : Nat} {b : Bytes} (h : i + 2 ≤ b.length) :
    ofWord (wordAt i b) = slice i 2 b := by
  rw [wordAt, ofWord_word, slice_add i 1 1, slice_one (by omega), slice_one (by omega)]
  rfl

theorem SensorId.bytes_ofBytes {b : Bytes} (h : b.length = 10) : (ofBytes b).bytes = b :=
  List.take_left' h

theorem Stages.codes_of_parse {i : Nat} {b : Bytes} {s : Stages} (h : parse i b = .ok s)
    (hb : i + 4 ≤ b.length) : s.codes = slice i 4 b := by
  obtain ⟨representation, hrepresentation, h⟩ := bind_eq_ok h
  obtain ⟨noise, hnoise, h⟩ := bind_eq_ok h
  obtain ⟨compression, hcompression, h⟩ := bind_eq_ok h
  obtain ⟨encoding, hencoding, h⟩ := bind_eq_ok h
  rw [← Except.ok.inj h, codes, Representation.code_of_ofCode? (orFault_eq_ok hrepresentation),
    Noise.code_of_ofCode? (orFault_eq_ok hnoise),
    Compression.code_of_ofCode? (orFault_eq_ok hcompression),
    Encoding.code_of_ofCode? (orFault_eq_ok hencoding), slice_add i 1 3, slice_add (i + 1) 1 2,
    slice_add (i + 2) 1 1, slice_one (by omega), slice_one (by omega), slice_one (by omega),
    slice_one (by omega)]
  rfl

/-! ## Headers -/

namespace DataHeader

/-- what was read from the front of `b` is written as it stood there, with a blank at 7 -/
theorem render_of_parse {b : Bytes} {h : DataHeader} (hb : parse b = .ok h) :
    h.render = (b.take size).set 7 32 := by
  have hfound := found_of_parse hb
  have hlen : 38 ≤ b.length := hfound.length
  have hset : (b.take 38).set 7 32 = slice 0 7 b ++ 32 :: slice 8 30 b := by
    rw [List.set_eq_take_append_cons_drop, if_pos (by rw [List.length_take]; omega), List.take_take,
      List.drop_take]
    rfl
  have hfront : slice 0 7 b = ofWord h.serial ++ ofWord h.profile ++ ofWord h.packet ++
      [h.sensor.code] := by
    rw [hfound.serial, hfound.profile, hfound.packet, Sensor.code_of_ofCode? hfound.sensor,
      ofWord_wordAt (by omega), ofWord_wordAt (by omega), ofWord_wordAt (by omega),
      ← slice_one (by omega), ← slice_add 0 2 2, ← slice_add 0 4 2, ← slice_add 0 6 1]
  have hrear : slice 8 30 b = h.sensorId.bytes ++ decimal 4 h.itemCount.toNat ++ h.stages.codes ++
      decimal 6 h.compressedSize.toNat ++ decimal 6 h.encodedSize.toNat := by
    rw [hfound.sensorId, SensorId.bytes_ofBytes (length_slice 8 10 b (by omega)),
      Stages.codes_of_parse hfound.stages (by omega),
      ← Field.eq_decimal_of_number hfound.itemCount (by omega),
      ← Field.eq_decimal_of_number hfound.compressedSize (by omega),
      ← Field.eq_decimal_of_number hfound.encodedSize (by omega), ← slice_add 8 10 4,
      ← slice_add 8 14 4, ← slice_add 8 18 6, ← slice_add 8 24 6]
  show h.render = (b.take 38).set 7 32
  rw [hset, hfront, hrear]
  simp only [render, List.append_assoc, List.cons_append, List.nil_append]

end DataHeader

namespace InfoPacket

theorem classField_of_parse {b : Bytes} {p : InfoPacket} (h : parse b = .ok p) (s : Sensor) :
    classField p.definition s = slice (offset s) 8 b := by
  obtain ⟨hlen, -, -, -, hclass⟩ := parse_eq_ok_iff.mp h
  have hoffset := offset_le s
  obtain ⟨items, hitems, h⟩ := bind_eq_ok (hclass s)
  obtain ⟨packets, hpackets, h⟩ := bind_eq_ok h
  split at h
  next hcount =>
    obtain rfl := Except.ok.inj h
    rw [slice_add (offset s) 4 4, Field.eq_decimal_of_number hitems (by omega),
      Field.eq_decimal_of_number hpackets (by omega), ← hcount]
    rfl
  · exact absurd h (by simp)

/-- what was read from the front of `b` is written as it stood there, as far as the counts go -/
theorem render_of_parse {b : Bytes} {p : InfoPacket} (h : parse b = .ok p) :
    p.render = b.take 38 ++ List.replicate 26 0 := by
  obtain ⟨hlen, hzero, hserial, hprofile, -⟩ := parse_eq_ok_iff.mp h
  have hlen : 64 ≤ b.length := hlen
  have hfront : ofWord p.serial ++ ofWord p.profile ++ ofWord 0 = slice 0 6 b := by
    rw [hserial, hprofile, ← hzero, ofWord_wordAt (by omega), ofWord_wordAt (by omega),
      ofWord_wordAt (by omega), ← slice_add 0 2 2, ← slice_add 0 4 2]
  have hclasses : Sensor.all.flatMap (classField p.definition) = slice 6 32 b := by
    simp only [Sensor.all, List.flatMap_cons, List.flatMap_nil, List.append_nil,
      classField_of_parse h]
    show slice 6 8 b ++ (slice 14 8 b ++ (slice 22 8 b ++ slice 30 8 b)) = _
    rw [← slice_add 22 8 8, ← slice_add 14 8 16, ← slice_add 6 8 24]
  rw [render, hfront, hclasses, ← slice_add 0 6 32]
  rfl

end InfoPacket

/-- headers and Info Packets that fit into their fields are read back; and what is read as one, of any
bytes, is written as those bytes stood, but for the parts that are not read -/
theorem Packet.headers_invertible :
    (∀ h : DataHeader, 1 ≤ h.packet.toNat → h.itemCount.toNat ≤ 9999 → h.stages.noise.bits ≤ 7 →
      h.compressedSize.toNat ≤ 999999 → h.encodedSize.toNat ≤ 999999 →
      DataHeader.parse h.render = .ok h) ∧
    (∀ b h, DataHeader.parse b = .ok h → 38 ≤ b.length ∧ h.render = (b.take 38).set 7 32) ∧
    (∀ p : InfoPacket, (∀ s, p.definition.items.get s ≤ 9999) →
      InfoPacket.parse p.render = .ok p) ∧
    ∀ b p, InfoPacket.parse b = .ok p →
      64 ≤ b.length ∧ p.render = b.take 38 ++ List.replicate 26 0 := by
  refine ⟨fun h hpacket hitems hbits hcompressed hencoded => ?_, fun b h hb => ?_, fun p hp => ?_,
    fun b p hb => ?_⟩
  · have hne : h.packet ≠ 0 := by
      intro hzero
      rw [hzero] at hpacket
      exact absurd hpacket (by decide)
    have hread := h.parse_render ⟨hne, hitems, hbits, hcompressed, hencoded⟩ []
    rwa [List.append_nil] at hread
  · exact ⟨(DataHeader.found_of_parse hb).length, DataHeader.render_of_parse hb⟩
  · exact p.parse_render hp
  · exact ⟨(InfoPacket.parse_eq_ok_iff.mp hb).1, InfoPacket.render_of_parse hb⟩

/-- the largest header is read back, also with a zero in place of its blank, which does not come back;
and an Info Packet with letters behind its counts, which do not come back either -/
theorem Packet.full_fields_read_back :
    let header : DataHeader := ⟨65535, 0, 65535, .mcoms, .ofText "mcoms", 9999,
      ⟨.gray, .removed 7, .deflate, .base85⟩, 999999, 999999⟩
    let info : InfoPacket := ⟨770, 12345, ⟨⟨9999, 0, 1, 250⟩⟩⟩
    let marked := header.render.set 7 0
    let lettered := info.render.take 38 ++ List.replicate 26 65
    DataHeader.parse header.render = .ok header ∧
      (DataHeader.parse marked = .ok header ∧ marked ≠ header.render ∧
        header.render = (marked.take 38).set 7 32) ∧
      InfoPacket.parse info.render = .ok info ∧
      InfoPacket.parse lettered = .ok info ∧ lettered ≠ info.render ∧
        info.render = lettered.take 38 ++ List.replicate 26 0 := by
  intro header info marked lettered
  obtain ⟨hwritten, hread, hinfo, hinfoRead⟩ := Packet.headers_invertible
  have hmarked : DataHeader.parse marked = .ok header := by decide +kernel
  have hlettered : InfoPacket.parse lettered = .ok info := by decide +kernel
  exact ⟨hwritten header (by decide) (by decide) (by decide) (by decide) (by decide),
    ⟨hmarked, by decide +kernel, (hread marked header hmarked).2⟩,
    hinfo info fun s => by cases s <;> decide,
    hlettered, by decide +kernel, (hinfoRead lettered info hlettered).2⟩

end Shoreline
