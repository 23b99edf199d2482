import Shoreline.Proofs.BurstScan
import Shoreline.Proofs.Spelling

/-!
# A burst has one wire form

What is read as a burst is the burst's wire form, but for the case of the letters in its checksum
field, and whatever is spelled so is read (`read_iff_spelled`).  One direction reads every field
back where it stands; the other puts the header together from the fields that were read: the magic,
the three numbers of the key and the seven bytes that tell the kinds of bursts apart.

* `header_of_found`     the header is the one that is written;
* `parts_of_found`      and so is the payload, with a checksum in between;
* `found_iff_spelled`   bytes that are spelled like a burst are read as one, and only they are.
-/

namespace Shoreline.Burst
variable {m : Nat} {b s : Bytes}

/-! ## What is read was written -/

theorem keyField_of_parseKey {header : Bytes} {key : PacketKey} (h : parseKey header = .ok key)
    (hlen : header.length = headerSize) :
    keyField key ++ header.drop 17 = header.drop 4 := by
  have hhead : headerSize = 24 := rfl
  obtain ⟨serial, hserial, h⟩ := bind_eq_ok h
  obtain ⟨profile, hprofile, h⟩ := bind_eq_ok h
  obtain ⟨packet, hpacket, h⟩ := bind_eq_ok h
  obtain rfl := Except.ok.inj h
  rw [keyField, List.append_assoc, List.append_assoc,
    ← Field.eq_decimal_of_word hserial (by omega),
    ← Field.eq_decimal_of_word hprofile (by omega),
    ← Field.eq_decimal_of_word hpacket (by omega)]
  rw [slice_append_drop 13 4, slice_append_drop 8 5, slice_append_drop 4 4]

theorem kindField_of_kindIn {header : Bytes} {kind : BurstKind} (h : KindIn m header kind)
    (hlen : header.length = headerSize) : kindField kind = header.drop 17 := by
  have hhead : headerSize = 24 := rfl
  have hend : header.drop (20 + 4) = [] := List.drop_eq_nil_of_le (by omega)
  have hsplit : slice 17 3 header ++ slice 20 4 header = header.drop 17 := by
    have hsize := slice_append_drop 20 4 header
    rw [hend, List.append_nil] at hsize
    rw [hsize, slice_append_drop 17 3]
  cases kind with
  | announce count =>
    obtain ⟨-, hindex, hsize⟩ := h
    rw [kindField, ← hsplit, Field.eq_decimal_of_word hindex (by omega),
      Field.eq_decimal_of_number hsize (by omega)]
    rfl
  | data index piece =>
    obtain ⟨-, hindex, hsize, -⟩ := h
    rw [kindField, ← hsplit, Field.eq_decimal_of_word hindex (by omega),
      Field.eq_decimal_of_number hsize (by omega)]
  | terminal => exact h.symm

theorem header_of_found {burst : Burst} (h : Found m b burst) :
    b.take headerSize = burst.header := by
  have hover : overhead ≤ b.length := Nat.le_trans (overhead_le_wireSize burst) h.length
  have hlen : (b.take headerSize).length = headerSize := by
    rw [List.length_take]
    exact Nat.min_eq_left (Nat.le_trans (by decide) hover)
  have hmagic : (b.take headerSize).take 4 = magic := by
    rw [List.take_take]
    exact h.magic
  rw [header, List.append_assoc, kindField_of_kindIn h.kind hlen, keyField_of_parseKey h.key hlen,
    ← hmagic, List.take_append_drop]

theorem checksum_eq (burst : Burst) : burst.checksum = crc32 (burst.header ++ burst.payload) := rfl

/-- the parts of a burst that was found are those that are written -/
theorem parts_of_found {burst : Burst} (h : Found m b burst) :
    ∃ f, b.take burst.wireSize = burst.header ++ (f ++ burst.payload) ∧
      Field.checksumIn f = .ok burst.checksum := by
  have hheader := header_of_found h
  have hsize : burst.wireSize - overhead = burst.payload.length := Nat.add_sub_cancel_left ..
  have hpiece : (b.take burst.wireSize).drop overhead = burst.payload := by
    rw [List.drop_take, hsize]
    exact h.payload
  have hfront : (b.take burst.wireSize).take headerSize = burst.header := by
    rw [List.take_take, Nat.min_eq_left, hheader]
    exact Nat.le_trans (by decide) (overhead_le_wireSize burst)
  have hsum := h.checksum
  rw [hheader, ← checksum_eq, ← slice_take b (overhead_le_wireSize burst)] at hsum
  refine ⟨_, ?_, hsum⟩
  rw [← hfront, ← hpiece]
  show _ = _ ++ (_ ++ (b.take burst.wireSize).drop (headerSize + 8))
  rw [slice_append_drop, List.take_append_drop]

/-! ## What is spelled like a burst is read -/

theorem wire_eq (burst : Burst) :
    burst.wire = burst.header ++ (checksumField burst.checksum ++ burst.payload) :=
  List.append_assoc ..

theorem found_iff_spelled {burst : Burst} :
    Found m s burst ↔ burst.Fits ∧ burst.payload.length ≤ m ∧
      SameButCase headerSize burst.wire (s.take burst.wireSize) := by
  rw [wire_eq, SameButCase.append_iff (length_header burst)]
  constructor
  · intro h
    refine ⟨fits_of_found h, ?_, parts_of_found h⟩
    have hkind := h.kind
    obtain ⟨key, kind⟩ := burst
    cases kind with
    | announce count => exact Nat.zero_le m
    | data index piece => exact hkind.2.2.2.2.2
    | terminal => exact Nat.zero_le m
  · rintro ⟨hf, hm, f, hparts, hsum⟩
    have hfound := found_of_parts burst (s.drop burst.wireSize) hf hm
      (Field.length_of_checksumIn hsum) hsum
    have hs : burst.header ++ (f ++ (burst.payload ++ s.drop burst.wireSize)) = s := by
      rw [← List.append_assoc f, ← List.append_assoc, ← hparts, List.take_append_drop]
    rwa [hs] at hfound

/-- every burst that fits is read back from its wire form, whatever follows, and no shorter
beginning of it is taken for a burst or for a fault; and what is read as a burst, of any bytes, is
spelled as it is written, but for the case of the checksum's letters -/
theorem read_iff_spelled (m : Nat) :
    (∀ burst : Burst, burst.Fits → burst.payload.length ≤ m →
      (∀ rest, parse m (burst.wire ++ rest) = .ok (some (burst, burst.wireSize))) ∧
        ∀ k < burst.wireSize, parse m (burst.wire.take k) = .ok none) ∧
      ∀ (s : Bytes) (burst : Burst) (n : Nat), parse m s = .ok (some (burst, n)) ↔
        burst.Fits ∧ burst.payload.length ≤ m ∧ n = burst.wireSize ∧
          SameButCase headerSize burst.wire (s.take n) := by
  constructor
  · intro burst hf hm
    have hread := fun rest => parse_of_found (found_wire burst rest hf hm)
    refine ⟨hread, fun k hk => ?_⟩
    have hwhole := hread []
    rw [List.append_nil] at hwhole
    exact parse_take hwhole hk
  · intro s burst n
    constructor
    · intro h
      obtain ⟨hfound, rfl⟩ := found_of_parse h
      obtain ⟨hf, hm, hspelled⟩ := found_iff_spelled.mp hfound
      exact ⟨hf, hm, rfl, hspelled⟩
    · rintro ⟨hf, hm, rfl, hspelled⟩
      exact parse_of_found (found_iff_spelled.mpr ⟨hf, hm, hspelled⟩)

/-- a data burst with the highest index, its checksum's letters in lower case, and the beginning of
another burst behind it -/
theorem lower_case_burst_read :
    let burst : Burst := ⟨⟨⟨770, 12345⟩, 3⟩, .data 999 [0, 255, 66]⟩
    let letters := (checksumField burst.checksum).map fun x => if 65 ≤ x then x + 32 else x
    let s := burst.header ++ letters ++ burst.payload ++ [66, 82]
    (burst.Fits ∧ burst.payload.length ≤ 3 ∧ SameButCase headerSize burst.wire (s.take 35)) ∧
      s.take 35 ≠ burst.wire ∧ parse 3 s = .ok (some (burst, 35)) ∧
      parse 3 (burst.wire ++ s) = .ok (some (burst, 35)) ∧
      ∀ k < 35, parse 3 (burst.wire.take k) = .ok none := by
  intro burst letters s
  have hfits : burst.Fits := ⟨by decide, by decide, by decide, by decide, by decide, by decide⟩
  have hspelled : SameButCase headerSize burst.wire (s.take 35) :=
    ⟨by decide +kernel, by decide +kernel, by decide +kernel⟩
  obtain ⟨hwritten, hspelling⟩ := read_iff_spelled 3
  obtain ⟨hread, hwait⟩ := hwritten burst hfits (by decide)
  exact ⟨⟨hfits, by decide, hspelled⟩, by decide +kernel,
    (hspelling s burst 35).mpr ⟨hfits, by decide, rfl, hspelled⟩, hread s, hwait⟩

end Shoreline.Burst
