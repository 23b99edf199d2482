import Shoreline.Proofs.ControlWire
import Shoreline.Proofs.Spelling

/-!
# A control line has one text

What is read as a control line is the line's text, but for the case of the letters in its checksum,
and whatever is spelled so is read (`read_iff_written`).  So two texts of one line differ in nothing
else.  The fields follow each other: each one that is read says what stands there, and where the next
one begins.

* `drop_of_parseField`   a field that was read, and what follows it;
* `of_parse`             a line that was read is its body and a checksum;
* `parse_eq_ok_iff`      and every body with its checksum is read.
-/

namespace Shoreline.ControlLine

/-! ## What is read was written -/

theorem drop_of_getD {b : Bytes} {i : Nat} (h : b.getD i 0 = comma) (hi : i < b.length) :
    b.drop i = comma :: b.drop (i + 1) := by
  rw [List.drop_eq_getElem_cons hi, ← h, List.getD_eq_getElem?_getD, List.getElem?_eq_getElem hi]
  rfl

theorem drop_of_parseField {field : Field} {i width v : Nat} {b : Bytes}
    (h : parseField field i width b = .ok v) (hb : i + 1 + width ≤ b.length) :
    b.drop i = comma :: (decimal width v ++ b.drop (i + 1 + width)) ∧ v < 10 ^ width := by
  rw [parseField] at h
  split at h
  · exact absurd h (by simp)
  next hcomma =>
  have hdigits := Field.eq_decimal_of_number h hb
  refine ⟨?_, Field.number_lt h⟩
  rw [drop_of_getD (Decidable.not_not.mp hcomma) (by omega), ← hdigits, slice_append_drop]

theorem tag_of_ofTag? {b : Bytes} {kind : ControlKind} (h : ControlKind.ofTag? b = some kind) :
    b = kind.tag := by
  rw [ControlKind.ofTag?] at h
  split at h
  · next he =>
    rw [← Option.some.inj h]
    exact he
  split at h
  · next he =>
    rw [← Option.some.inj h]
    exact he
  · exact absurd h (by simp)

/-- the lines that are read are those that can be written, each made of its body and a checksum -/
theorem of_parse {b : Bytes} {c : ControlLine} (h : parse b = .ok c) :
    c.Fits ∧ b = c.body ++ b.drop bodySize ∧
      Field.checksumIn (b.drop bodySize) = .ok (crc32 c.body) := by
  rw [parse] at h
  split at h
  · exact absurd h (by simp)
  next hlen =>
  have hlen : b.length = 33 := Decidable.not_not.mp hlen
  obtain ⟨kind, hkind, h⟩ := bind_eq_ok h
  obtain ⟨serial, hserial, h⟩ := bind_eq_ok h
  obtain ⟨profile, hprofile, h⟩ := bind_eq_ok h
  obtain ⟨packet, hpacket, h⟩ := bind_eq_ok h
  obtain ⟨burst, hburst, h⟩ := bind_eq_ok h
  split at h
  · exact absurd h (by simp)
  next hcomma =>
  obtain ⟨found, hfound, h⟩ := bind_eq_ok h
  obtain ⟨_, hverify, h⟩ := bind_eq_ok h
  split at h
  · exact absurd h (by simp)
  next hword =>
  have hc := Except.ok.inj h
  have htag := tag_of_ofTag? (orFault_eq_ok hkind)
  obtain ⟨hserial, hserialLt⟩ := drop_of_parseField hserial (by omega)
  obtain ⟨hprofile, -⟩ := drop_of_parseField hprofile (by omega)
  obtain ⟨hpacket, hpacketLt⟩ := drop_of_parseField hpacket (by omega)
  obtain ⟨hburst, hburstLt⟩ := drop_of_parseField hburst (by omega)
  have hcomma := drop_of_getD (Decidable.not_not.mp hcomma) (by omega)
  have hval (v : Nat) (hv : v < 65536) : (UInt16.ofNat v).toNat = v := by
    rw [UInt16.toNat_ofNat', Nat.mod_eq_of_lt hv]
  have hs : c.key.serial.toNat = serial := by
    rw [← hc]
    exact hval serial (by omega)
  have hq : c.key.profile.toNat = profile := by
    rw [← hc]
    exact hval profile (by omega)
  have hp : c.key.packet.toNat = packet := by
    rw [← hc]
    exact hval packet (by omega)
  have hb : c.burst.toNat = burst := by
    rw [← hc]
    exact hval burst (by omega)
  have hk : c.kind = kind := by rw [← hc]
  -- field by field, what is left is where the next field begins
  have hbody : b = c.body ++ b.drop bodySize := by
    rw [body_append, hs, hq, hp, hb, hk, ← htag]
    show b = b.take 4 ++ comma :: (decimal 4 serial ++ comma :: (decimal 5 profile ++
      comma :: (decimal 4 packet ++ comma :: (decimal 3 burst ++ comma :: b.drop (24 + 1)))))
    rw [← hcomma, ← hburst, ← hpacket, ← hprofile, ← hserial, List.take_append_drop]
  have hfront : b.take bodySize = c.body := by
    rw [hbody]
    exact List.take_left' (length_body c)
  refine ⟨⟨by omega, by omega, by omega⟩, hbody, ?_⟩
  rw [hfound, ← Burst.eq_of_verify hverify, hfront]

/-! ## What is spelled like a line is read -/

theorem parse_eq_ok_iff {b : Bytes} {c : ControlLine} :
    parse b = .ok c ↔ c.Fits ∧ ∃ f, b = c.body ++ f ∧ Field.checksumIn f = .ok (crc32 c.body) := by
  constructor
  · intro h
    obtain ⟨hf, hbody, hsum⟩ := of_parse h
    exact ⟨hf, _, hbody, hsum⟩
  · rintro ⟨hf, f, rfl, hsum⟩
    exact parse_body c hf (Field.length_of_checksumIn hsum) hsum

/-- with any end of line behind both -/
theorem spelled_iff {b : Bytes} {c : ControlLine} (rest : Bytes) :
    SameButCase bodySize (c.text ++ rest) (b ++ rest) ↔
      ∃ f, b = c.body ++ f ∧ Field.checksumIn f = .ok (crc32 c.body) := by
  rw [text, List.append_assoc, SameButCase.append_iff (length_body c)]
  constructor
  · rintro ⟨f, hb, hsum⟩
    rw [← List.append_assoc] at hb
    exact ⟨f, List.append_cancel_right hb, hsum⟩
  · rintro ⟨f, rfl, hsum⟩
    exact ⟨f, List.append_assoc .., hsum⟩

theorem sameButCase_of_parse {b : Bytes} {c : ControlLine} (h : parse b = .ok c) :
    SameButCase bodySize c.text b := by
  have hspelled := (spelled_iff []).mpr (parse_eq_ok_iff.mp h).2
  rwa [List.append_nil, List.append_nil] at hspelled

/-- every line that fits is read back from its text; and what is read as a line, of any bytes, is
written like it, but for the case of the checksum's letters, so no two texts that differ in anything
else say the same -/
theorem read_iff_written :
    (∀ c : ControlLine, c.Fits → c.wire = c.text ++ lineEnd ∧ parse c.text = .ok c) ∧
      (∀ (b : Bytes) (c : ControlLine),
        parse b = .ok c ↔ c.Fits ∧ SameButCase bodySize c.wire (b ++ lineEnd)) ∧
      ∀ (b b' : Bytes) (c : ControlLine), parse b = .ok c → parse b' = .ok c →
        SameButCase bodySize b b' := by
  refine ⟨fun c hf => ⟨rfl, parse_text c hf⟩, ?_, ?_⟩
  · intro b c
    rw [parse_eq_ok_iff, wire, spelled_iff]
  · intro b b' c h h'
    exact (sameButCase_of_parse h).symm.trans (sameButCase_of_parse h')

/-- the highest numbers that fit, and the checksum's letters in lower case -/
theorem lower_case_line_read :
    let c := resendBurst ⟨⟨9999, 65535⟩, 9999⟩ 998
    let b := c.body ++ (checksumField (crc32 c.body)).map fun x => if 65 ≤ x then x + 32 else x
    (c.Fits ∧ SameButCase bodySize c.wire (b ++ lineEnd)) ∧ b ≠ c.text ∧
      parse c.text = .ok c ∧ parse b = .ok c ∧ SameButCase bodySize c.text b := by
  intro c b
  have hfits : c.Fits := ⟨by decide, by decide, by decide⟩
  have hspelled : SameButCase bodySize c.wire (b ++ lineEnd) :=
    ⟨by decide +kernel, by decide +kernel, by decide +kernel⟩
  obtain ⟨hwritten, hspelling, hsame⟩ := read_iff_written
  have htext := (hwritten c hfits).2
  have hread := (hspelling b c).mpr ⟨hfits, hspelled⟩
  exact ⟨⟨hfits, hspelled⟩, by decide +kernel, htext, hread, hsame c.text b c htext hread⟩

end Shoreline.ControlLine
