import Shoreline.Proofs.Fields
import Shoreline.Burst

/-!
# Bursts are read back

The wire form of a burst whose numbers fit into their fields parses to that burst, whatever stands
behind it.  And a burst is never read before its last byte is there: every shorter beginning of bytes
that parse is the beginning of a burst.

* `Found`                             a burst at the front of a string, part by part;
* `found_of_parts`                    it is there when its parts are;
* `parse_of_found`, `found_of_parse`  it is read there, and only then;
* `parse_wire`                        a burst that fits is read back;
* `parse_take`                        cut off anywhere, it is waited for;
* `magic_take`                        what is left of it begins with the magic.
-/

namespace Shoreline.Burst

def Fits (b : Burst) : Prop :=
  b.key.serial.toNat ≤ 9999 ∧ b.key.packet.toNat ≤ 9999 ∧
    match b.kind with
    | .announce count => count.toNat ≤ 9999
    | .data index payload =>
      1 ≤ index.toNat ∧ index.toNat ≤ 999 ∧ 1 ≤ payload.length ∧ payload.length ≤ 9999
    | .terminal => True

/-! ## Parts of the wire form -/

theorem length_keyField (k : PacketKey) : (keyField k).length = 13 := by
  simp only [keyField, List.length_append, length_decimal]

theorem length_kindField (k : BurstKind) : (kindField k).length = 7 := by
  cases k with
  | announce count => simp only [kindField, List.length_append, length_decimal]
  | data index payload => simp only [kindField, List.length_append, length_decimal]
  | terminal => rfl

theorem length_header (b : Burst) : b.header.length = headerSize := by
  simp only [header, List.length_append, length_keyField, length_kindField]
  rfl

theorem length_wire (b : Burst) : b.wire.length = overhead + b.payload.length := by
  simp only [wire, List.length_append, length_header, length_checksumField]
  rfl

/-! ## The header is read back -/

theorem parseKey_header (b : Burst) (hf : b.Fits) : parseKey b.header = .ok b.key := by
  obtain ⟨hs, hp, -⟩ := hf
  have hq := b.key.profile.toNat_lt
  have h₁ : slice 4 4 b.header = decimal 4 b.key.serial.toNat := by
    simp only [header, keyField, List.append_assoc]
    exact slice_mid _ rfl (length_decimal _ _)
  have h₂ : slice 8 5 b.header = decimal 5 b.key.profile.toNat := by
    simp only [header, keyField]
    rw [List.append_assoc, List.append_assoc, List.append_assoc, ← List.append_assoc]
    exact slice_mid _ rfl (length_decimal _ _)
  have h₃ : slice 13 4 b.header = decimal 4 b.key.packet.toNat := by
    simp only [header, keyField]
    rw [← List.append_assoc, List.append_assoc]
    exact slice_mid _ rfl (length_decimal _ _)
  rw [parseKey, h₁, h₂, h₃, Field.word_decimal .serial (by decide) (by omega),
    Field.word_decimal .profile (by decide) (by omega),
    Field.word_decimal .packet (by decide) (by omega)]
  rfl

theorem drop_header (b : Burst) : b.header.drop 17 = kindField b.kind := by
  rw [header, List.drop_left' ?_]
  rw [List.length_append, length_keyField]
  rfl

/-- the field of a burst that is not the terminal one begins with a digit -/
theorem decimal_append_ne_terminalMark (width v : Nat) (b : Bytes) :
    decimal (width + 1) v ++ b ≠ terminalMark := by
  intro h
  have hd : decimal (width + 1) v ≠ [] := by
    intro he
    have := length_decimal (width + 1) v
    rw [he] at this
    exact absurd this (by simp)
  obtain ⟨d, ds, hc⟩ := List.exists_cons_of_ne_nil hd
  have hall := all_isDigit_decimal (width + 1) v
  rw [hc, List.all_cons, Bool.and_eq_true] at hall
  rw [hc, List.cons_append, terminalMark, List.replicate_succ] at h
  obtain ⟨rfl, -⟩ := List.cons.inj h
  exact absurd hall.1 (by decide)

theorem slice_index (b : Burst) {n v : Nat} (h : kindField b.kind = decimal 3 n ++ decimal 4 v) :
    slice 17 3 b.header = decimal 3 n ∧ slice 20 4 b.header = decimal 4 v := by
  constructor
  · rw [header, h]
    exact slice_mid _ (by rw [List.length_append, length_keyField]; rfl) (length_decimal _ _)
  · rw [header, h, ← List.append_assoc]
    refine slice_end ?_ (length_decimal _ _)
    rw [List.length_append, List.length_append, length_keyField, length_decimal]
    rfl

/-! ## What is read at the front -/

/-- the last seven bytes of a header are those of such a burst, to a reader for payloads of at most `m`
bytes -/
def KindIn (m : Nat) (header : Bytes) : BurstKind → Prop
  | .announce count =>
    header.drop 17 ≠ terminalMark ∧ Field.burstNumber.word (slice 17 3 header) = .ok 0 ∧
      Field.burstSize.number (slice 20 4 header) = .ok count.toNat
  | .data index payload =>
    header.drop 17 ≠ terminalMark ∧ Field.burstNumber.word (slice 17 3 header) = .ok index ∧
      Field.burstSize.number (slice 20 4 header) = .ok payload.length ∧
      index ≠ 0 ∧ 1 ≤ payload.length ∧ payload.length ≤ m
  | .terminal => header.drop 17 = terminalMark

/-- a burst stands at the front of `b`, part by part -/
structure Found (m : Nat) (b : Bytes) (burst : Burst) : Prop where
  magic : b.take 4 = magic
  key : parseKey (b.take headerSize) = .ok burst.key
  checksum : Field.checksumIn (slice headerSize 8 b) =
    .ok (crc32 (b.take headerSize ++ burst.payload))
  kind : KindIn m (b.take headerSize) burst.kind
  payload : slice overhead burst.payload.length b = burst.payload
  length : burst.wireSize ≤ b.length

theorem overhead_le_wireSize (b : Burst) : overhead ≤ b.wireSize := Nat.le_add_right _ _

theorem parse_of_found {m : Nat} {b : Bytes} {burst : Burst} (h : Found m b burst) :
    parse m b = .ok (some (burst, burst.wireSize)) := by
  have hover : overhead ≤ b.length := Nat.le_trans (overhead_le_wireSize burst) h.length
  have hchecksum := h.checksum
  rw [parse, h.magic, if_neg (by decide), if_neg (by simp),
    if_neg (by rw [List.length_take]; omega)]
  dsimp only
  rw [h.key]
  obtain ⟨key, kind⟩ := burst
  cases kind with
  | terminal =>
    have hmark : (b.take headerSize).drop 17 = terminalMark := h.kind
    rw [payload, List.append_nil] at hchecksum
    rw [hchecksum]
    dsimp only [bind, Except.bind]
    rw [if_pos hmark, verify_of_eq rfl]
    rfl
  | announce count =>
    obtain ⟨hmark, hindex, hsize⟩ := h.kind
    rw [payload, List.append_nil] at hchecksum
    rw [hchecksum]
    dsimp only [bind, Except.bind]
    rw [if_neg hmark, hindex, hsize]
    dsimp only
    rw [if_pos rfl, verify_of_eq rfl, UInt16.ofNat_toNat]
    rfl
  | data index piece =>
    obtain ⟨hmark, hindex, hsize, hzero, hpos, hmost⟩ := h.kind
    have hpiece : slice overhead piece.length b = piece := h.payload
    rw [payload] at hchecksum
    rw [hchecksum]
    dsimp only [bind, Except.bind]
    rw [if_neg hmark, hindex, hsize]
    dsimp only
    rw [if_neg hzero, parseData, if_neg (by omega), hpiece]
    dsimp only
    rw [if_neg (Nat.lt_irrefl _), verify_of_eq rfl]
    rfl

theorem found_of_parse {m n : Nat} {b : Bytes} {burst : Burst}
    (h : parse m b = .ok (some (burst, n))) : Found m b burst ∧ n = burst.wireSize := by
  rw [parse] at h
  split at h
  · exact absurd h (by simp)
  split at h
  · exact absurd h (by simp)
  next hmagic =>
  split at h
  · exact absurd h (by simp)
  next hshort =>
  have hmagic := Decidable.not_not.mp hmagic
  have hover : overhead ≤ b.length := by
    rw [List.length_take] at hshort
    omega
  obtain ⟨key, hkey, h⟩ := bind_eq_ok h
  obtain ⟨found, hfound, h⟩ := bind_eq_ok h
  split at h
  · next hmark =>
    obtain ⟨_, hverify, h⟩ := bind_eq_ok h
    obtain ⟨rfl, rfl⟩ := Prod.mk.inj (Option.some.inj (Except.ok.inj h))
    rw [← eq_of_verify hverify, ← List.append_nil (b.take headerSize)] at hfound
    exact ⟨⟨hmagic, hkey, hfound, hmark, rfl, hover⟩, rfl⟩
  next hmark =>
  obtain ⟨index, hindex, h⟩ := bind_eq_ok h
  obtain ⟨size, hsize, h⟩ := bind_eq_ok h
  split at h
  · next hzero =>
    obtain ⟨_, hverify, h⟩ := bind_eq_ok h
    obtain ⟨rfl, rfl⟩ := Prod.mk.inj (Option.some.inj (Except.ok.inj h))
    have hcount : (UInt16.ofNat size).toNat = size := by
      have := Field.number_lt hsize
      rw [UInt16.toNat_ofNat', Nat.mod_eq_of_lt (by omega)]
    rw [← eq_of_verify hverify, ← List.append_nil (b.take headerSize)] at hfound
    rw [hzero] at hindex
    rw [← hcount] at hsize
    exact ⟨⟨hmagic, hkey, hfound, ⟨hmark, hindex, hsize⟩, rfl, hover⟩, rfl⟩
  next hzero =>
  rw [parseData] at h
  split at h
  · exact absurd h (by simp)
  next hrange =>
  dsimp only at h
  split at h
  · exact absurd h (by simp)
  next hwhole =>
  obtain ⟨_, hverify, h⟩ := bind_eq_ok h
  obtain ⟨rfl, rfl⟩ := Prod.mk.inj (Option.some.inj (Except.ok.inj h))
  have hlen : (slice overhead size b).length = size :=
    Nat.le_antisymm (List.length_take_le _ _) (Nat.le_of_not_lt hwhole)
  have hend : overhead + size ≤ b.length := by
    rw [slice, List.length_take, List.length_drop] at hwhole
    omega
  rw [← eq_of_verify hverify] at hfound
  refine ⟨⟨hmagic, hkey, hfound, ⟨hmark, hindex, ?_, hzero, ?_, ?_⟩, ?_, ?_⟩, ?_⟩
  · rw [hlen]
    exact hsize
  · rw [hlen]
    omega
  · rw [hlen]
    omega
  · rw [payload, hlen]
  · rw [wireSize, payload, hlen]
    exact hend
  · rw [wireSize, payload, hlen]

/-! ## Bursts are read back -/

theorem kindIn_header (b : Burst) {m : Nat} (hf : b.Fits) (hm : b.payload.length ≤ m) :
    KindIn m b.header b.kind := by
  obtain ⟨-, -, hk⟩ := hf
  obtain ⟨key, kind⟩ := b
  cases kind with
  | terminal => exact drop_header ⟨key, .terminal⟩
  | announce count =>
    have hc : count.toNat ≤ 9999 := hk
    obtain ⟨hindex, hsize⟩ := slice_index ⟨key, .announce count⟩ (n := 0) (v := count.toNat) rfl
    refine ⟨?_, ?_, ?_⟩
    · rw [drop_header]
      exact decimal_append_ne_terminalMark _ _ _
    · rw [hindex]
      exact Field.word_decimal (w := 0) .burstNumber (by decide) (by decide)
    · rw [hsize]
      exact Field.number_decimal .burstSize (by decide) (by omega)
  | data index piece =>
    obtain ⟨hi, hi', hp, hp'⟩ : 1 ≤ index.toNat ∧ index.toNat ≤ 999 ∧ 1 ≤ piece.length ∧
      piece.length ≤ 9999 := hk
    obtain ⟨hindex, hsize⟩ :=
      slice_index ⟨key, .data index piece⟩ (n := index.toNat) (v := piece.length) rfl
    refine ⟨?_, ?_, ?_, ?_, hp, hm⟩
    · rw [drop_header]
      exact decimal_append_ne_terminalMark _ _ _
    · rw [hindex]
      exact Field.word_decimal .burstNumber (by decide) (by omega)
    · rw [hsize]
      exact Field.number_decimal .burstSize (by decide) (by omega)
    · rintro rfl
      exact absurd hi (by decide)

/-- a burst is found whatever digits spell its checksum -/
theorem found_of_parts (b : Burst) {f : Bytes} (rest : Bytes) {m : Nat} (hf : b.Fits)
    (hm : b.payload.length ≤ m) (hlen : f.length = 8)
    (hsum : Field.checksumIn f = .ok b.checksum) :
    Found m (b.header ++ (f ++ (b.payload ++ rest))) b := by
  have hhead : (b.header ++ (f ++ (b.payload ++ rest))).take headerSize = b.header :=
    List.take_left' (length_header b)
  refine ⟨?_, ?_, ?_, ?_, ?_, ?_⟩
  · have hfour := congrArg (List.take 4) hhead
    rw [List.take_take] at hfour
    exact hfour
  · rw [hhead]
    exact parseKey_header b hf
  · rw [hhead, slice_mid _ (length_header b) hlen]
    exact hsum
  · rw [hhead]
    exact kindIn_header b hf hm
  · rw [← List.append_assoc]
    refine slice_mid rest ?_ rfl
    rw [List.length_append, length_header, hlen]
    rfl
  · simp only [List.length_append, length_header, hlen, wireSize, overhead]
    omega

theorem found_wire (b : Burst) (rest : Bytes) {m : Nat} (hf : b.Fits) (hm : b.payload.length ≤ m) :
    Found m (b.wire ++ rest) b := by
  rw [wire, List.append_assoc, List.append_assoc]
  exact found_of_parts b rest hf hm (length_checksumField _) (Field.checksumIn_checksumField _)

theorem parse_wire (b : Burst) (rest : Bytes) (m : Nat) (hf : b.Fits) (hm : b.payload.length ≤ m) :
    parse m (b.wire ++ rest) = .ok (some (b, b.wire.length)) := by
  rw [length_wire]
  exact parse_of_found (found_wire b rest hf hm)

theorem parse_whole (b : Burst) (m : Nat) (hf : b.Fits) (hm : b.payload.length ≤ m) :
    parse m b.wire = .ok (some (b, b.wire.length)) := by
  have h := parse_wire b [] m hf hm
  rwa [List.append_nil] at h

/-! ## Beginnings of bursts -/

theorem overhead_le_of_parse {m n : Nat} {b : Bytes} {burst : Burst}
    (h : parse m b = .ok (some (burst, n))) : overhead ≤ n := by
  rw [(found_of_parse h).2]
  exact overhead_le_wireSize burst

theorem parse_take {m n : Nat} {b : Bytes} {burst : Burst} (h : parse m b = .ok (some (burst, n)))
    {k : Nat} (hk : k < n) : parse m (b.take k) = .ok none := by
  obtain ⟨hfound, rfl⟩ := found_of_parse h
  have hover : overhead ≤ b.length := Nat.le_trans (overhead_le_wireSize burst) hfound.length
  have hlen : (b.take k).length = min k b.length := List.length_take
  rw [parse]
  by_cases h4 : k < 4
  · rw [if_pos (by rw [List.length_take, hlen]; omega)]
  have hm : (b.take k).take 4 = magic := by
    rw [List.take_take, Nat.min_eq_left (by omega), hfound.magic]
  rw [hm, if_neg (by decide), if_neg (by simp)]
  by_cases h32 : k < overhead
  · rw [if_pos (by rw [List.length_take, hlen]; omega)]
  have hover' : overhead = 32 := rfl
  have hhead : headerSize = 24 := rfl
  rw [if_neg (by rw [List.length_take, hlen]; omega), List.take_take,
    Nat.min_eq_left (by omega : headerSize ≤ k), slice_take b (by omega)]
  dsimp only
  rw [hfound.key, hfound.checksum]
  -- behind the checksum only a payload is left to wait for
  obtain ⟨key, kind⟩ := burst
  cases kind with
  | announce count => exact absurd hk h32
  | terminal => exact absurd hk h32
  | data index piece =>
    obtain ⟨hmark, hindex, hsize, hzero, hpos, hmost⟩ := hfound.kind
    have hk' : k < overhead + piece.length := hk
    dsimp only [bind, Except.bind]
    rw [if_neg hmark, hindex, hsize]
    dsimp only
    rw [if_neg hzero, parseData, if_neg (by omega)]
    dsimp only
    rw [if_pos]
    rw [slice, List.length_take, List.length_drop, hlen]
    omega

theorem magic_take {m n : Nat} {b : Bytes} {burst : Burst} (h : parse m b = .ok (some (burst, n)))
    {k : Nat} (hk : 4 ≤ k) : magic.isPrefixOf (b.take k) = true := by
  rw [List.isPrefixOf_iff_prefix, ← (found_of_parse h).1.magic]
  refine List.take_prefix_take_left ?_
  exact hk

end Shoreline.Burst
