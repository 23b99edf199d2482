import Shoreline.Proofs.BurstForm
import Shoreline.Proofs.ControlForm
import Mathlib.Data.Nat.Bitwise

/-!
# One flipped bit

The register of the checksum forgets nothing: a shift can be taken back, because the highest bit of
the polynomial shows whether a bit was shifted out (`crcShift_injective`).  So two byte strings that
differ in one bit have different checksums (`crc32_flipBit_ne`), and damage of one bit shows, wherever
the checksum, and what it covers, are still read from the same places.

* `Burst.kindIn_unique`        the last seven bytes of a header tell the kinds of bursts apart;
* `Burst.eq_of_flipBit`        what is read of a damaged burst is that burst;
* `ControlLine.eq_of_flipBit`  what is read of a damaged line is that line.
-/

namespace Shoreline

/-! ## The register -/

theorem toNat_crcShift (c : UInt32) :
    (crcShift c).toNat =
      if c.toNat % 2 = 1 then c.toNat / 2 ^^^ 0xEDB88320 else c.toNat / 2 := by
  have hbit : c &&& 1 = 1 ↔ c.toNat % 2 = 1 := by
    rw [← UInt32.toNat_inj, UInt32.toNat_and, ← Nat.and_one_is_mod]
    rfl
  have hhalf : (c >>> 1).toNat = c.toNat / 2 := by
    rw [UInt32.toNat_shiftRight]
    rfl
  rw [crcShift]
  split
  · next h => rw [if_pos (hbit.mp h), UInt32.toNat_xor, hhalf]; rfl
  · next h => rw [if_neg (mt hbit.mpr h), hhalf]

/-- the highest bit after a shift is the bit that was shifted out -/
theorem testBit_crcShift (c : UInt32) :
    (crcShift c).toNat.testBit 31 = decide (c.toNat % 2 = 1) := by
  have hhalf : (c.toNat / 2).testBit 31 = false := by
    have := c.toNat_lt
    exact Nat.testBit_lt_two_pow (by omega)
  rw [toNat_crcShift]
  split
  · next h => rw [Nat.testBit_xor, hhalf, decide_eq_true h]; rfl
  · next h => rw [hhalf, decide_eq_false h]

theorem crcShift_injective : Function.Injective crcShift := by
  intro c d h
  have hbit : c.toNat % 2 = 1 ↔ d.toNat % 2 = 1 := by
    rw [← decide_eq_decide, ← testBit_crcShift, ← testBit_crcShift, h]
  have hvalue := congrArg UInt32.toNat h
  rw [toNat_crcShift, toNat_crcShift] at hvalue
  apply UInt32.toNat_inj.mp
  by_cases hc : c.toNat % 2 = 1
  · have hd := hbit.mp hc
    rw [if_pos hc, if_pos hd] at hvalue
    have := Nat.xor_left_inj.mp hvalue
    omega
  · have hd := mt hbit.mpr hc
    rw [if_neg hc, if_neg hd] at hvalue
    omega

theorem crcShifts_injective (n : Nat) : Function.Injective (Nat.repeat crcShift n) := by
  induction n with
  | zero => exact Function.injective_id
  | succ n ih => exact crcShift_injective.comp ih

theorem crcByte_left_injective (b : UInt8) : Function.Injective (crcByte · b) := by
  intro c d h
  exact (UInt32.xor_left_inj _).mp (crcShifts_injective 8 h)

theorem crcByte_right_injective (c : UInt32) : Function.Injective (crcByte c) := by
  intro a b h
  have hword := (UInt32.xor_right_inj _).mp (crcShifts_injective 8 h)
  have hvalue := congrArg UInt32.toNat hword
  rwa [UInt8.toNat_toUInt32, UInt8.toNat_toUInt32, UInt8.toNat_inj] at hvalue

theorem crcFrom_injective (b : Bytes) : Function.Injective (crcFrom · b) := by
  induction b with
  | nil => exact Function.injective_id
  | cons x b ih => exact ih.comp (crcByte_left_injective x)

/-! ## Flipped bits -/

/-- a byte string with bit `j` of its byte `i` changed -/
def flipBit (i j : Nat) (b : Bytes) : Bytes := b.modify i (· ^^^ UInt8.ofNat (2 ^ j))

theorem length_flipBit (i j : Nat) (b : Bytes) : (flipBit i j b).length = b.length :=
  List.length_modify ..

theorem flipBit_append_left {i : Nat} (j : Nat) {a : Bytes} (b : Bytes) (h : i < a.length) :
    flipBit i j (a ++ b) = flipBit i j a ++ b := by
  induction a generalizing i with
  | nil => exact absurd h (Nat.not_lt_zero i)
  | cons x a ih =>
    cases i with
    | zero => rfl
    | succ i => exact congrArg (x :: ·) (ih (Nat.lt_of_succ_lt_succ h))

theorem flipBit_append_right {i : Nat} (j : Nat) {a : Bytes} (b : Bytes) (h : a.length ≤ i) :
    flipBit i j (a ++ b) = a ++ flipBit (i - a.length) j b := by
  induction a generalizing i with
  | nil => rfl
  | cons x a ih =>
    obtain ⟨i, rfl⟩ : ∃ k, i = k + 1 := ⟨i - 1, by rw [List.length_cons] at h; omega⟩
    rw [List.length_cons, Nat.add_sub_add_right]
    exact congrArg (x :: ·) (ih (Nat.le_of_succ_le_succ h))

theorem xor_bit_ne (x : UInt8) {j : Nat} (hj : j < 8) : x ^^^ UInt8.ofNat (2 ^ j) ≠ x := by
  intro h
  have hzero : UInt8.ofNat (2 ^ j) = 0 := by
    rwa [← UInt8.xor_right_inj x, UInt8.xor_zero]
  clear h
  revert hzero
  revert j
  decide

theorem crcFrom_flipBit_ne (c : UInt32) {b : Bytes} {i j : Nat} (hi : i < b.length) (hj : j < 8) :
    crcFrom c (flipBit i j b) ≠ crcFrom c b := by
  induction b generalizing c i with
  | nil => exact absurd hi (Nat.not_lt_zero i)
  | cons x b ih =>
    cases i with
    | zero =>
      intro h
      exact xor_bit_ne x hj (crcByte_right_injective c (crcFrom_injective b h))
    | succ i => exact ih (crcByte c x) (Nat.lt_of_succ_lt_succ hi)

/-- byte strings that differ in one bit have different checksums -/
theorem crc32_flipBit_ne {b : Bytes} {i j : Nat} (hi : i < b.length) (hj : j < 8) :
    crc32 (flipBit i j b) ≠ crc32 b := by
  intro h
  exact crcFrom_flipBit_ne _ hi hj ((UInt32.xor_left_inj _).mp h)

/-! ## Damaged bursts -/

namespace Burst

/-- the last seven bytes of a header tell of which kind the burst is, and how long its payload -/
theorem kindIn_unique {m m' : Nat} {h h' : Bytes} {x y : Burst} (hx : KindIn m h x.kind)
    (hy : KindIn m' h' y.kind) (hd : h.drop 17 = h'.drop 17) :
    x.payload.length = y.payload.length ∧ (x.payload = y.payload → x.kind = y.kind) := by
  have hindex : slice 17 3 h = slice 17 3 h' := congrArg (List.take 3) hd
  have hsize : slice 20 4 h = slice 20 4 h' := by
    have hlast := congrArg (fun b => (b.drop 3).take 4) hd
    rwa [List.drop_drop, List.drop_drop] at hlast
  obtain ⟨kx, kind⟩ := x
  obtain ⟨ky, kind'⟩ := y
  cases kind with
  | terminal =>
    have hmark : h'.drop 17 = terminalMark := hd ▸ hx
    cases kind' with
    | terminal => exact ⟨rfl, fun _ => rfl⟩
    | announce count => exact absurd hmark hy.1
    | data index piece => exact absurd hmark hy.1
  | announce count =>
    obtain ⟨hmark, hnumber, hcount⟩ := hx
    rw [hd] at hmark
    rw [hindex] at hnumber
    rw [hsize] at hcount
    cases kind' with
    | terminal => exact absurd hy hmark
    | announce count' =>
      have hsame := Except.ok.inj (hcount.symm.trans hy.2.2)
      exact ⟨rfl, fun _ => congrArg BurstKind.announce (UInt16.toNat_inj.mp hsame)⟩
    | data index piece =>
      obtain ⟨-, hnumber', -, hzero, -⟩ := hy
      exact absurd (Except.ok.inj (hnumber'.symm.trans hnumber)) hzero
  | data index piece =>
    obtain ⟨hmark, hnumber, hlength, hzero, -⟩ := hx
    rw [hd] at hmark
    rw [hindex] at hnumber
    rw [hsize] at hlength
    cases kind' with
    | terminal => exact absurd hy hmark
    | announce count =>
      exact absurd (Except.ok.inj (hnumber.symm.trans hy.2.1)) hzero
    | data index' piece' =>
      obtain rfl := Except.ok.inj (hnumber.symm.trans hy.2.1)
      have hpiece := Except.ok.inj (hlength.symm.trans hy.2.2.1)
      exact ⟨hpiece, fun hp => congrArg (BurstKind.data index) hp⟩

section
variable {b other : Burst} {m : Nat} {h f p rest : Bytes}

/-- what is found in the place of a burst, when the burst's last header bytes are still there -/
theorem found_in_place (hb : b.Fits) (hlen : h.length = headerSize)
    (hd : h.drop 17 = b.header.drop 17) (hf : f.length = 8) (hp : p.length = b.payload.length)
    (hfound : Found m (h ++ (f ++ (p ++ rest))) other) :
    other.header = h ∧ other.payload = p ∧ Field.checksumIn f = .ok (crc32 (h ++ p)) ∧
      (p = b.payload → other.kind = b.kind) := by
  have hhead : (h ++ (f ++ (p ++ rest))).take headerSize = h := List.take_left' hlen
  have hheader := header_of_found hfound
  have hkind := hfound.kind
  have hsum := hfound.checksum
  have hpiece := hfound.payload
  rw [hhead] at hheader hkind hsum
  obtain ⟨hsize, hsame⟩ := kindIn_unique hkind (kindIn_header b hb (Nat.le_refl _)) hd
  have hfront : (h ++ f).length = overhead := by
    rw [List.length_append, hlen, hf]
    rfl
  rw [← List.append_assoc, slice_mid rest hfront (hp.trans hsize.symm)] at hpiece
  rw [slice_mid _ hlen hf, ← hpiece] at hsum
  exact ⟨hheader.symm, hpiece.symm, hsum, fun he => hsame (hpiece.symm.trans he)⟩

/-- where the header and the payload are still those of the burst, the burst itself is read -/
theorem eq_of_found_in_place (hb : b.Fits) (hf : f.length = 8)
    (hfound : Found m (b.header ++ (f ++ (b.payload ++ rest))) other) : other = b := by
  obtain ⟨hheader, -, -, hkind⟩ :=
    found_in_place hb (length_header b) rfl hf rfl hfound
  have hkey := parseKey_header other (fits_of_found hfound)
  rw [hheader, parseKey_header b hb] at hkey
  obtain ⟨key, kind⟩ := other
  obtain ⟨key', kind'⟩ := b
  rw [show kind = kind' from hkind rfl, show key = key' from (Except.ok.inj hkey).symm]

/-- one flipped bit, before the burst number or behind the size, never makes another burst -/
theorem eq_of_flipBit (hb : b.Fits) {i j n : Nat} (hi : i < b.wire.length) (hj : j < 8)
    (hout : ¬ (17 ≤ i ∧ i < headerSize))
    (h : parse m (flipBit i j b.wire ++ rest) = .ok (some (other, n))) : other = b := by
  obtain ⟨hfound, -⟩ := found_of_parse h
  have hsum := Field.checksumIn_checksumField b.checksum
  have hfront : (magic ++ keyField b.key).length = 17 := by
    rw [List.length_append, length_keyField]
    rfl
  have hhead := length_header b
  have hsize := length_checksumField b.checksum
  have hsize' : headerSize = 24 := rfl
  rw [wire, List.append_assoc] at hfound
  by_cases h17 : i < 17
  · -- the checksum is that of the header as it was
    have hi' : i < (magic ++ keyField b.key).length := by omega
    rw [flipBit_append_left j _ (by omega), List.append_assoc, List.append_assoc] at hfound
    have hd : (flipBit i j b.header).drop 17 = b.header.drop 17 := by
      rw [drop_header, header, flipBit_append_left j _ hi']
      exact List.drop_left' ((length_flipBit ..).trans hfront)
    obtain ⟨-, -, hsum', -⟩ :=
      found_in_place hb ((length_flipBit ..).trans hhead) hd hsize rfl hfound
    have hsame := Except.ok.inj (hsum'.symm.trans hsum)
    rw [← flipBit_append_left j _ (by omega)] at hsame
    exact absurd hsame (crc32_flipBit_ne (by rw [List.length_append]; omega) hj)
  rw [flipBit_append_right j _ (by omega)] at hfound
  by_cases h32 : i < headerSize + 8
  · -- the checksum's digits are others, or the same ones
    rw [flipBit_append_left j _ (by omega), List.append_assoc, List.append_assoc] at hfound
    exact eq_of_found_in_place hb ((length_flipBit ..).trans hsize) hfound
  · -- the checksum is that of the payload as it was
    rw [flipBit_append_right j _ (by omega), List.append_assoc, List.append_assoc] at hfound
    obtain ⟨-, -, hsum', -⟩ :=
      found_in_place hb hhead rfl hsize (length_flipBit ..) hfound
    have hsame := Except.ok.inj (hsum'.symm.trans hsum)
    rw [length_wire] at hi
    have hover : overhead = 32 := rfl
    have hi' : i - 8 < (b.header ++ b.payload).length := by
      rw [List.length_append]
      omega
    rw [show i - b.header.length - (checksumField b.checksum).length = i - 8 - b.header.length by
      omega, ← flipBit_append_right j _ (by omega)] at hsame
    exact absurd hsame (crc32_flipBit_ne hi' hj)

end

end Burst

/-! ## Damaged lines -/

namespace ControlLine

/-- one flipped bit never makes another line -/
theorem eq_of_flipBit {text : Bytes} {line other : ControlLine} (h : parse text = .ok line)
    {i j : Nat} (hi : i < text.length) (hj : j < 8) (h' : parse (flipBit i j text) = .ok other) :
    other = line := by
  obtain ⟨hfits, f, rfl, hsum⟩ := parse_eq_ok_iff.mp h
  obtain ⟨hfits', f', htext, hsum'⟩ := parse_eq_ok_iff.mp h'
  have hbody := length_body line
  have hbody' := length_body other
  by_cases hfront : i < bodySize
  · -- the checksum is that of the body as it was
    rw [flipBit_append_left j f (by omega)] at htext
    obtain ⟨hflip, rfl⟩ := List.append_inj htext (by rw [length_flipBit, hbody, hbody'])
    rw [← hflip] at hsum'
    have hsame := Except.ok.inj (hsum'.symm.trans hsum)
    exact absurd hsame (crc32_flipBit_ne (by omega) hj)
  · rw [flipBit_append_right j f (by omega)] at htext
    obtain ⟨hsame, -⟩ := List.append_inj htext (by rw [hbody, hbody'])
    have htext' := parse_text other hfits'
    rw [text, ← hsame, ← text, parse_text line hfits] at htext'
    exact (Except.ok.inj htext').symm

end ControlLine

/-- one flipped bit changes the checksum of every byte string; so no burst that is damaged so,
outside its number and size, and no line that is damaged so, is read as another one -/
theorem flipped_bit_shows :
    (∀ (b : Bytes) (i j : Nat), i < b.length → j < 8 → crc32 (flipBit i j b) ≠ crc32 b) ∧
      (∀ b : Burst, b.Fits → ∀ i j : Nat, i < b.wire.length → j < 8 → ¬ (17 ≤ i ∧ i < 24) →
        ∀ (m : Nat) (rest : Bytes) (other : Burst) (n : Nat),
          Burst.parse m (flipBit i j b.wire ++ rest) = .ok (some (other, n)) → other = b) ∧
      ∀ (text : Bytes) (line : ControlLine), ControlLine.parse text = .ok line →
        ∀ i j : Nat, i < text.length → j < 8 → ∀ other : ControlLine,
          ControlLine.parse (flipBit i j text) = .ok other → other = line := by
  refine ⟨?_, ?_, ?_⟩
  · intro b i j hi hj
    exact crc32_flipBit_ne hi hj
  · intro b hb i j hi hj hout m rest other n h
    exact Burst.eq_of_flipBit hb hi hj hout h
  · intro text line h i j hi hj other h'
    exact ControlLine.eq_of_flipBit h hi hj h'

/-- a letter of the checksum changes its case by one bit, and the burst and the line are read -/
theorem flipped_case_read :
    let b : Burst := ⟨⟨⟨770, 12345⟩, 3⟩, .data 2 [1, 2, 3]⟩
    let line := ControlLine.received b.key
    crc32 (flipBit 2 7 b.payload) ≠ crc32 b.payload ∧ b.Fits ∧
      (∃ other n, Burst.parse 8192 (flipBit 26 5 b.wire ++ []) = .ok (some (other, n)) ∧
        other = b) ∧
      ControlLine.parse line.text = .ok line ∧
      ∃ other, ControlLine.parse (flipBit 25 5 line.text) = .ok other ∧ other = line := by
  intro b line
  obtain ⟨hsum, hburst, hline⟩ := flipped_bit_shows
  have hb : b.Fits := ⟨by decide, by decide, by decide, by decide, by decide, by decide⟩
  have hread : Burst.parse 8192 (flipBit 26 5 b.wire ++ []) = .ok (some (b, 35)) := by
    decide +kernel
  have htext : ControlLine.parse line.text = .ok line := by decide +kernel
  have htext' : ControlLine.parse (flipBit 25 5 line.text) = .ok line := by decide +kernel
  refine ⟨hsum b.payload 2 7 (by decide) (by decide), hb, ⟨b, 35, hread, ?_⟩, htext, line, htext',
    ?_⟩
  · exact hburst b hb 26 5 (by decide +kernel) (by decide) (by decide) 8192 [] b 35 hread
  · exact hline line.text line htext 25 5 (by decide +kernel) (by decide) line htext'

end Shoreline
