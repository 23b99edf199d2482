import Shoreline.Field

/-!
# Fields are read back

A field that was written from a number is read as that number: decimal fields when the number fits
into them, checksum fields always.

* `slice_mid`                  the part between two others, by position;
* `slice_append`               what follows a part is not looked at;
* `hexNumber?_hexadecimal`     hexadecimal digits stand for the number modulo `16 ^ width`;
* `checksumIn_checksumField`   a checksum is read back;
* `word_decimal`               a 16-bit number that fits into its field is read back;
* `number_lt`, `word_lt`       what is read from a field fits into it.
-/

namespace Shoreline

/-! ## Parts of a concatenation -/

theorem slice_mid {i n : Nat} {a b : Bytes} (c : Bytes) (ha : a.length = i) (hb : b.length = n) :
    slice i n (a ++ (b ++ c)) = b := by
  rw [slice, ← ha, List.drop_left, ← hb, List.take_left]

theorem slice_end {i n : Nat} {a b : Bytes} (ha : a.length = i) (hb : b.length = n) :
    slice i n (a ++ b) = b := by
  rw [slice, ← ha, List.drop_left, ← hb, List.take_length]

theorem slice_take {i n m : Nat} (b : Bytes) (h : i + n ≤ m) :
    slice i n (b.take m) = slice i n b := by
  rw [slice, slice, List.drop_take, List.take_take, Nat.min_eq_left (by omega)]

theorem slice_append_drop (i n : Nat) (b : Bytes) : slice i n b ++ b.drop (i + n) = b.drop i := by
  rw [slice, ← List.drop_drop, List.take_append_drop]

theorem slice_append {i n : Nat} {b : Bytes} (h : i + n ≤ b.length) (t : Bytes) :
    slice i n (b ++ t) = slice i n b := by
  rw [← slice_take (b ++ t) h, List.take_left]

/-! ## Digits -/

/-- a field of decimal digits shows the last ones of a number -/
theorem decimal_mod (width v : Nat) : decimal width (v % 10 ^ width) = decimal width v := by
  induction width generalizing v with
  | zero => rfl
  | succ n ih =>
    rw [decimal, decimal, Nat.pow_succ, Nat.mul_comm (10 ^ n) 10, Nat.mod_mul_right_div_self,
      Nat.mod_mul_right_mod, ih]

/-! ## Hexadecimal digits -/

theorem hexValue?_hexDigit {v : Nat} (h : v < 16) : hexValue? (hexDigit v) = some v := by
  revert h
  revert v
  decide

theorem hexNumber?_snoc {b : Bytes} {d : UInt8} {v w : Nat} (hb : hexNumber? b = some v)
    (hd : hexValue? d = some w) : hexNumber? (b ++ [d]) = some (v * 16 + w) := by
  rw [hexNumber?] at hb ⊢
  rw [List.foldlM_append, hb]
  simp [hd]

theorem hexNumber?_hexadecimal (width v : Nat) :
    hexNumber? (hexadecimal width v) = some (v % 16 ^ width) := by
  induction width generalizing v with
  | zero =>
    rw [Nat.pow_zero, Nat.mod_one]
    rfl
  | succ n ih =>
    have hd : hexValue? (hexDigit (v % 16)) = some (v % 16) :=
      hexValue?_hexDigit (Nat.mod_lt v (by decide))
    rw [hexadecimal, hexNumber?_snoc (ih (v / 16)) hd, Nat.pow_succ, Nat.mul_comm (16 ^ n) 16,
      Nat.mod_mul]
    congr 1
    omega

theorem checksumValue?_checksumField (c : UInt32) : checksumValue? (checksumField c) = some c := by
  have hlt : c.toNat < 16 ^ 8 := Nat.lt_of_lt_of_eq c.toNat_lt (by decide)
  rw [checksumValue?, if_pos (length_checksumField c), checksumField, hexNumber?_hexadecimal,
    Option.map_some, Nat.mod_eq_of_lt hlt, UInt32.ofNat_toNat]

/-! ## Fields -/

namespace Field

theorem checksumIn_checksumField (c : UInt32) : checksumIn (checksumField c) = .ok c := by
  rw [checksumIn, checksumValue?_checksumField]
  rfl

theorem number_decimal (field : Field) {width v : Nat} (hw : 0 < width) (h : v < 10 ^ width) :
    field.number (decimal width v) = .ok v := by
  rw [number, value?_decimal width v hw, Nat.mod_eq_of_lt h]
  rfl

theorem word_decimal (field : Field) {width : Nat} {w : UInt16} (hw : 0 < width)
    (h : w.toNat < 10 ^ width) : field.word (decimal width w.toNat) = .ok w := by
  have := w.toNat_lt
  rw [word, number_decimal field hw h]
  show (if w.toNat < 65536 then _ else _) = _
  rw [if_pos (by omega), UInt16.ofNat_toNat]

/-! ## What a field can hold -/

theorem number_lt {field : Field} {i width v : Nat} {b : Bytes}
    (h : field.number (slice i width b) = .ok v) : v < 10 ^ width := by
  have hpow : 10 ^ (slice i width b).length ≤ 10 ^ width :=
    Nat.pow_le_pow_right (by decide) (List.length_take_le _ _)
  exact Nat.lt_of_lt_of_le (value?_lt (orFault_eq_ok h)) hpow

theorem word_lt {field : Field} {i width : Nat} {b : Bytes} {w : UInt16}
    (h : field.word (slice i width b) = .ok w) : w.toNat < 10 ^ width := by
  obtain ⟨v, hv, hw⟩ := bind_eq_ok h
  split at hw
  · rw [← Except.ok.inj hw]
    exact Nat.lt_of_le_of_lt (Nat.mod_le _ _) (number_lt hv)
  · exact absurd hw (by simp)

end Field

end Shoreline
