import Shoreline.Proofs.Fields
import Mathlib.Data.List.Induction

/-!
# Fields have one spelling

What is read from a field is what the field spells: the digits of a decimal field are those that are
written for its number, and so are the digits of a checksum field, but for the case of the letters.

* `Field.eq_decimal_of_number`   a decimal field;
* `Field.checksumIn_eq_ok_iff`   a checksum field;
* `SameButCase`                  strings that differ in those letters only.
-/

namespace Shoreline

/-! ## Decimal fields -/

theorem decimal_digitsValue {b : Bytes} (h : b.all isDigit = true) :
    decimal b.length (digitsValue b) = b := by
  induction b using List.reverseRecOn with
  | nil => rfl
  | append_singleton b d ih =>
    rw [List.all_append, Bool.and_eq_true, List.all_cons, List.all_nil, Bool.and_true,
      isDigit_iff] at h
    obtain ⟨hb, hd⟩ := h
    have hlast : (digitsValue b * 10 + (d.toNat - 48)) % 10 = d.toNat - 48 := by omega
    have hrest : (digitsValue b * 10 + (d.toNat - 48)) / 10 = digitsValue b := by omega
    rw [List.length_append, List.length_singleton, digitsValue_snoc, decimal, hrest, hlast, ih hb,
      Nat.add_sub_cancel' hd.1, UInt8.ofNat_toNat]

theorem decimal_of_value? {b : Bytes} {v : Nat} (h : value? b = some v) :
    decimal b.length v = b := by
  rw [value?] at h
  split at h
  · next hb =>
    rw [← Option.some.inj h]
    exact decimal_digitsValue hb.2
  · exact absurd h (by simp)

namespace Field

theorem eq_decimal_of_number {field : Field} {i width v : Nat} {b : Bytes}
    (h : field.number (slice i width b) = .ok v) (hb : i + width ≤ b.length) :
    slice i width b = decimal width v := by
  have hv := decimal_of_value? (orFault_eq_ok h)
  rw [length_slice i width b hb] at hv
  exact hv.symm

theorem eq_decimal_of_word {field : Field} {i width : Nat} {w : UInt16} {b : Bytes}
    (h : field.word (slice i width b) = .ok w) (hb : i + width ≤ b.length) :
    slice i width b = decimal width w.toNat := by
  obtain ⟨v, hv, hw⟩ := bind_eq_ok h
  split at hw
  · next hlt =>
    rw [← Except.ok.inj hw, UInt16.toNat_ofNat', Nat.mod_eq_of_lt hlt]
    exact eq_decimal_of_number hv hb
  · exact absurd hw (by simp)

end Field

/-! ## Hexadecimal digits of either case -/

/-- a hexadecimal digit in upper case; other bytes stay -/
def upper (x : UInt8) : UInt8 := if 97 ≤ x ∧ x ≤ 102 then x - 32 else x

theorem toNat_upper (x : UInt8) :
    (upper x).toNat = if 97 ≤ x.toNat ∧ x.toNat ≤ 102 then x.toNat - 32 else x.toNat := by
  unfold upper
  simp only [UInt8.le_iff_toNat_le]
  show (if 97 ≤ x.toNat ∧ x.toNat ≤ 102 then x - 32 else x).toNat = _
  split
  · next h =>
    have h32 : (32 : UInt8) ≤ x := UInt8.le_iff_toNat_le.mpr (Nat.le_trans (by decide) h.1)
    exact UInt8.toNat_sub_of_le x 32 h32
  · rfl

theorem hexValue?_eq (x : UInt8) :
    hexValue? x =
      if 48 ≤ x.toNat ∧ x.toNat ≤ 57 then some (x.toNat - 48)
      else if 65 ≤ x.toNat ∧ x.toNat ≤ 70 then some (x.toNat - 55)
      else if 97 ≤ x.toNat ∧ x.toNat ≤ 102 then some (x.toNat - 87)
      else none := by
  simp only [hexValue?, isDigit, UInt8.le_iff_toNat_le, Bool.and_eq_true, decide_eq_true_eq]
  rfl

theorem hexValue?_upper (x : UInt8) : hexValue? (upper x) = hexValue? x := by
  rw [hexValue?_eq, hexValue?_eq, toNat_upper]
  have := x.toNat_lt
  grind

theorem hexDigit_of_hexValue? {x : UInt8} {v : Nat} (h : hexValue? x = some v) :
    hexDigit v = upper x := by
  apply UInt8.toNat_inj.mp
  rw [hexValue?_eq] at h
  rw [toNat_upper, hexDigit, UInt8.toNat_ofNat']
  grind

theorem hexadecimal_of_hexNumber? {b : Bytes} {v : Nat} (h : hexNumber? b = some v) :
    hexadecimal b.length v = b.map upper := by
  induction b using List.reverseRecOn generalizing v with
  | nil => rfl
  | append_singleton b d ih =>
    rw [hexNumber?, List.foldlM_append] at h
    obtain ⟨w, hw, h⟩ := Option.bind_eq_some_iff.mp h
    obtain ⟨x, hx, rfl⟩ := Option.map_eq_some_iff.mp
      (show (hexValue? d).map (w * 16 + ·) = some v by simpa using h)
    have hlt : x < 16 := by
      rw [hexValue?_eq] at hx
      grind
    have hlast : (w * 16 + x) % 16 = x := by omega
    have hrest : (w * 16 + x) / 16 = w := by omega
    rw [List.length_append, List.length_singleton, hexadecimal, hrest, hlast, ih hw,
      hexDigit_of_hexValue? hx, List.map_append, List.map_singleton]

theorem hexNumber?_map_upper (b : Bytes) : hexNumber? (b.map upper) = hexNumber? b := by
  unfold hexNumber?
  rw [List.foldlM_map]
  simp only [hexValue?_upper]

/-- a checksum field holds the checksum's digits, the letters in either case -/
theorem checksumValue?_eq_some_iff {b : Bytes} {c : UInt32} :
    checksumValue? b = some c ↔ b.map upper = checksumField c := by
  constructor
  · intro h
    rw [checksumValue?] at h
    split at h
    · next hlen =>
      obtain ⟨v, hv, rfl⟩ := Option.map_eq_some_iff.mp h
      have hfield := hexadecimal_of_hexNumber? hv
      rw [hlen] at hfield
      have hlt : v < 16 ^ 8 := by
        have hback := hexNumber?_hexadecimal 8 v
        rw [hfield, hexNumber?_map_upper, hv] at hback
        rw [Option.some.inj hback]
        exact Nat.mod_lt v (by decide)
      rw [checksumField, UInt32.toNat_ofNat', Nat.mod_eq_of_lt (by omega), hfield]
    · exact absurd h (by simp)
  · intro h
    have hlen : b.length = 8 := by
      rw [← List.length_map upper, h, length_checksumField]
    have hfield := checksumValue?_checksumField c
    rw [← h, checksumValue?, List.length_map, hexNumber?_map_upper] at hfield
    exact hfield

theorem map_upper_checksumField (c : UInt32) : (checksumField c).map upper = checksumField c :=
  checksumValue?_eq_some_iff.mp (checksumValue?_checksumField c)

theorem Field.checksumIn_eq_ok_iff {b : Bytes} {c : UInt32} :
    Field.checksumIn b = .ok c ↔ b.map upper = checksumField c := by
  rw [← checksumValue?_eq_some_iff, checksumIn]
  constructor
  · exact orFault_eq_ok
  · intro h
    rw [h]
    rfl

theorem Field.length_of_checksumIn {b : Bytes} {c : UInt32} (h : Field.checksumIn b = .ok c) :
    b.length = 8 := by
  rw [← List.length_map upper, checksumIn_eq_ok_iff.mp h, length_checksumField]

/-! ## Strings with a checksum field -/

/-- the strings agree but for the case of hexadecimal letters in the eight bytes from `i` on -/
structure SameButCase (i : Nat) (a b : Bytes) : Prop where
  front : a.take i = b.take i
  field : (slice i 8 a).map upper = (slice i 8 b).map upper
  rear : a.drop (i + 8) = b.drop (i + 8)

namespace SameButCase
variable {i : Nat} {a b c : Bytes}

theorem symm (h : SameButCase i a b) : SameButCase i b a :=
  ⟨h.front.symm, h.field.symm, h.rear.symm⟩

theorem trans (h : SameButCase i a b) (h' : SameButCase i b c) : SameButCase i a c :=
  ⟨h.front.trans h'.front, h.field.trans h'.field, h.rear.trans h'.rear⟩

theorem length_eq (h : SameButCase i a b) : a.length = b.length := by
  have hfront := congrArg List.length h.front
  have hfield := congrArg List.length h.field
  have hrear := congrArg List.length h.rear
  simp only [slice, List.length_map, List.length_take, List.length_drop] at hfront hfield hrear
  omega

/-- strings that agree so with one in which a checksum was written hold that checksum -/
theorem append_iff {x : UInt32} (ha : a.length = i) :
    SameButCase i (a ++ (checksumField x ++ c)) b ↔
      ∃ f, b = a ++ (f ++ c) ∧ Field.checksumIn f = .ok x := by
  have hdrop (f : Bytes) (hf : f.length = 8) : (a ++ (f ++ c)).drop (i + 8) = c := by
    rw [← List.append_assoc]
    apply List.drop_left'
    rw [List.length_append, ha, hf]
  have hwritten := length_checksumField x
  constructor
  · rintro ⟨hfront, hfield, hrear⟩
    rw [List.take_left' ha] at hfront
    rw [slice_mid c ha hwritten, map_upper_checksumField] at hfield
    rw [hdrop _ hwritten] at hrear
    refine ⟨slice i 8 b, ?_, Field.checksumIn_eq_ok_iff.mpr hfield.symm⟩
    rw [hfront, hrear, slice_append_drop, List.take_append_drop]
  · rintro ⟨f, rfl, hf⟩
    have hlen := Field.length_of_checksumIn hf
    constructor
    · rw [List.take_left' ha, List.take_left' ha]
    · rw [slice_mid c ha hwritten, slice_mid c ha hlen, map_upper_checksumField,
        Field.checksumIn_eq_ok_iff.mp hf]
    · rw [hdrop _ hwritten, hdrop _ hlen]

end SameButCase

end Shoreline
