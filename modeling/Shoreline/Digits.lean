import Shoreline.Bytes

/-!
# Fixed-width numbers

Header fields are decimal digits of a fixed width, checksums are eight hexadecimal digits.  A number
too large for its field keeps its low digits.

* `value?_decimal`   a decimal field is read back as the number modulo `10 ^ width`;
* `value?_lt`        a field of `width` digits stands for a number below `10 ^ width`.
-/

namespace Shoreline

/-! ## Decimal fields -/

def isDigit (b : UInt8) : Bool := 48 ≤ b && b ≤ 57

/-- the `width` low decimal digits of `v`, zeros in front -/
def decimal : Nat → Nat → Bytes
  | 0, _ => []
  | width + 1, v => decimal width (v / 10) ++ [UInt8.ofNat (48 + v % 10)]

/-- the number that a string of digits stands for, leading zeros allowed -/
def digitsValue (b : Bytes) : Nat := b.foldl (fun v d => v * 10 + (d.toNat - 48)) 0

/-- reads a field that holds digits only, at least one -/
def value? (b : Bytes) : Option Nat :=
  if b ≠ [] ∧ b.all isDigit then some (digitsValue b) else none

theorem length_decimal (width v : Nat) : (decimal width v).length = width := by
  induction width generalizing v with
  | zero => rfl
  | succ n ih => rw [decimal, List.length_append, ih]; rfl

theorem digitsValue_snoc (b : Bytes) (d : UInt8) :
    digitsValue (b ++ [d]) = digitsValue b * 10 + (d.toNat - 48) := by
  simp [digitsValue, List.foldl_append]

theorem toNat_digit (v : Nat) : (UInt8.ofNat (48 + v % 10)).toNat = 48 + v % 10 := by
  simp only [UInt8.toNat_ofNat']; omega

theorem isDigit_iff (b : UInt8) : isDigit b = true ↔ 48 ≤ b.toNat ∧ b.toNat ≤ 57 := by
  simp [isDigit, UInt8.le_iff_toNat_le]

theorem all_isDigit_decimal (width v : Nat) : (decimal width v).all isDigit = true := by
  induction width generalizing v with
  | zero => rfl
  | succ n ih =>
    rw [decimal, List.all_append, ih, List.all_cons, List.all_nil, Bool.and_true, Bool.true_and,
      isDigit_iff, toNat_digit]
    omega

theorem digitsValue_decimal (width v : Nat) : digitsValue (decimal width v) = v % 10 ^ width := by
  induction width generalizing v with
  | zero => simp [decimal, digitsValue, Nat.mod_one]
  | succ n ih =>
    rw [decimal, digitsValue_snoc, ih, toNat_digit, Nat.pow_succ, Nat.mul_comm (10 ^ n) 10,
      Nat.mod_mul]
    omega

theorem value?_decimal (width v : Nat) (h : 0 < width) :
    value? (decimal width v) = some (v % 10 ^ width) := by
  have hne : decimal width v ≠ [] := by
    intro he
    have := length_decimal width v
    rw [he] at this
    simp only [List.length_nil] at this
    omega
  rw [value?, if_pos ⟨hne, all_isDigit_decimal width v⟩, digitsValue_decimal]

theorem digitsValue_lt {b : Bytes} (h : b.all isDigit = true) : digitsValue b < 10 ^ b.length := by
  have hfold : ∀ v, b.foldl (fun v d => v * 10 + (d.toNat - 48)) v < (v + 1) * 10 ^ b.length := by
    induction b with
    | nil => exact fun v => Nat.lt_of_lt_of_eq (Nat.lt_succ_self v) (Nat.mul_one _).symm
    | cons d b ih =>
      intro v
      rw [List.all_cons, Bool.and_eq_true, isDigit_iff] at h
      have hfirst : (v * 10 + (d.toNat - 48) + 1) * 10 ^ b.length ≤ (v + 1) * 10 * 10 ^ b.length :=
        Nat.mul_le_mul_right _ (by omega)
      rw [List.foldl_cons, List.length_cons, Nat.pow_succ, Nat.mul_comm (10 ^ b.length),
        ← Nat.mul_assoc]
      exact Nat.lt_of_lt_of_le (ih h.2 _) hfirst
  exact Nat.lt_of_lt_of_eq (hfold 0) (Nat.one_mul _)

theorem value?_lt {b : Bytes} {v : Nat} (h : value? b = some v) : v < 10 ^ b.length := by
  rw [value?] at h
  split at h
  · next hb =>
    rw [← Option.some.inj h]
    exact digitsValue_lt hb.2
  · exact absurd h (by simp)

/-! ## Hexadecimal checksums -/

/-- an upper-case hexadecimal digit -/
def hexDigit (v : Nat) : UInt8 := UInt8.ofNat (if v < 10 then 48 + v else 55 + v)

/-- the `width` low hexadecimal digits of `v`, upper case, zeros in front -/
def hexadecimal : Nat → Nat → Bytes
  | 0, _ => []
  | width + 1, v => hexadecimal width (v / 16) ++ [hexDigit (v % 16)]

/-- reads a hexadecimal digit of either case -/
def hexValue? (b : UInt8) : Option Nat :=
  if isDigit b then some (b.toNat - 48)
  else if 65 ≤ b && b ≤ 70 then some (b.toNat - 55)
  else if 97 ≤ b && b ≤ 102 then some (b.toNat - 87)
  else none

/-- the number that hexadecimal digits stand for -/
def hexNumber? (b : Bytes) : Option Nat :=
  b.foldlM (fun v d => (hexValue? d).map (v * 16 + ·)) 0

/-- the checksum field: eight upper-case digits -/
def checksumField (c : UInt32) : Bytes := hexadecimal 8 c.toNat

/-- reads a checksum field, digits of either case -/
def checksumValue? (b : Bytes) : Option UInt32 :=
  if b.length = 8 then (hexNumber? b).map UInt32.ofNat else none

theorem length_hexadecimal (width v : Nat) : (hexadecimal width v).length = width := by
  induction width generalizing v with
  | zero => rfl
  | succ n ih => rw [hexadecimal, List.length_append, ih]; rfl

theorem length_checksumField (c : UInt32) : (checksumField c).length = 8 := length_hexadecimal 8 _

end Shoreline
