import Shoreline.Digits
import Shoreline.Fault

/-!
# Reading fields

A field that does not hold what it should is malformed, and the fault names the field.
-/

namespace Shoreline.Field

def number (field : Field) (b : Bytes) : Except Fault Nat := orFault (.malformed field) (value? b)

/-- reads a field of digits that stands for a 16-bit number -/
def word (field : Field) (b : Bytes) : Except Fault UInt16 := do
  let v ← field.number b
  if v < 65536 then .ok (UInt16.ofNat v) else .error (.malformed field)

def checksumIn (b : Bytes) : Except Fault UInt32 :=
  orFault (.malformed .checksum) (checksumValue? b)

end Shoreline.Field
