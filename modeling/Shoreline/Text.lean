import Shoreline.Bytes

/-!
# Texts inside messages

How messages show a byte as a character, four bytes as a list, a checksum and a length of time.
-/

namespace Shoreline.Text

/-- the digits of `v` in base 16, lower case, no zeros in front -/
def hex (v : Nat) : String := String.ofList (Nat.toDigits 16 v)

/-- `text` filled up on the left with zeros to `width` characters -/
def zeroFill (width : Nat) (text : String) : String :=
  String.ofList (List.replicate (width - text.length) '0') ++ text

/-- `0x` and eight digits -/
def checksum (c : UInt32) : String := "0x" ++ zeroFill 8 (hex c.toNat)

/-- the numbers of a byte string in square brackets -/
def byteList (b : Bytes) : String :=
  "[" ++ ", ".intercalate (b.map fun x => toString x.toNat) ++ "]"

/-- characters that are shown by their number: controls, and the blanks and the soft hyphen above
ASCII -/
def isHidden (b : UInt8) : Bool := b < 0x20 || (0x7F ≤ b && b ≤ 0xA0) || b == 0xAD

/-- a byte read as a Latin-1 character, in single quotes -/
def quoted (b : UInt8) : String :=
  let body :=
    if b == 0 then "\\0"
    else if b == 9 then "\\t"
    else if b == 10 then "\\n"
    else if b == 13 then "\\r"
    else if b == 39 then "\\'"
    else if b == 92 then "\\\\"
    else if isHidden b then "\\u\x7b" ++ hex b.toNat ++ "\x7d"
    else String.singleton (Char.ofNat b.toNat)
  "'" ++ body ++ "'"

/-- `v / 10 ^ places` as a decimal number without trailing zeros -/
def fixedPoint (v places : Nat) : String :=
  let fraction := zeroFill places (toString (v % 10 ^ places))
  let shown := (fraction.toList.reverse.dropWhile (· == '0')).reverse
  let whole := toString (v / 10 ^ places)
  if v % 10 ^ places = 0 then whole else whole ++ "." ++ String.ofList shown

/-- a length of time given in nanoseconds, in the largest unit of which it holds at least one -/
def duration (ns : Nat) : String :=
  if 1000000000 ≤ ns then fixedPoint ns 9 ++ "s"
  else if 1000000 ≤ ns then fixedPoint ns 6 ++ "ms"
  else if 1000 ≤ ns then fixedPoint ns 3 ++ "µs"
  else toString ns ++ "ns"

end Shoreline.Text
