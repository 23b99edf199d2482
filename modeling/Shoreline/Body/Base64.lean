import Shoreline.Fault

/-!
# Base64

The standard alphabet with padding.  Three bytes become four symbols of six bits; a last group of one
or two bytes is filled up with `=` to four characters.  The reader asks for that padding and for
zeros in the bits that no byte uses, so that each byte string has one encoding.

The reader looks at the last quad only after everything before it, and within it from left to right;
the fault of an input with several faults follows from this order.
-/

namespace Shoreline.Base64

def pad : UInt8 := 61

/-- the character of a six-bit symbol -/
def char (v : Nat) : UInt8 :=
  UInt8.ofNat
    (if v < 26 then 65 + v else if v < 52 then 71 + v else if v < 62 then v - 4
      else if v = 62 then 43 else 47)

/-- the symbol of a character of the alphabet -/
def symbol? (c : UInt8) : Option Nat :=
  let v := c.toNat
  if 65 ≤ v ∧ v ≤ 90 then some (v - 65)
  else if 97 ≤ v ∧ v ≤ 122 then some (v - 71)
  else if 48 ≤ v ∧ v ≤ 57 then some (v + 4)
  else if v = 43 then some 62
  else if v = 47 then some 63
  else none

/-- digits in the given base as a number, the highest first -/
def number (base : Nat) (ds : List Nat) : Nat := ds.foldl (fun v d => v * base + d) 0

/-! ## Writing -/

def encodeGroup (g : Bytes) : Bytes :=
  let v := number 256 (g.map UInt8.toNat ++ List.replicate (3 - g.length) 0)
  let symbols := [v / 64 ^ (3 : Nat) % 64, v / 64 ^ (2 : Nat) % 64, v / 64 % 64, v % 64]
  (symbols.take (g.length + 1)).map char ++ List.replicate (3 - g.length) pad

def encode (b : Bytes) : Bytes := (chunks 3 b).flatMap encodeGroup

/-! ## Reading -/

/-- the bytes of a group of two to four symbols -/
def decodeGroup (g : List Nat) : Bytes :=
  let v := number 64 (g ++ List.replicate (4 - g.length) 0)
  [UInt8.ofNat (v / 256 ^ (2 : Nat)), UInt8.ofNat (v / 256), UInt8.ofNat v].take (g.length - 1)

/-- the symbols of characters that start at `offset` -/
def symbols (offset : Nat) (acc : List Nat) : Bytes → Except Fault (List Nat)
  | [] => .ok acc.reverse
  | c :: cs =>
    match symbol? c with
    | some v => symbols (offset + 1) (v :: acc) cs
    | none => .error (.body (.base64Symbol c offset))

/-- the symbols of the last quad, which starts at `offset`, and the length of its padding -/
def lastQuad (offset : Nat) (acc : List Nat) : Bytes → Except Fault (List Nat × Nat)
  | [] => .ok (acc.reverse, 0)
  | c :: cs =>
    if c = pad then
      if acc.length < 2 ∨ cs.any (· != pad) then
        .error (.body (.base64Symbol pad (offset + acc.length)))
      else .ok (acc.reverse, cs.length + 1)
    else
      match symbol? c with
      | some v => lastQuad offset (v :: acc) cs
      | none => .error (.body (.base64Symbol c (offset + acc.length)))

/-- the bits of the last symbol that no byte uses, when the last quad has `n` symbols -/
def unusedBits (n v : Nat) : Nat := if n = 2 then v % 16 else if n = 3 then v % 4 else 0

/-- where the last quad of `n` characters starts -/
def lastStart (n : Nat) : Nat := if n % 4 = 0 then n - 4 else n - n % 4

/-- a single character after the last full quad is looked at first -/
def checkSingle (b : Bytes) : Except Fault Unit :=
  match b.getLast? with
  | some c =>
    if b.length % 4 = 1 ∧ c ≠ pad ∧ symbol? c = none then
      .error (.body (.base64Symbol c (b.length - 1)))
    else .ok ()
  | none => .ok ()

def decode (b : Bytes) : Except Fault Bytes := do
  checkSingle b
  let start := lastStart b.length
  let front ← symbols 0 [] (b.take start)
  let (rear, padding) ← lastQuad start [] (b.drop start)
  if b ≠ [] ∧ rear.length < 2 then .error (.body (.base64Length (start + rear.length)))
  else if (rear.length + padding) % 4 ≠ 0 then .error (.body .base64Padding)
  else if unusedBits rear.length (rear.getLastD 0) ≠ 0 then
    let i := start + rear.length - 1
    .error (.body (.base64LastSymbol (b.getD i 0) i))
  else .ok ((chunks 4 (front ++ rear)).flatMap decodeGroup)

end Shoreline.Base64
