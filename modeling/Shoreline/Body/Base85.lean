import Shoreline.Fault

/-!
# ASCII85

Four bytes, read as one number with the high byte first, become five digits in base 85, written with
the characters `!` to `u`.  Four zero bytes become the single letter `z`.  A last group of `n < 4`
bytes is filled up with zeros and keeps `n + 1` of its digits; the reader fills it up with the digit
84 and keeps `n` bytes.  There are no delimiters.
-/

namespace Shoreline.Base85

/-- the character of the digit 0 -/
def first : UInt8 := 33

/-- the character of the digit 84 -/
def last : UInt8 := 117

/-- the letter `z` of four zero bytes -/
def zeros : UInt8 := 122

/-- the number that a group of bytes stands for, the high byte first -/
def ofBytes (b : Bytes) : Nat := b.foldl (fun v x => v * 256 + x.toNat) 0

/-- the four bytes of a number below `2 ^ 32` -/
def toBytes (v : Nat) : Bytes :=
  [UInt8.ofNat (v / 256 ^ (3 : Nat)), UInt8.ofNat (v / 256 ^ (2 : Nat)), UInt8.ofNat (v / 256),
    UInt8.ofNat v]

def ofDigits (ds : List Nat) : Nat := ds.foldl (fun v d => v * 85 + d) 0

def toDigits (v : Nat) : List Nat :=
  [v / 85 ^ (4 : Nat) % 85, v / 85 ^ (3 : Nat) % 85, v / 85 ^ (2 : Nat) % 85, v / 85 % 85, v % 85]

def char (d : Nat) : UInt8 := UInt8.ofNat (33 + d)

/-! ## Writing -/

def encodeGroup (g : Bytes) : Bytes :=
  if g = [0, 0, 0, 0] then [zeros]
  else ((toDigits (ofBytes (g ++ List.replicate (4 - g.length) 0))).take (g.length + 1)).map char

def encode (b : Bytes) : Bytes := (chunks 4 b).flatMap encodeGroup

/-! ## Reading -/

/-- the reader: the digits of the group begun, and the bytes so far in reverse -/
structure State where
  digits : List Nat
  out : Bytes

def groupBytes (ds : List Nat) : Except Fault Bytes :=
  if ofDigits ds < 2 ^ (32 : Nat) then .ok (toBytes (ofDigits ds))
  else .error (.body .base85Overflow)

def step (s : State) (c : UInt8) : Except Fault State :=
  if c = zeros ∧ s.digits = [] then .ok ⟨[], 0 :: 0 :: 0 :: 0 :: s.out⟩
  else if first ≤ c ∧ c ≤ last then
    let ds := s.digits ++ [c.toNat - 33]
    if ds.length = 5 then (groupBytes ds).map fun g => ⟨[], g.reverse ++ s.out⟩
    else .ok ⟨ds, s.out⟩
  else .error (.body (.base85Character c))

/-- the bytes of a last group that is not full -/
def finish (s : State) : Except Fault Bytes :=
  match s.digits with
  | [] => .ok s.out.reverse
  | [_] => .error (.body .base85Dangling)
  | ds =>
    (groupBytes (ds ++ List.replicate (5 - ds.length) 84)).map fun g =>
      s.out.reverse ++ g.take (ds.length - 1)

def decode (b : Bytes) : Except Fault Bytes := b.foldlM step ⟨[], []⟩ >>= finish

end Shoreline.Base85
