import Shoreline.Bytes

/-!
# Encoding stages

A Data Packet's payload passes four stages, and one letter for each of them stands in the packet's
header, so that the receiver inverts them without asking.
-/

namespace Shoreline

/-- how a sample is written before its bits are spread over planes -/
inductive Representation where
  | gray
  | binary
  deriving DecidableEq, Repr, Inhabited

/-- whether samples are cut into bit planes, and how many low bits are rounded away before -/
inductive Noise where
  | untransposed
  | removed (bits : Nat)
  deriving DecidableEq, Repr, Inhabited

inductive Compression where
  | none
  | deflate
  deriving DecidableEq, Repr, Inhabited

/-- the encoding of the body for links that are not 8-bit clean -/
inductive Encoding where
  | none
  | base85
  | base64
  deriving DecidableEq, Repr, Inhabited

namespace Representation

def code : Representation → UInt8
  | gray => 71
  | binary => 66

def ofCode? (c : UInt8) : Option Representation :=
  if c = 71 then some gray else if c = 66 then some binary else none

theorem ofCode?_code (r : Representation) : ofCode? r.code = some r := by cases r <;> rfl

end Representation

namespace Noise

/-- the most low bits that may be rounded away -/
def most : Nat := 7

/-- the letter `N`, or the number of bits as a digit -/
def code : Noise → UInt8
  | untransposed => 78
  | removed bits => UInt8.ofNat (48 + bits)

def ofCode? (c : UInt8) : Option Noise :=
  if c = 78 then some untransposed
  else if 48 ≤ c ∧ c ≤ 55 then some (removed (c.toNat - 48))
  else none

/-- the number of bits rounded away -/
def bits : Noise → Nat
  | untransposed => 0
  | removed bits => bits

theorem ofCode?_code (n : Noise) (h : n.bits ≤ most) : ofCode? n.code = some n := by
  match n with
  | untransposed => rfl
  | removed k =>
    have hk : k ≤ 7 := h
    match k, hk with
    | 0, _ | 1, _ | 2, _ | 3, _ | 4, _ | 5, _ | 6, _ | 7, _ => rfl

end Noise

namespace Compression

def code : Compression → UInt8
  | none => 48
  | deflate => 71

def ofCode? (c : UInt8) : Option Compression :=
  if c = 48 then some .none else if c = 71 then some deflate else Option.none

theorem ofCode?_code (r : Compression) : ofCode? r.code = some r := by cases r <;> rfl

end Compression

namespace Encoding

def code : Encoding → UInt8
  | none => 78
  | base85 => 65
  | base64 => 66

def ofCode? (c : UInt8) : Option Encoding :=
  if c = 78 then some .none
  else if c = 65 then some base85
  else if c = 66 then some base64
  else Option.none

theorem ofCode?_code (r : Encoding) : ofCode? r.code = some r := by cases r <;> rfl

end Encoding

structure Stages where
  representation : Representation
  noise : Noise
  compression : Compression
  encoding : Encoding
  deriving DecidableEq, Repr, Inhabited

namespace Stages

/-- stages that leave every payload as it is -/
def identity : Stages := ⟨.binary, .untransposed, .none, .none⟩

def codes (s : Stages) : Bytes :=
  [s.representation.code, s.noise.code, s.compression.code, s.encoding.code]

end Stages

end Shoreline
