import Shoreline.Bytes

/-!
# Bits of a byte stream

DEFLATE reads each byte from its lowest bit on.  A cursor holds the bits left of the byte begun and
the bytes after it; `size` counts the bits left, and every reading loop of the format ends because
it falls (`size_of_bit?`, `size_of_bits?`).
-/

namespace Shoreline.Deflate

/-- why inflating stops before the end of a stream -/
inductive Halt where
  /-- the stream breaks a rule of the format -/
  | corrupt
  /-- there are no more bits -/
  | exhausted
  /-- there is no room for one more byte of output -/
  | full
  deriving DecidableEq, Repr

structure Cursor where
  pending : List Bool
  rest : Bytes

namespace Cursor

def size (c : Cursor) : Nat := c.pending.length + 8 * c.rest.length

def bit? : Cursor → Option (Bool × Cursor)
  | ⟨b :: p, r⟩ => some (b, ⟨p, r⟩)
  | ⟨[], x :: r⟩ => some (x.toNat.testBit 0, ⟨(List.range' 1 7).map x.toNat.testBit, r⟩)
  | ⟨[], []⟩ => none

/-- a number of `n` bits, the lowest first -/
def bits? : Nat → Cursor → Option (Nat × Cursor)
  | 0, c => some (0, c)
  | n + 1, c =>
    match c.bit? with
    | none => none
    | some (b, c) => (bits? n c).map fun (v, c) => (b.toNat + 2 * v, c)

/-- no byte is left but the one begun -/
def isSpent (c : Cursor) : Bool := c.rest.isEmpty

def aligned (c : Cursor) : Bytes := c.rest

theorem size_of_bit? {c c' : Cursor} {b : Bool} (h : c.bit? = some (b, c')) :
    c'.size + 1 = c.size := by
  match c, h with
  | ⟨b :: p, r⟩, h =>
    obtain ⟨_, rfl⟩ := Prod.mk.inj (Option.some.inj h)
    simp only [size, List.length_cons]; omega
  | ⟨[], x :: r⟩, h =>
    obtain ⟨_, rfl⟩ := Prod.mk.inj (Option.some.inj h)
    simp only [size, List.length_cons, List.length_map, List.length_range', List.length_nil]; omega

theorem size_of_bits? {n v : Nat} {c c' : Cursor} (h : bits? n c = some (v, c')) :
    c'.size + n = c.size := by
  induction n generalizing c v with
  | zero =>
    obtain ⟨_, rfl⟩ := Prod.mk.inj (Option.some.inj h)
    rfl
  | succ n ih =>
    rw [bits?] at h
    split at h
    · exact absurd h (by simp)
    · next b c₁ hb =>
      obtain ⟨⟨w, c₂⟩, hw, he⟩ := Option.map_eq_some_iff.mp h
      obtain ⟨_, rfl⟩ := Prod.mk.inj he
      have := ih hw
      have := size_of_bit? hb
      omega

end Cursor

end Shoreline.Deflate
