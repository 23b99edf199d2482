import Shoreline.Deflate.Cursor

/-!
# Canonical Huffman codes

A code is given by the length of each symbol's code word.  Words of one length are consecutive
numbers, in the order of their symbols, and start at twice the number that follows the last shorter
word.  So it is enough to list, for each length, the symbols that have it.
-/

namespace Shoreline.Deflate

/-- the symbols of each code word length, from 1 to the longest that is used -/
structure Code where
  levels : List (Array Nat)

namespace Code

def longest : Nat := 15

/-- the code of symbols 0, 1, 2, … with the given lengths; a symbol of length 0 is not used -/
def ofLengths (lengths : List Nat) : Code where
  levels := (List.range' 1 (max 1 (lengths.foldl max 0))).map fun n =>
    (lengths.zipIdx.filterMap fun (l, s) => if l = n then some s else none).toArray

/-- what the code words take up of all words of the longest length -/
def weight (lengths : List Nat) : Nat :=
  (lengths.map fun l => if l = 0 then 0 else 2 ^ (longest - l)).sum

/-- the words fill the code space exactly -/
def isComplete (lengths : List Nat) : Bool := weight lengths == 2 ^ longest

/-- a complete code, or one with at most one word, of one bit -/
def isUsable (lengths : List Nat) : Bool := isComplete lengths || lengths.sum ≤ 1

/-- reads a word on through the levels; `word` are its bits so far, `first` is the first word of the
level -/
def walk : List (Array Nat) → Nat → Nat → Cursor → Except Halt (Nat × Cursor)
  | [], _, _, _ => .error .corrupt
  | level :: levels, word, first, c =>
    match c.bit? with
    | none => .error .exhausted
    | some (b, c) =>
      let word := 2 * word + b.toNat
      match level[word - first]? with
      | some symbol => .ok (symbol, c)
      | none => walk levels word (2 * (first + level.size)) c

def symbol (code : Code) (c : Cursor) : Except Halt (Nat × Cursor) := walk code.levels 0 0 c

theorem size_of_walk {levels : List (Array Nat)} {word first s : Nat} {c c' : Cursor}
    (h : walk levels word first c = .ok (s, c')) : c'.size < c.size := by
  induction levels generalizing word first c with
  | nil => exact absurd h (by simp [walk])
  | cons level levels ih =>
    rw [walk] at h
    split at h
    · exact absurd h (by simp)
    · next b c₁ hb =>
      have hs := Cursor.size_of_bit? hb
      simp only at h
      split at h
      · obtain ⟨_, rfl⟩ := Prod.mk.inj (Except.ok.inj h)
        omega
      · have := ih h
        omega

theorem size_of_symbol {code : Code} {s : Nat} {c c' : Cursor} (h : code.symbol c = .ok (s, c')) :
    c'.size < c.size := size_of_walk h

end Code

end Shoreline.Deflate
