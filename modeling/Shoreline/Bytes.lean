/-!
# Byte strings

Everything on the wire is a list of bytes.  This file holds the few operations that several formats
share: cutting a list into pieces of equal length (`chunks`), slices by position, and words that are
stored with the low byte first.

* `chunks_flatten`   the pieces put together again are the list;
* `chunks_of_ne_nil`   the first piece, and then the pieces of the rest;
* `length_le_of_mem_chunks`   no piece is longer than asked for;
* `word_ofWord`      a 16-bit word is read back from its two bytes.
-/

namespace Shoreline

-- Here powers and sums of numbers mean the same whatever else a module imports.  Where base and
-- exponent are both literals, the exponent says its type.
scoped instance (priority := high) instPow : Pow Nat Nat := instPowNat
scoped instance (priority := high) instZero : Zero Nat := ⟨0⟩

abbrev Bytes := List UInt8

/-! ## Pieces of equal length -/

section
variable {α : Type}

/-- the pieces of `k + 1` elements each, put behind the reversed list `acc` -/
def chunksOnto (k : Nat) (acc : List (List α)) : List α → List (List α)
  | [] => acc.reverse
  | x :: xs => chunksOnto k ((x :: xs.take k) :: acc) (xs.drop k)
termination_by xs => xs.length
decreasing_by simp only [List.length_drop, List.length_cons]; omega

/-- consecutive pieces of `n` elements; the last one is shorter where the list runs out -/
def chunks (n : Nat) (xs : List α) : List (List α) := chunksOnto (n - 1) [] xs

theorem chunksOnto_nil (k : Nat) (acc : List (List α)) : chunksOnto k acc [] = acc.reverse := by
  rw [chunksOnto]

theorem chunksOnto_cons (k : Nat) (acc : List (List α)) (x : α) (xs : List α) :
    chunksOnto k acc (x :: xs) = chunksOnto k ((x :: xs.take k) :: acc) (xs.drop k) := by
  rw [chunksOnto]

theorem chunksOnto_eq (k : Nat) (xs : List α) (acc : List (List α)) :
    chunksOnto k acc xs = acc.reverse ++ chunksOnto k [] xs := by
  match xs with
  | [] => simp [chunksOnto_nil]
  | x :: xs =>
    rw [chunksOnto_cons, chunksOnto_cons, chunksOnto_eq k (xs.drop k) ((x :: xs.take k) :: acc),
      chunksOnto_eq k (xs.drop k) [x :: xs.take k]]
    simp
termination_by xs.length
decreasing_by all_goals simp only [List.length_drop, List.length_cons]; omega

theorem chunks_nil (n : Nat) : chunks n ([] : List α) = [] := chunksOnto_nil _ _

theorem chunks_of_ne_nil (n : Nat) (hn : 0 < n) (xs : List α) (hx : xs ≠ []) :
    chunks n xs = xs.take n :: chunks n (xs.drop n) := by
  obtain ⟨k, rfl⟩ : ∃ k, n = k + 1 := ⟨n - 1, by omega⟩
  match xs with
  | [] => exact absurd rfl hx
  | x :: xs =>
    rw [chunks, chunksOnto_cons, chunksOnto_eq]
    rfl

theorem length_le_of_mem_chunks (n : Nat) (hn : 0 < n) (xs : List α) :
    ∀ c ∈ chunks n xs, c.length ≤ n := by
  intro c hc
  by_cases hx : xs = []
  · rw [hx, chunks_nil] at hc
    exact absurd hc (by simp)
  · rw [chunks_of_ne_nil n hn xs hx] at hc
    rcases List.mem_cons.mp hc with rfl | hc
    · exact List.length_take_le n xs
    · exact length_le_of_mem_chunks n hn (xs.drop n) c hc
termination_by xs.length
decreasing_by
  have := List.length_pos_iff.mpr hx
  simp only [List.length_drop]
  omega

theorem chunks_flatten (n : Nat) (hn : 0 < n) (xs : List α) : (chunks n xs).flatten = xs := by
  by_cases hx : xs = []
  · rw [hx, chunks_nil]; rfl
  · rw [chunks_of_ne_nil n hn xs hx, List.flatten_cons, chunks_flatten n hn (xs.drop n),
      List.take_append_drop]
termination_by xs.length
decreasing_by
  have := List.length_pos_iff.mpr hx
  simp only [List.length_drop]
  omega

end

/-! ## Slices -/

/-- `n` bytes from position `i` on, fewer where the string ends -/
def slice (i n : Nat) (b : Bytes) : Bytes := (b.drop i).take n

theorem length_slice (i n : Nat) (b : Bytes) (h : i + n ≤ b.length) : (slice i n b).length = n := by
  simp only [slice, List.length_take, List.length_drop]; omega

/-- the UTF-8 bytes of a text -/
def utf8 (s : String) : Bytes := s.toUTF8.toList

/-! ## Words, low byte first -/

/-- the two bytes of a 16-bit word -/
def ofWord (w : UInt16) : Bytes := [UInt8.ofNat w.toNat, UInt8.ofNat (w.toNat / 256)]

def word (lo hi : UInt8) : UInt16 := UInt16.ofNat (lo.toNat + 256 * hi.toNat)

/-- the word at position `i`; bytes past the end count as zero -/
def wordAt (i : Nat) (b : Bytes) : UInt16 := word (b.getD i 0) (b.getD (i + 1) 0)

theorem length_ofWord (w : UInt16) : (ofWord w).length = 2 := rfl

theorem word_ofWord (w : UInt16) :
    word (UInt8.ofNat w.toNat) (UInt8.ofNat (w.toNat / 256)) = w := by
  apply UInt16.toNat_inj.mp
  have := w.toNat_lt
  simp only [word, UInt16.toNat_ofNat', UInt8.toNat_ofNat']
  omega

theorem ofWord_word (lo hi : UInt8) : ofWord (word lo hi) = [lo, hi] := by
  have h₁ := lo.toNat_lt
  have h₂ := hi.toNat_lt
  have hw : (word lo hi).toNat = lo.toNat + 256 * hi.toNat := by
    simp only [word, UInt16.toNat_ofNat']; omega
  simp only [ofWord, hw, List.cons.injEq, and_true]
  constructor
  · apply UInt8.toNat_inj.mp; simp only [UInt8.toNat_ofNat']; omega
  · apply UInt8.toNat_inj.mp; simp only [UInt8.toNat_ofNat']; omega

/-- the `n` low bytes of a number -/
def littleEndian : Nat → Nat → Bytes
  | 0, _ => []
  | n + 1, v => UInt8.ofNat v :: littleEndian n (v / 256)

theorem length_littleEndian (n v : Nat) : (littleEndian n v).length = n := by
  induction n generalizing v with
  | zero => rfl
  | succ n ih => rw [littleEndian, List.length_cons, ih]

end Shoreline
