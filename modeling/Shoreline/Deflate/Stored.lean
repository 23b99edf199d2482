import Shoreline.Deflate.Encoder

/-!
# Deflating

A stream of stored blocks.  Each holds at most 65535 bytes behind a header of five: the kind and the
mark of the last block in one byte, then the length and its complement.  The empty string is one
empty block.

* `foldlM_emit`          bytes for which there is room are put behind the output;
* `blocks_storedBlocks`  the blocks are read back, one by one;
* `inflate_deflate`      and so is the whole stream.
-/

namespace Shoreline.Deflate

/-- the most bytes of a stored block -/
def blockSize : Nat := 65535

def storedBlock (isLast : Bool) (b : Bytes) : Bytes :=
  (if isLast then 1 else 0) ::
    (ofWord (UInt16.ofNat b.length) ++ ofWord (UInt16.ofNat (blockSize - b.length)) ++ b)

/-- the pieces as blocks, the last one marked -/
def storedBlocks : List Bytes → Bytes
  | [] => storedBlock true []
  | [b] => storedBlock true b
  | b :: bs => storedBlock false b ++ storedBlocks bs

/-- a stream that `inflate` turns back into `b` -/
def deflate (b : Bytes) : Bytes := storedBlocks (chunks blockSize b)

/-! ## Reading the blocks back -/

theorem foldlM_emit (room : Nat) (b : Bytes) (out : Output) (h : out.size + b.length ≤ room) :
    ∃ out', b.foldlM (emit room false) out = .ok out' ∧
      out'.bytes.toList = out.bytes.toList ++ b := by
  induction b generalizing out with
  | nil => exact ⟨out, rfl, (List.append_nil _).symm⟩
  | cons x b ih =>
    rw [List.length_cons] at h
    have hs : (out.push false x).size = out.size + 1 := Array.size_push x
    obtain ⟨out', hf, hb⟩ := ih (out.push false x) (by omega)
    refine ⟨out', ?_, ?_⟩
    · rw [List.foldlM_cons, emit, if_pos (by omega)]
      exact hf
    · rw [hb]
      simp [Output.push]

/-- what a stored block is read as: its bytes behind the output, and the cursor behind it -/
theorem stored_storedBlock (room : Nat) (b rest : Bytes) (out : Output) (hb : b.length ≤ blockSize)
    (h : out.size + b.length ≤ room) :
    ∃ out', stored room (ofWord (UInt16.ofNat b.length) ++
        ofWord (UInt16.ofNat (blockSize - b.length)) ++ b ++ rest) out = .ok (⟨[], rest⟩, out') ∧
      out'.bytes.toList = out.bytes.toList ++ b := by
  have hl : (UInt16.ofNat b.length).toNat = b.length := by
    simp only [UInt16.toNat_ofNat', blockSize] at hb ⊢; omega
  have hn : (UInt16.ofNat (blockSize - b.length)).toNat = 65535 - b.length := by
    simp only [UInt16.toNat_ofNat', blockSize] at hb ⊢; omega
  obtain ⟨out', hf, hb'⟩ := foldlM_emit room b out h
  refine ⟨out', ?_, hb'⟩
  simp only [ofWord, List.cons_append, List.nil_append, stored, word_ofWord]
  rw [hl, hn, if_neg (by simp only [blockSize] at hb; omega), List.take_left, hf]
  simp

theorem bits_kind (isLast : Bool) (r : Bytes) :
    bits 3 ⟨[], (if isLast then 1 else 0) :: r⟩ =
      .ok (isLast.toNat, ⟨[false, false, false, false, false], r⟩) := by
  cases isLast <;> rfl

/-- a block at the cursor: the stream ends with it, or goes on behind it -/
theorem blocks_storedBlock (room : Nat) (isLast : Bool) (b rest : Bytes) (out : Output)
    (hb : b.length ≤ blockSize) (h : out.size + b.length ≤ room) :
    ∃ out', blocks room ⟨[], storedBlock isLast b ++ rest⟩ out =
        (if isLast then .ok out' else blocks room ⟨[], rest⟩ out') ∧
      out'.bytes.toList = out.bytes.toList ++ b := by
  obtain ⟨out', hs, hb'⟩ := stored_storedBlock room b rest out hb h
  refine ⟨out', ?_, hb'⟩
  have hk := bits_kind isLast (ofWord (UInt16.ofNat b.length) ++
    ofWord (UInt16.ofNat (blockSize - b.length)) ++ b ++ rest)
  have hd : isLast.toNat / 2 = 0 := by cases isLast <;> rfl
  rw [blocks]
  simp only [storedBlock, List.cons_append]
  split
  · next e he =>
    rw [hk] at he
    exact absurd he (by simp)
  · next header c₁ he =>
    obtain ⟨rfl, rfl⟩ := Prod.mk.inj (Except.ok.inj (hk.symm.trans he))
    have hblock : ∀ c out₂, block room (isLast.toNat / 2)
        ⟨[false, false, false, false, false], ofWord (UInt16.ofNat b.length) ++
          ofWord (UInt16.ofNat (blockSize - b.length)) ++ b ++ rest⟩ out = .ok (c, out₂) →
        c = ⟨[], rest⟩ ∧ out₂ = out' := by
      intro c out₂ hc
      rw [hd, block, if_pos rfl, Cursor.aligned, hs] at hc
      obtain ⟨rfl, rfl⟩ := Prod.mk.inj (Except.ok.inj hc)
      exact ⟨rfl, rfl⟩
    split
    · next e he =>
      rw [hd, block, if_pos rfl, Cursor.aligned, hs] at he
      exact absurd he (by simp)
    · next c₂ out₂ hc =>
      obtain ⟨rfl, rfl⟩ := hblock c₂ out₂ hc
      cases isLast <;> rfl

theorem blocks_storedBlocks (room : Nat) (bs : List Bytes) (out : Output)
    (hb : ∀ b ∈ bs, b.length ≤ blockSize) (h : out.size + bs.flatten.length ≤ room) :
    ∃ out', blocks room ⟨[], storedBlocks bs⟩ out = .ok out' ∧
      out'.bytes.toList = out.bytes.toList ++ bs.flatten := by
  fun_induction storedBlocks bs generalizing out with
  | case1 =>
    have := blocks_storedBlock room true [] [] out (Nat.zero_le _) h
    rwa [List.append_nil] at this
  | case2 b =>
    rw [List.flatten_singleton] at h ⊢
    have := blocks_storedBlock room true b [] out (hb b List.mem_cons_self) h
    rwa [List.append_nil] at this
  | case3 b bs _ ih =>
    rw [List.flatten_cons, List.length_append] at h
    obtain ⟨out₁, h₁, hb₁⟩ := blocks_storedBlock room false b (storedBlocks bs) out
      (hb b List.mem_cons_self) (by omega)
    have hs : out₁.size = out.size + b.length := by
      rw [Output.size, ← Array.length_toList, hb₁, List.length_append, Array.length_toList]
      rfl
    obtain ⟨out₂, h₂, hb₂⟩ := ih out₁ (fun c hc => hb c (List.mem_cons_of_mem _ hc)) (by omega)
    refine ⟨out₂, h₁.trans h₂, ?_⟩
    rw [hb₂, hb₁, List.flatten_cons, List.append_assoc]

theorem inflate_deflate (b : Bytes) : inflate b.length (deflate b) = .ok b := by
  have hf := chunks_flatten blockSize (by decide) b
  have hroom : b.length ≤ (b.length / window + 1) * window := by
    have := Nat.lt_div_mul_add (a := b.length) (show 0 < window by decide)
    rw [Nat.add_mul, Nat.one_mul]
    omega
  obtain ⟨out, ho, hb⟩ := blocks_storedBlocks ((b.length / window + 1) * window)
    (chunks blockSize b) .empty (length_le_of_mem_chunks blockSize (by decide) b)
    (by rw [hf]; simpa [Output.empty, Output.size] using hroom)
  rw [hf] at hb
  have hout : out.bytes.toList = b := hb
  have hs : out.size = b.length := by rw [← hout]; exact Array.length_toList.symm
  simp only [inflate, run, deflate]
  rw [ho]
  simp only
  rw [if_neg (by omega), hout]

instance : Encoder := ⟨deflate, inflate_deflate⟩

end Shoreline.Deflate
