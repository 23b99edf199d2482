import Shoreline.Proofs.Chunks
import Shoreline.Sample.Gray
import Shoreline.Sample.Planes

/-!
# Gray code and bit planes are taken back

* `Gray.decode_encode`             each step of decoding doubles the shift, until it leaves the word;
* `Planes.bitsOf_byteOf`           a byte holds the bits it was made of, and zeros behind them;
* `Planes.pushRow_plane`           a plane brings back one bit of each sample;
* `Planes.untranspose_transpose`   all planes bring back the samples;
* `Planes.reduce_lt`               reduced samples fit into the planes.
-/

namespace Shoreline

/-! ## Gray code -/

namespace Gray

theorem toNat_fold {k : Nat} (hk : k < 16) (v : UInt16) :
    (fold (UInt16.ofNat k) v).toNat = v.toNat ^^^ (v.toNat >>> k) := by
  rw [fold, UInt16.toNat_xor, UInt16.toNat_shiftRight, UInt16.toNat_ofNat']
  congr 2
  omega

theorem fold_fold (n k : Nat) :
    (n ^^^ (n >>> k)) ^^^ ((n ^^^ (n >>> k)) >>> k) = n ^^^ (n >>> (2 * k)) := by
  rw [Nat.shiftRight_xor_distrib, ← Nat.shiftRight_add, ← Nat.two_mul, Nat.xor_assoc,
    ← Nat.xor_assoc (n >>> k), Nat.xor_self, Nat.zero_xor]

theorem decode_encode (v : UInt16) : decode (encode v) = v := by
  have h₁ (w : UInt16) : (fold 1 w).toNat = w.toNat ^^^ (w.toNat >>> 1) :=
    toNat_fold (k := 1) (by decide) w
  have h₂ (w : UInt16) : (fold 2 w).toNat = w.toNat ^^^ (w.toNat >>> 2) :=
    toNat_fold (k := 2) (by decide) w
  have h₄ (w : UInt16) : (fold 4 w).toNat = w.toNat ^^^ (w.toNat >>> 4) :=
    toNat_fold (k := 4) (by decide) w
  have h₈ (w : UInt16) : (fold 8 w).toNat = w.toNat ^^^ (w.toNat >>> 8) :=
    toNat_fold (k := 8) (by decide) w
  have hzero : v.toNat >>> (2 * 8) = 0 := Nat.shiftRight_eq_zero _ _ v.toNat_lt
  apply UInt16.toNat_inj.mp
  show (fold 8 (fold 4 (fold 2 (fold 1 (fold 1 v))))).toNat = v.toNat
  rw [h₈, h₄, h₂, h₁, h₁, fold_fold _ 1, fold_fold _ 2, fold_fold _ 4, fold_fold _ 8, hzero,
    Nat.xor_zero]

theorem encode_lt {n : Nat} {v : UInt16} (h : v.toNat < 2 ^ n) : (encode v).toNat < 2 ^ n := by
  have hs : v.toNat >>> 1 ≤ v.toNat := Nat.shiftRight_le _ _
  show (fold 1 v).toNat < 2 ^ n
  rw [show (1 : UInt16) = UInt16.ofNat 1 from rfl, toNat_fold (by decide)]
  exact Nat.xor_lt_two_pow h (Nat.lt_of_le_of_lt hs h)

end Gray

/-! ## Bits of a byte -/

namespace Planes

theorem foldl_bits (bs : List Bool) (v : Nat) :
    bs.foldl (fun v b => 2 * v + b.toNat) v = v * 2 ^ bs.length + ofBits bs := by
  induction bs generalizing v with
  | nil => simp [ofBits]
  | cons b bs ih =>
    rw [ofBits, List.foldl_cons, List.foldl_cons, ih, ih (2 * 0 + b.toNat), List.length_cons,
      Nat.pow_succ, Nat.add_mul, Nat.add_mul]
    have : 2 * v * 2 ^ bs.length = v * (2 ^ bs.length * 2) := by
      rw [Nat.mul_comm 2 v, Nat.mul_assoc, Nat.mul_comm 2]
    omega

theorem ofBits_cons (b : Bool) (bs : List Bool) :
    ofBits (b :: bs) = 2 ^ bs.length * b.toNat + ofBits bs := by
  show bs.foldl (fun v b => 2 * v + b.toNat) (2 * 0 + b.toNat) = _
  rw [foldl_bits, Nat.mul_zero, Nat.zero_add, Nat.mul_comm]

theorem ofBits_lt (bs : List Bool) : ofBits bs < 2 ^ bs.length := by
  induction bs with
  | nil => decide
  | cons b bs ih =>
    rw [ofBits_cons, List.length_cons, Nat.pow_succ]
    have := Nat.mul_le_mul_left (2 ^ bs.length) (Bool.toNat_le b)
    omega

/-- bit `i`, counted from the last one -/
theorem testBit_ofBits (bs : List Bool) (i : Nat) :
    (ofBits bs).testBit i = bs.reverse.getD i false := by
  induction bs with
  | nil => simp [ofBits]
  | cons b bs ih =>
    rw [ofBits_cons, Nat.testBit_two_pow_mul_add _ (ofBits_lt bs), List.reverse_cons,
      List.getD_eq_getElem?_getD]
    by_cases h : i < bs.length
    · rw [if_pos h, ih, List.getElem?_append_left (by simpa using h), List.getD_eq_getElem?_getD]
    · rw [if_neg h, List.getElem?_append_right (by simpa using h), List.length_reverse]
      cases i - bs.length with
      | zero => cases b <;> rfl
      | succ j =>
        have hb : b.toNat < 2 ^ (j + 1) :=
          Nat.lt_of_le_of_lt (Bool.toNat_le b) (Nat.one_lt_two_pow (Nat.succ_ne_zero j))
        rw [Nat.testBit_lt_two_pow hb]
        rfl

theorem bitsOf_byteOf (bs : List Bool) (h : bs.length ≤ 8) :
    bitsOf (byteOf bs) = bs ++ List.replicate (8 - bs.length) false := by
  have hlt : ofBits bs * 2 ^ (8 - bs.length) < 256 := by
    have := Nat.mul_lt_mul_of_pos_right (ofBits_lt bs) (Nat.two_pow_pos (8 - bs.length))
    rwa [← Nat.pow_add, show bs.length + (8 - bs.length) = 8 by omega] at this
  apply List.ext_getElem?
  intro i
  rw [bitsOf, byteOf, UInt8.toNat_ofNat', Nat.mod_eq_of_lt (by omega), List.getElem?_map]
  by_cases hi : i < 8
  · rw [List.getElem?_range hi, Option.map_some, Nat.testBit_mul_two_pow]
    by_cases hb : i < bs.length
    · rw [List.getElem?_append_left hb, testBit_ofBits, List.getD_eq_getElem?_getD,
        List.getElem?_reverse (by omega), List.getElem?_eq_getElem hb,
        show bs.length - 1 - (7 - i - (8 - bs.length)) = i by omega, List.getElem?_eq_getElem hb,
        Option.getD_some, decide_eq_true (by omega), Bool.true_and]
    · rw [List.getElem?_append_right (by omega), decide_eq_false (by omega), Bool.false_and,
        List.getElem?_replicate, if_pos (by omega)]
  · rw [List.getElem?_eq_none (by rw [List.length_range]; omega), Option.map_none,
      List.getElem?_eq_none]
    rw [List.length_append, List.length_replicate]
    omega

theorem length_flatMap_bitsOf (row : Bytes) : (row.flatMap bitsOf).length = 8 * row.length := by
  rw [List.length_flatMap, show (fun b => (bitsOf b).length) = fun _ => 8 from rfl,
    List.map_const', List.sum_replicate_nat, Nat.mul_comm]

theorem getElem?_flatMap_bitsOf (row : Bytes) {i : Nat} (h : i / 8 < row.length) :
    (row.flatMap bitsOf)[i]? = some (row[i / 8].toNat.testBit (7 - i % 8)) := by
  have hbits : ∀ bits ∈ row.map bitsOf, bits.length = 8 := by
    intro bits hmem
    obtain ⟨b, -, rfl⟩ := List.mem_map.mp hmem
    rfl
  have hi := Nat.mod_lt i (show 0 < 8 by decide)
  rw [List.flatMap_def, getElem?_flatten_of_length (by decide) hbits, List.getElem?_map,
    List.getElem?_eq_getElem h, Option.map_some, Option.bind_some, bitsOf,
    List.getElem?_map, List.getElem?_range hi, Option.map_some]

/-! ## Planes -/

section
variable {ss : List UInt16}

theorem length_plane (p : Nat) (ss : List UInt16) : (plane p ss).length = groups ss.length := by
  rw [plane, List.length_map, length_chunks (by decide), List.length_map]
  rfl

theorem flatMap_bitsOf_plane (p : Nat) (ss : List UInt16) :
    ∃ pad, (plane p ss).flatMap bitsOf = ss.map (fun s => s.toNat.testBit p) ++ pad := by
  obtain ⟨pad, h⟩ := flatMap_chunks (n := 8) (by decide) (fun c => bitsOf (byteOf c)) id
    (fun c hc => ⟨List.replicate (8 - c.length) false, by
      rw [bitsOf_byteOf c hc, List.map_id], fun h8 => by rw [h8]; rfl⟩)
    (ss.map fun s => s.toNat.testBit p)
  refine ⟨pad, ?_⟩
  rw [plane, List.flatMap_map, h, List.map_id]

theorem zipWith_append_left {α β γ : Type} (f : α → β → γ) {xs : List α} {ys : List β}
    (h : xs.length = ys.length) (pad : List β) :
    List.zipWith f xs (ys ++ pad) = List.zipWith f xs ys := by
  induction xs generalizing ys with
  | nil => simp
  | cons x xs ih =>
    cases ys with
    | nil => exact absurd h (by simp)
    | cons y ys =>
      rw [List.cons_append, List.zipWith_cons_cons, List.zipWith_cons_cons,
        ih (Nat.succ.inj h)]

/-- the samples without their lowest `p` bits -/
def upper (p : Nat) (ss : List UInt16) : List UInt16 :=
  ss.map fun s => UInt16.ofNat (s.toNat / 2 ^ p)

theorem upper_zero (ss : List UInt16) : upper 0 ss = ss := by
  rw [upper]
  conv => rhs; rw [← List.map_id ss]
  apply List.map_congr_left
  intro s _
  rw [Nat.pow_zero, Nat.div_one, UInt16.ofNat_toNat]
  rfl

theorem upper_of_lt {p : Nat} (h : ∀ s ∈ ss, s.toNat < 2 ^ p) :
    upper p ss = List.replicate ss.length 0 := by
  refine List.eq_replicate_iff.mpr ⟨List.length_map _, ?_⟩
  intro v hv
  obtain ⟨s, hs, rfl⟩ := List.mem_map.mp hv
  rw [Nat.div_eq_of_lt (h s hs)]
  rfl

theorem pushRow_plane (p : Nat) (ss : List UInt16) :
    pushRow (upper (p + 1) ss) (plane p ss) = upper p ss := by
  obtain ⟨pad, hpad⟩ := flatMap_bitsOf_plane p ss
  rw [pushRow, hpad, zipWith_append_left _ (by rw [upper, List.length_map, List.length_map]), upper,
    upper, List.zipWith_map, List.zipWith_self]
  apply List.map_congr_left
  intro s _
  have hs := s.toNat_lt
  have hd : s.toNat / 2 ^ (p + 1) = s.toNat / 2 ^ p / 2 := by
    rw [Nat.pow_succ, Nat.div_div_eq_div_mul]
  have hle : s.toNat / 2 ^ p ≤ s.toNat := Nat.div_le_self _ _
  have hbit : (s.toNat.testBit p).toNat = s.toNat / 2 ^ p % 2 := Nat.toNat_testBit _ _
  rw [UInt16.toNat_ofNat', hd, hbit, Nat.mod_eq_of_lt (by omega)]
  congr 1
  omega

theorem foldl_pushRow (c : Nat) (ss : List UInt16) :
    ((List.range c).reverse.map fun p => plane p ss).foldl pushRow (upper c ss) = ss := by
  induction c with
  | zero => exact upper_zero ss
  | succ c ih =>
    rw [List.range_succ, List.reverse_append, List.reverse_singleton, List.singleton_append,
      List.map_cons, List.foldl_cons, pushRow_plane, ih]

theorem chunks_transpose (k : Nat) (ss : List UInt16) (hne : ss ≠ []) :
    chunks (groups ss.length) (transpose k ss) =
      (List.range (count k)).reverse.map fun p => plane p ss := by
  have hpos := List.length_pos_iff.mpr hne
  rw [transpose, List.flatMap_def]
  refine chunks_flatten_of_length (by rw [groups]; omega) ?_
  intro c hc
  obtain ⟨p, -, rfl⟩ := List.mem_map.mp hc
  exact length_plane p ss

theorem length_transpose (k : Nat) (ss : List UInt16) :
    (transpose k ss).length = size ss.length k := by
  rw [transpose, List.length_flatMap, List.map_congr_left (fun p _ => length_plane p ss),
    List.map_const', List.sum_replicate_nat, List.length_reverse, List.length_range]
  rfl

theorem untranspose_transpose (k : Nat) (h : ∀ s ∈ ss, s.toNat < 2 ^ count k) :
    untranspose ss.length k (transpose k ss) = .ok ss := by
  rw [untranspose, if_pos (length_transpose k ss)]
  by_cases hne : ss = []
  · subst hne
    have ht : transpose k [] = [] := List.length_eq_zero_iff.mp (length_transpose k [])
    rw [ht, chunks_nil]
    rfl
  · rw [chunks_transpose k ss hne, ← upper_of_lt h, foldl_pushRow]

end

/-! ## Reduced samples -/

theorem reduce_lt {k : Nat} (hk : k ≤ 16) (v : UInt16) : (reduce k v).toNat < 2 ^ count k := by
  have hc : (2 : Nat) ^ 16 = 2 ^ count k * 2 ^ k := by
    rw [← Nat.pow_add, count, sampleBits, Nat.sub_add_cancel hk]
  by_cases h0 : k = 0
  · rw [reduce, if_pos h0, h0]
    exact v.toNat_lt
  · rw [reduce, if_neg h0, UInt16.toNat_ofNat']
    have hmost : 65535 / 2 ^ k < 2 ^ count k := by
      rw [Nat.div_lt_iff_lt_mul (Nat.two_pow_pos k), ← hc]
      decide
    refine Nat.lt_of_le_of_lt (Nat.mod_le _ _) (Nat.lt_of_le_of_lt (Nat.min_le_right _ _) hmost)

end Planes

end Shoreline
