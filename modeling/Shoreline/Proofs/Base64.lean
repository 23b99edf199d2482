import Shoreline.Proofs.Chunks
import Shoreline.Body.Base64

/-!
# Base64 is read back

A group of bytes becomes symbols that stand for it and leave no stray bits, and padding in place of the
symbols that a short group lacks.  Only the last group is short, and the reader treats it apart.

* `decodeGroup_groupSymbols`   one group;
* `symbols_map_char`           the symbols in front of the last group;
* `lastQuad_map_char`          those of the last group, and its padding;
* `decode_encode`              any bytes.
-/

namespace Shoreline.Base64

theorem symbol?_char {v : Nat} (h : v < 64) : symbol? (char v) = some v := by
  revert h
  revert v
  decide

theorem char_ne_pad {v : Nat} (h : v < 64) : char v ≠ pad := by
  intro he
  have hs := symbol?_char h
  rw [he, show symbol? pad = none by decide] at hs
  exact absurd hs (by simp)

/-- the symbols that a group becomes -/
def groupSymbols (g : Bytes) : List Nat :=
  let v := number 256 (g.map UInt8.toNat ++ List.replicate (3 - g.length) 0)
  [v / 64 ^ (3 : Nat) % 64, v / 64 ^ (2 : Nat) % 64, v / 64 % 64, v % 64].take (g.length + 1)

theorem encodeGroup_eq (g : Bytes) :
    encodeGroup g = (groupSymbols g).map char ++ List.replicate (3 - g.length) pad := rfl

theorem lt_of_mem_groupSymbols {g : Bytes} {v : Nat} (h : v ∈ groupSymbols g) : v < 64 := by
  have := List.mem_of_mem_take h
  simp only [List.mem_cons, List.not_mem_nil, or_false] at this
  omega

theorem length_groupSymbols {g : Bytes} (h : g.length ≤ 3) :
    (groupSymbols g).length = g.length + 1 := by
  rw [groupSymbols, List.length_take]
  simp only [List.length_cons, List.length_nil]
  omega

/-- the bytes of a group are read back from its symbols, which leave no stray bits -/
theorem decodeGroup_groupSymbols (g : Bytes) (hne : g ≠ []) (h : g.length ≤ 3) :
    decodeGroup (groupSymbols g) = g ∧
      unusedBits (g.length + 1) ((groupSymbols g).getLastD 0) = 0 := by
  have eq_byte {x : UInt8} {v : Nat} (h : v % 256 = x.toNat) : UInt8.ofNat v = x :=
    UInt8.toNat_inj.mp (by rw [UInt8.toNat_ofNat', ← h])
  match g, hne, h with
  | [a], _, _ =>
    have ha := a.toNat_lt
    constructor
    · show [UInt8.ofNat _] = [a]
      refine congrArg (· :: []) (eq_byte ?_)
      simp [number, groupSymbols, List.replicate]
      omega
    · show number 256 [a.toNat, 0, 0] / 64 ^ 2 % 64 % 16 = 0
      simp [number]
      omega
  | [a, b], _, _ =>
    have ha := a.toNat_lt
    have hb := b.toNat_lt
    constructor
    · show [UInt8.ofNat _, UInt8.ofNat _] = [a, b]
      rw [eq_byte (x := a), eq_byte (x := b)]
      · simp [number, groupSymbols]
        omega
      · simp [number, groupSymbols]
        omega
    · show number 256 [a.toNat, b.toNat, 0] / 64 % 64 % 4 = 0
      simp [number]
      omega
  | [a, b, c], _, _ =>
    have ha := a.toNat_lt
    have hb := b.toNat_lt
    have hc := c.toNat_lt
    constructor
    · show [UInt8.ofNat _, UInt8.ofNat _, UInt8.ofNat _] = [a, b, c]
      rw [eq_byte (x := a), eq_byte (x := b), eq_byte (x := c)]
      · simp [number, groupSymbols]
        omega
      · simp [number, groupSymbols]
        omega
      · simp [number, groupSymbols]
        omega
    · rfl

/-! ## Reading symbols -/

theorem symbols_map_char (offset : Nat) (acc l : List Nat) (hl : ∀ v ∈ l, v < 64) :
    symbols offset acc (l.map char) = .ok (acc.reverse ++ l) := by
  induction l generalizing offset acc with
  | nil => rw [List.map_nil, symbols, List.append_nil]
  | cons v l ih =>
    rw [List.map_cons, symbols, symbol?_char (hl v List.mem_cons_self)]
    dsimp only
    rw [ih _ _ fun w hw => hl w (List.mem_cons_of_mem _ hw), List.reverse_cons, List.append_assoc,
      List.singleton_append]

theorem lastQuad_map_char (offset k : Nat) (acc l : List Nat) (hl : ∀ v ∈ l, v < 64)
    (h : 2 ≤ acc.length + l.length) :
    lastQuad offset acc (l.map char ++ List.replicate k pad) = .ok (acc.reverse ++ l, k) := by
  induction l generalizing acc with
  | nil =>
    cases k with
    | zero => rw [List.map_nil, List.nil_append, List.replicate_zero, lastQuad, List.append_nil]
    | succ k =>
      have hpads : ¬ (acc.length < 2 ∨ (List.replicate k pad).any (· != pad) = true) := by
        rintro (hlt | hany)
        · rw [List.length_nil] at h
          omega
        · obtain ⟨x, hx, hne⟩ := List.any_eq_true.mp hany
          rw [(List.mem_replicate.mp hx).2] at hne
          exact absurd hne (by decide)
      rw [List.map_nil, List.nil_append, List.replicate_succ, lastQuad, if_pos rfl, if_neg hpads,
        List.length_replicate, List.append_nil]
  | cons v l ih =>
    have hv := hl v List.mem_cons_self
    rw [List.length_cons] at h
    rw [List.map_cons, List.cons_append, lastQuad, if_neg (char_ne_pad hv), symbol?_char hv]
    dsimp only
    rw [ih _ (fun w hw => hl w (List.mem_cons_of_mem _ hw)) (by rw [List.length_cons]; omega),
      List.reverse_cons, List.append_assoc, List.singleton_append]

/-! ## All groups -/

theorem exists_groups (b : Bytes) (hb : b ≠ []) :
    ∃ (gs : List Bytes) (g : Bytes), chunks 3 b = gs ++ [g] ∧ (∀ c ∈ gs, c.length = 3) ∧
      g ≠ [] ∧ g.length ≤ 3 := by
  by_cases h : b.length ≤ 3
  · exact ⟨[], b, chunks_of_length_le (by decide) hb h, by simp, hb, h⟩
  · have hrest : b.drop 3 ≠ [] := by
      intro he
      have := congrArg List.length he
      rw [List.length_drop, List.length_nil] at this
      omega
    obtain ⟨gs, g, hgs, h3, hg⟩ := exists_groups (b.drop 3) hrest
    refine ⟨b.take 3 :: gs, g, ?_, ?_, hg⟩
    · rw [chunks_of_ne_nil 3 (by decide) b hb, hgs]
      rfl
    · intro c hc
      rcases List.mem_cons.mp hc with rfl | hc
      · rw [List.length_take]
        omega
      · exact h3 c hc
termination_by b.length
decreasing_by
  have := List.length_pos_iff.mpr hb
  simp only [List.length_drop]
  omega

theorem chunks_groups (ss : List (List Nat)) (s : List Nat) (h : ∀ t ∈ ss, t.length = 4)
    (hne : s ≠ []) (hle : s.length ≤ 4) : chunks 4 (ss.flatten ++ s) = ss ++ [s] := by
  induction ss with
  | nil => exact chunks_of_length_le (by decide) hne hle
  | cons t ss ih =>
    rw [List.flatten_cons, List.append_assoc,
      chunks_append_of_length (by decide) (h t List.mem_cons_self),
      ih fun u hu => h u (List.mem_cons_of_mem _ hu)]
    rfl

theorem flatMap_encodeGroup (gs : List Bytes) (h : ∀ c ∈ gs, c.length = 3) :
    gs.flatMap encodeGroup = (gs.map groupSymbols).flatten.map char := by
  induction gs with
  | nil => rfl
  | cons c gs ih =>
    rw [List.flatMap_cons, ih fun d hd => h d (List.mem_cons_of_mem _ hd), List.map_cons,
      List.flatten_cons, List.map_append, encodeGroup_eq, h c List.mem_cons_self, Nat.sub_self,
      List.replicate_zero, List.append_nil]

theorem decodeGroup_of_full (gs : List Bytes) (h : ∀ c ∈ gs, c.length = 3) :
    (gs.map groupSymbols).flatMap decodeGroup = gs.flatten := by
  rw [List.flatMap_map, List.flatMap_def]
  congr 1
  conv => rhs; rw [← List.map_id gs]
  apply List.map_congr_left
  intro c hc
  have hne : c ≠ [] := by
    intro he
    have := h c hc
    rw [he] at this
    exact absurd this (by decide)
  exact (decodeGroup_groupSymbols c hne (Nat.le_of_eq (h c hc))).1

theorem length_of_mem_full {gs : List Bytes} (h : ∀ c ∈ gs, c.length = 3) :
    ∀ s ∈ gs.map groupSymbols, s.length = 4 := by
  intro s hs
  obtain ⟨c, hc, rfl⟩ := List.mem_map.mp hs
  rw [length_groupSymbols (Nat.le_of_eq (h c hc)), h c hc]

theorem length_flatten_full {gs : List Bytes} (h : ∀ c ∈ gs, c.length = 3) :
    (gs.map groupSymbols).flatten.length = 4 * gs.length := by
  rw [length_flatten_of_length (length_of_mem_full h), List.length_map, Nat.mul_comm]

theorem lt_of_mem_flatten_groups {gs : List Bytes} :
    ∀ v ∈ (gs.map groupSymbols).flatten, v < 64 := by
  intro v hv
  obtain ⟨s, hs, hvs⟩ := List.mem_flatten.mp hv
  obtain ⟨c, -, rfl⟩ := List.mem_map.mp hs
  exact lt_of_mem_groupSymbols hvs

theorem length_encodeGroup {g : Bytes} (h : g.length ≤ 3) : (encodeGroup g).length = 4 := by
  rw [encodeGroup_eq, List.length_append, List.length_map, List.length_replicate,
    length_groupSymbols h]
  omega

theorem checkSingle_of_whole {b : Bytes} (h : b.length % 4 = 0) : checkSingle b = .ok () := by
  rw [checkSingle]
  split
  · rw [if_neg]
    rintro ⟨hmod, -⟩
    omega
  · rfl

theorem decode_encode (b : Bytes) : decode (encode b) = .ok b := by
  by_cases hb : b = []
  · rw [hb, encode, chunks_nil]
    simp [decode, checkSingle, symbols, lastQuad, lastStart, unusedBits, chunks_nil, bind,
      Except.bind]
  obtain ⟨gs, g, hgs, h3, hne, hle⟩ := exists_groups b hb
  have hlen := length_groupSymbols hle
  have hcode : encode b = (gs.map groupSymbols).flatten.map char ++ encodeGroup g := by
    rw [encode, hgs, List.flatMap_append, flatMap_encodeGroup gs h3, List.flatMap_singleton]
  have hfront := length_flatten_full h3
  have htotal : (encode b).length = 4 * gs.length + 4 := by
    rw [hcode, List.length_append, List.length_map, hfront, length_encodeGroup hle]
  have hstart : lastStart (encode b).length = ((gs.map groupSymbols).flatten.map char).length := by
    rw [lastStart, htotal, if_pos (by omega), List.length_map, hfront]
    omega
  have hrear : groupSymbols g ≠ [] := by
    intro he
    rw [he] at hlen
    exact absurd hlen (by simp)
  have hchunks := chunks_groups (gs.map groupSymbols) (groupSymbols g) (length_of_mem_full h3)
    hrear (by omega)
  have hbytes : gs.flatten ++ g = b := by
    have := chunks_flatten 3 (by decide) b
    rwa [hgs, List.flatten_append, List.flatten_singleton] at this
  obtain ⟨hgroup, hbits⟩ := decodeGroup_groupSymbols g hne hle
  rw [decode, checkSingle_of_whole (by omega)]
  dsimp only [bind, Except.bind]
  rw [hstart, hcode, List.take_left, List.drop_left, symbols_map_char 0 [] _ lt_of_mem_flatten_groups]
  dsimp only
  rw [encodeGroup_eq, lastQuad_map_char _ _ [] _ (fun v hv => lt_of_mem_groupSymbols hv)
    (by rw [hlen, List.length_nil]; have := List.length_pos_iff.mpr hne; omega)]
  dsimp only [List.reverse_nil, List.nil_append]
  have hpos := List.length_pos_iff.mpr hne
  rw [hlen, if_neg (by omega), if_neg (by omega), hbits, if_neg (by simp), hchunks,
    List.flatMap_append, decodeGroup_of_full gs h3, List.flatMap_singleton, hgroup, hbytes]

end Shoreline.Base64
