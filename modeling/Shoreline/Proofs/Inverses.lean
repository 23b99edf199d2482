import Mathlib.Data.List.Induction
import Shoreline.Proofs.Reencoding

/-!
# Streams and planes, both ways

Two stages take a payload apart and put it together again, and each accepts just what it makes.
`Layout.join` accepts the two streams of some payload and no others, and gives that payload
(`Layout.split_join_iff`).  `Planes.untranspose` accepts plane bytes of the right length; what it reads
is transposed to the same bytes, but for the bits behind the last sample of each plane, which it does
not read (`Planes.transposed_both_ways`).

For planes the argument goes bit by bit: `bitAt` says where bit `p` of sample `j` stands.

* `bitAt_transpose`, `testBit_untranspose`   writing and reading move each bit to and from its place;
* `bitAt_clearPadding`                       clearing leaves the bits of samples as they are;
* `eq_of_bitAt`                              plane bytes are known by their bits.
-/

namespace Shoreline

/-! ## Payloads and their streams -/

namespace Layout

/-- A payload is put together again from its samples and its raw bytes, of which there are as many as
its length says.  The other way round only streams that some payload has are put together, and they
are the streams of what they give. -/
theorem split_join_iff (l : Layout) (hl : l ∈ Body.layouts) :
    (∀ payload : Bytes, l.join (l.split payload).1 (l.split payload).2 = .ok payload ∧
      (l.split payload).1.length = l.sampleCount payload.length ∧
      (l.split payload).2.length = l.rawSize payload.length ∧
      2 * l.sampleCount payload.length + l.rawSize payload.length = payload.length) ∧
    ∀ (samples : List UInt16) (raw : Bytes),
      ((∃ b, l.join samples raw = .ok b) ↔ ∃ payload, l.split payload = (samples, raw)) ∧
      ∀ b, l.join samples raw = .ok b → l.split b = (samples, raw) := by
  have hpos := Body.itemSize_pos_of_mem_layouts hl
  refine ⟨fun payload => ⟨join_split hpos payload, ?_, ?_, ?_⟩, fun samples raw => ⟨?_, ?_⟩⟩
  · exact Body.length_samples l hpos payload
  · exact Body.length_raw l hpos payload
  · have hle := l.two_mul_sampleCount_le payload.length
    rw [rawSize]
    omega
  · constructor
    · rintro ⟨b, hb⟩
      exact ⟨b, split_join hpos hb⟩
    · rintro ⟨payload, hp⟩
      have hjoin := join_split hpos payload
      rw [hp] at hjoin
      exact ⟨payload, hjoin⟩
  · exact fun b hb => split_join hpos hb

/-- two items of interleaved channels and a part of a third; the streams of the two items alone are
put together too, and not if a raw byte is missing -/
theorem partial_item_split :
    let l := ofSensor .mcoms
    let payload : Bytes := (List.range 87).map fun i => UInt8.ofNat (i * 5)
    let streams := l.split (payload.take 80)
    l ∈ Body.layouts ∧ l.join (l.split payload).1 (l.split payload).2 = .ok payload ∧
      (l.split payload).1.length = 12 ∧ (l.split payload).2.length = 63 ∧
      (∃ b, l.join streams.1 streams.2 = .ok b ∧ l.split b = streams) ∧
      ¬ ∃ p, l.split p = (streams.1, streams.2.tail) := by
  intro l payload streams
  have hl : l ∈ Body.layouts := by decide
  have hcount : l.sampleCount payload.length = 12 := by decide +kernel
  have hsize : l.rawSize payload.length = 63 := by decide +kernel
  obtain ⟨hsplit, hjoin⟩ := split_join_iff l hl
  obtain ⟨hback, hsamples, hraw, -⟩ := hsplit payload
  obtain ⟨haccepted, hstreams⟩ := hjoin streams.1 streams.2
  obtain ⟨b, hb⟩ := haccepted.mpr ⟨payload.take 80, rfl⟩
  refine ⟨hl, hback, hsamples.trans hcount, hraw.trans hsize, ⟨b, hb, hstreams b hb⟩, ?_⟩
  rw [← (hjoin streams.1 streams.2.tail).1]
  rintro ⟨c, hc⟩
  have hrefused : (l.join streams.1 streams.2.tail).toOption = none := by decide +kernel
  rw [hc] at hrefused
  exact absurd hrefused (by simp [Except.toOption])

end Layout

/-! ## Bits and their places -/

namespace Planes

/-- bit `p` of sample `j`, as the planes of `n` samples of `16 - k` bits hold it -/
def bitAt (n k : Nat) (data : Bytes) (p j : Nat) : Bool :=
  (data.getD ((count k - 1 - p) * groups n + j / 8) 0).toNat.testBit (7 - j % 8)

theorem eq_of_testBit {b c : UInt8} (h : ∀ i < 8, b.toNat.testBit i = c.toNat.testBit i) :
    b = c := by
  apply UInt8.toNat_inj.mp
  apply Nat.eq_of_testBit_eq
  intro i
  by_cases hi : i < 8
  · exact h i hi
  · have hpow : 2 ^ 8 ≤ 2 ^ i := Nat.pow_le_pow_right (by decide) (Nat.le_of_not_lt hi)
    rw [Nat.testBit_lt_two_pow (Nat.lt_of_lt_of_le b.toNat_lt hpow),
      Nat.testBit_lt_two_pow (Nat.lt_of_lt_of_le c.toNat_lt hpow)]

/-- planes of the same size are equal when they hold the same bits -/
theorem eq_of_bitAt {n k : Nat} {a b : Bytes} (ha : a.length = size n k) (hb : b.length = size n k)
    (h : ∀ p < count k, ∀ j < 8 * groups n, bitAt n k a p j = bitAt n k b p j) : a = b := by
  refine List.ext_getElem (ha.trans hb.symm) fun i hia hib => eq_of_testBit fun t ht => ?_
  rw [ha, size] at hia
  have hg : 0 < groups n := Nat.pos_of_ne_zero fun h0 => by rw [h0] at hia; omega
  have hrow : i / groups n < count k := (Nat.div_lt_iff_lt_mul hg).mpr hia
  have hcol := Nat.mod_lt i hg
  have hi := Nat.div_add_mod' i (groups n)
  generalize i / groups n = r at hrow hi
  generalize i % groups n = g at hcol hi
  -- bit `t` of the byte belongs to the sample that is `7 - t` places behind the first of its group
  have hbit := h (count k - 1 - r) (by omega) (8 * g + (7 - t)) (by omega)
  rw [bitAt, bitAt, show count k - 1 - (count k - 1 - r) = r by omega,
    show (8 * g + (7 - t)) / 8 = g by omega, show 7 - (8 * g + (7 - t)) % 8 = t by omega, hi,
    List.getD_eq_getElem?_getD, List.getD_eq_getElem?_getD, List.getElem?_eq_getElem (by omega),
    List.getElem?_eq_getElem hib] at hbit
  exact hbit

/-- a byte of one of the pieces, wherever the pieces end -/
theorem getD_chunks {n : Nat} (hn : 0 < n) (data : Bytes) (k : Nat) {i : Nat} (hi : i < n) :
    ((chunks n data).getD k []).getD i 0 = data.getD (k * n + i) 0 := by
  simp only [List.getD_eq_getElem?_getD, getElem?_chunks hn]
  by_cases hk : k * n < data.length
  · rw [if_pos hk, Option.getD_some, List.getElem?_take_of_lt hi, List.getElem?_drop]
  · rw [if_neg hk, Option.getD_none, List.getElem?_nil, List.getElem?_eq_none (by omega)]

/-- the same bit, seen in its plane -/
theorem bitAt_eq (n k : Nat) (data : Bytes) (p : Nat) {j : Nat} (hj : j < 8 * groups n) :
    bitAt n k data p j =
      (((chunks (groups n) data).getD (count k - 1 - p) []).getD (j / 8) 0).toNat.testBit
        (7 - j % 8) := by
  rw [bitAt, getD_chunks (by omega) data _ (by omega)]

/-! ## Writing -/

/-- samples past the last one count as zero -/
theorem testBit_plane (p : Nat) (ss : List UInt16) (j : Nat) :
    ((plane p ss).getD (j / 8) 0).toNat.testBit (7 - j % 8) = (ss.getD j 0).toNat.testBit p := by
  have hbits (b : UInt8) : b.toNat.testBit (7 - j % 8) = ((bitsOf b)[j % 8]?).getD false := by
    rw [bitsOf, List.getElem?_map, List.getElem?_range (Nat.mod_lt j (by decide)), Option.map_some,
      Option.getD_some]
  have hplace : j / 8 * 8 + j % 8 = j := Nat.div_add_mod' j 8
  have hsample : (ss.getD j 0).toNat.testBit p =
      ((ss.map fun s => s.toNat.testBit p)[j]?).getD false := by
    rw [List.getD_eq_getElem?_getD, List.getElem?_map]
    cases ss[j]? with
    | none => exact Nat.zero_testBit p
    | some s => rfl
  rw [hsample, plane, hbits]
  generalize ss.map (fun s => s.toNat.testBit p) = bs
  rw [List.getD_eq_getElem?_getD, List.getElem?_map, getElem?_chunks (by decide)]
  by_cases hin : j / 8 * 8 < bs.length
  · rw [if_pos hin, Option.map_some, Option.getD_some, bitsOf_byteOf _ (List.length_take_le ..)]
    by_cases hj : j < bs.length
    · rw [List.getElem?_append_left (by rw [List.length_take, List.length_drop]; omega),
        List.getElem?_take_of_lt (Nat.mod_lt j (by decide)), List.getElem?_drop, hplace]
    · rw [List.getElem?_append_right (by rw [List.length_take, List.length_drop]; omega),
        List.getElem?_eq_none (Nat.le_of_not_lt hj), List.getElem?_replicate]
      split <;> rfl
  · have hj : bs[j]? = none := List.getElem?_eq_none (by omega)
    rw [if_neg hin, Option.map_none, Option.getD_none, ← hbits, hj]
    exact Nat.zero_testBit _

theorem bitAt_transpose {n k : Nat} {ss : List UInt16} (hn : ss.length = n) {p j : Nat}
    (hp : p < count k) (hj : j < 8 * groups n) :
    bitAt n k (transpose k ss) p j = (ss.getD j 0).toNat.testBit p := by
  subst hn
  have hne : ss ≠ [] := by
    rintro rfl
    exact absurd hj (Nat.not_lt_zero j)
  have hplane : ((List.range (count k)).reverse.map fun p => plane p ss).getD (count k - 1 - p) [] =
      plane p ss := by
    rw [List.getD_eq_getElem?_getD, List.getElem?_map,
      List.getElem?_reverse (by rw [List.length_range]; omega), List.length_range,
      show count k - 1 - (count k - 1 - p) = p by omega, List.getElem?_range hp]
    rfl
  rw [bitAt_eq _ _ _ _ hj, chunks_transpose k ss hne, hplane, testBit_plane]

/-! ## Reading -/

theorem getD_pushRow {acc : List UInt16} {row : Bytes} {j : Nat} (hj : j < acc.length)
    (hrow : acc.length ≤ 8 * row.length) :
    (pushRow acc row).getD j 0 =
      UInt16.ofNat (2 * (acc.getD j 0).toNat +
        ((row.getD (j / 8) 0).toNat.testBit (7 - j % 8)).toNat) := by
  have hin : j / 8 < row.length := by omega
  simp only [List.getD_eq_getElem?_getD]
  rw [pushRow, List.getElem?_zipWith, getElem?_flatMap_bitsOf row hin, List.getElem?_eq_getElem hj,
    List.getElem?_eq_getElem hin]
  rfl

/-- one bit more below those of a sample -/
theorem testBit_push {s : UInt16} {i : Nat} (hs : s.toNat < 2 ^ i) (hi : i < 16) (b : Bool) :
    (UInt16.ofNat (2 * s.toNat + b.toNat)).toNat.testBit 0 = b ∧
      ∀ p, (UInt16.ofNat (2 * s.toNat + b.toNat)).toNat.testBit (p + 1) = s.toNat.testBit p := by
  have hpow : 2 ^ i ≤ 2 ^ 15 := Nat.pow_le_pow_right (by decide) (by omega)
  have hb := Bool.toNat_le b
  rw [UInt16.toNat_ofNat', Nat.mod_eq_of_lt (by omega)]
  constructor
  · rw [Nat.testBit_zero, Nat.mul_add_mod]
    cases b <;> rfl
  · intro p
    rw [Nat.testBit_succ, Nat.mul_add_div (by decide), Nat.div_eq_of_lt (by omega), Nat.add_zero]

theorem testBit_foldl_pushRow {n : Nat} (rows : List Bytes)
    (hrows : ∀ row ∈ rows, n ≤ 8 * row.length) (hlen : rows.length ≤ 16) {p j : Nat}
    (hp : p < rows.length) (hj : j < n) :
    ((rows.foldl pushRow (List.replicate n 0)).getD j 0).toNat.testBit p =
      ((rows.getD (rows.length - 1 - p) []).getD (j / 8) 0).toNat.testBit (7 - j % 8) := by
  -- on the last plane: it holds bit 0 of every sample, and the planes before it the bits above
  induction rows using List.reverseRecOn generalizing p with
  | nil => exact absurd hp (Nat.not_lt_zero p)
  | append_singleton rows row ih =>
    rw [List.length_append, List.length_singleton] at hlen hp ⊢
    have hrows' : ∀ r ∈ rows, n ≤ 8 * r.length := fun r hr =>
      hrows r (List.mem_append_left _ hr)
    obtain ⟨hcount, hsmall⟩ := foldl_pushRow_zero_lt rows hrows' (by omega)
    rw [List.foldl_append, List.foldl_cons, List.foldl_nil,
      getD_pushRow (by omega) (by rw [hcount]; exact hrows row (by simp))]
    have hbit : ((rows.foldl pushRow (List.replicate n 0)).getD j 0).toNat < 2 ^ rows.length := by
      rw [List.getD_eq_getElem?_getD, List.getElem?_eq_getElem (by omega), Option.getD_some]
      exact hsmall _ (List.getElem_mem _)
    obtain ⟨hlow, hhigh⟩ :=
      testBit_push hbit (by omega) ((row.getD (j / 8) 0).toNat.testBit (7 - j % 8))
    cases p with
    | zero =>
      have hrow : (rows ++ [row]).getD (rows.length + 1 - 1 - 0) [] = row := by
        rw [show rows.length + 1 - 1 - 0 = rows.length by omega, List.getD_eq_getElem?_getD,
          List.getElem?_concat_length, Option.getD_some]
      rw [hlow, hrow]
    | succ p =>
      have hrow : (rows ++ [row]).getD (rows.length + 1 - 1 - (p + 1)) [] =
          rows.getD (rows.length - 1 - p) [] := by
        rw [List.getD_eq_getElem?_getD, List.getD_eq_getElem?_getD,
          List.getElem?_append_left (by omega)]
        congr 2
        omega
      rw [hhigh, ih hrows' (by omega) (by omega), hrow]

theorem testBit_untranspose {n k : Nat} {data : Bytes} {ss : List UInt16}
    (h : untranspose n k data = .ok ss) {p j : Nat} (hp : p < count k) (hj : j < n) :
    (ss.getD j 0).toNat.testBit p = bitAt n k data p j := by
  rw [untranspose] at h
  split at h
  · next hlen =>
    obtain ⟨hcount, hrows⟩ := rows_of_size (Nat.zero_lt_of_lt hj) hlen
    rw [← Except.ok.inj h, bitAt_eq _ _ _ _ (by rw [groups]; omega), ← hcount]
    exact testBit_foldl_pushRow _ hrows (by rw [hcount, count, sampleBits]; omega) (by omega) hj
  · exact absurd h (by simp)

theorem exists_untranspose_iff {n k : Nat} {data : Bytes} :
    (∃ ss, untranspose n k data = .ok ss) ↔ data.length = size n k := by
  rw [untranspose]
  split
  · next h => exact ⟨fun _ => h, fun _ => ⟨_, rfl⟩⟩
  · next h =>
    refine ⟨?_, fun hlen => absurd hlen h⟩
    rintro ⟨ss, hss⟩
    exact absurd hss (by simp)

/-! ## Padding -/

/-- bits at the end of a plane that belong to no sample -/
def padding (n : Nat) : Nat := 8 * groups n - n

/-- planes of `n` samples with zeros for the padding: the lowest bits of the last byte of each plane -/
def clearPadding (n : Nat) (data : Bytes) : Bytes :=
  data.mapIdx fun i b =>
    if groups n ∣ i + 1 then UInt8.ofNat (b.toNat / 2 ^ padding n * 2 ^ padding n) else b

/-- the byte of a group is cleared behind the last sample, if the group has it -/
theorem bitAt_clearPadding {n k : Nat} {data : Bytes} {p j : Nat} (hj : j < 8 * groups n) :
    bitAt n k (clearPadding n data) p j = (decide (j < n) && bitAt n k data p j) := by
  have hg : 0 < groups n := by omega
  have hlast : groups n ∣ (count k - 1 - p) * groups n + j / 8 + 1 ↔ j / 8 + 1 = groups n := by
    rw [Nat.add_assoc, Nat.dvd_add_right (Nat.dvd_mul_left _ _)]
    exact ⟨fun h => Nat.le_antisymm (by omega) (Nat.le_of_dvd (Nat.succ_pos _) h),
      fun h => h ▸ Nat.dvd_refl _⟩
  rw [bitAt, bitAt, clearPadding, List.getD_eq_getElem?_getD, List.getD_eq_getElem?_getD,
    List.getElem?_mapIdx]
  cases data[(count k - 1 - p) * groups n + j / 8]? with
  | none => simp
  | some b =>
    simp only [Option.map_some, Option.getD_some, hlast]
    split
    · next h =>
      have hb := b.toNat_lt
      have hle : b.toNat / 2 ^ padding n * 2 ^ padding n ≤ b.toNat := Nat.div_mul_le_self _ _
      rw [UInt8.toNat_ofNat', Nat.mod_eq_of_lt (by omega), Nat.testBit_mul_two_pow,
        Nat.testBit_div_two_pow]
      by_cases hin : j < n
      · have hpad : padding n ≤ 7 - j % 8 := by
          rw [padding]
          omega
        rw [decide_eq_true hpad, decide_eq_true hin, Nat.sub_add_cancel hpad]
      · have hpad : ¬ padding n ≤ 7 - j % 8 := by
          rw [padding]
          omega
        rw [decide_eq_false hpad, decide_eq_false hin, Bool.false_and, Bool.false_and]
    · next h =>
      rw [decide_eq_true (by rw [groups] at *; omega), Bool.true_and]

theorem length_clearPadding (n : Nat) (data : Bytes) :
    (clearPadding n data).length = data.length := by
  rw [clearPadding, List.length_mapIdx]

/-! ## Both ways -/

/-- bits that no plane has are not written -/
theorem transpose_mod (k : Nat) (ss : List UInt16) :
    transpose k (ss.map fun s => UInt16.ofNat (s.toNat % 2 ^ (16 - k))) = transpose k ss := by
  have hlen : (ss.map fun s => UInt16.ofNat (s.toNat % 2 ^ (16 - k))).length = ss.length :=
    List.length_map _
  refine eq_of_bitAt (n := ss.length) (k := k) ?_ (length_transpose k ss) fun p hp j hj => ?_
  · rw [length_transpose, hlen]
  · rw [bitAt_transpose hlen hp hj, bitAt_transpose rfl hp hj, List.getD_eq_getElem?_getD,
      List.getD_eq_getElem?_getD, List.getElem?_map]
    cases ss[j]? with
    | none => rfl
    | some s =>
      have hle : s.toNat % 2 ^ (16 - k) ≤ s.toNat := Nat.mod_le _ _
      have hs := s.toNat_lt
      have hp' : p < 16 - k := hp
      rw [Option.map_some, Option.getD_some, Option.getD_some, UInt16.toNat_ofNat',
        Nat.mod_eq_of_lt (Nat.lt_of_le_of_lt hle hs), Nat.testBit_mod_two_pow, decide_eq_true hp',
        Bool.true_and]

theorem transpose_untranspose {n k : Nat} {data : Bytes} {ss : List UInt16}
    (h : untranspose n k data = .ok ss) : transpose k ss = clearPadding n data := by
  obtain ⟨hlen, -⟩ := untranspose_eq_ok h
  refine eq_of_bitAt (n := n) (k := k) ?_ ?_ fun p hp j hj => ?_
  · rw [length_transpose, hlen]
  · rw [length_clearPadding, exists_untranspose_iff.mp ⟨ss, h⟩]
  · rw [bitAt_transpose hlen hp hj, bitAt_clearPadding hj]
    by_cases hin : j < n
    · rw [testBit_untranspose h hp hin, decide_eq_true hin, Bool.true_and]
    · rw [List.getD_eq_getElem?_getD, List.getElem?_eq_none (by omega), decide_eq_false hin,
        Bool.false_and]
      exact Nat.zero_testBit p

/-- Samples go into planes of a size that only their number and `k` decide, bit by bit, and come back
without the bits that no plane has.  Plane bytes are accepted when they have that size, and what is
read from them goes back into the same bytes with the padding cleared. -/
theorem transposed_both_ways (k : Nat) :
    (∀ ss : List UInt16, (transpose k ss).length = size ss.length k ∧
      (∀ p < 16 - k, ∀ j < ss.length,
        bitAt ss.length k (transpose k ss) p j = (ss.getD j 0).toNat.testBit p) ∧
      untranspose ss.length k (transpose k ss) =
        .ok (ss.map fun s => UInt16.ofNat (s.toNat % 2 ^ (16 - k)))) ∧
    ∀ (n : Nat) (data : Bytes),
      ((∃ ss, untranspose n k data = .ok ss) ↔ data.length = size n k) ∧
      ∀ ss, untranspose n k data = .ok ss → ss.length = n ∧ transpose k ss = clearPadding n data := by
  refine ⟨fun ss => ⟨length_transpose k ss, fun p hp j hj => ?_, ?_⟩, fun n data => ⟨?_, ?_⟩⟩
  · exact bitAt_transpose rfl hp (by rw [groups]; omega)
  · have hlt : ∀ v ∈ ss.map fun s => UInt16.ofNat (s.toNat % 2 ^ (16 - k)),
        v.toNat < 2 ^ count k := by
      intro v hv
      obtain ⟨s, -, rfl⟩ := List.mem_map.mp hv
      rw [UInt16.toNat_ofNat']
      exact Nat.lt_of_le_of_lt (Nat.mod_le _ _) (Nat.mod_lt _ (Nat.two_pow_pos _))
    have hback := untranspose_transpose k hlt
    rwa [List.length_map, transpose_mod] at hback
  · exact exists_untranspose_iff
  · exact fun ss h => ⟨(untranspose_eq_ok h).1, transpose_untranspose h⟩

/-- eleven samples in two planes: five bits of the second byte of each plane are padding, and come
back as zeros -/
theorem loose_padding_cleared :
    let data : Bytes := [255, 255, 18, 52]
    let samples := (List.range 11).map UInt16.ofNat
    (∃ ss, untranspose 11 14 data = .ok ss ∧ ss.length = 11 ∧
        transpose 14 ss = [255, 224, 18, 32]) ∧
      (∀ ss, untranspose 11 14 data.tail ≠ .ok ss) ∧
      (1 < 16 - 14 ∧ 10 < samples.length ∧ bitAt 11 14 (transpose 14 samples) 1 10 = true) ∧
      untranspose 11 14 (transpose 14 samples) = .ok [0, 1, 2, 3, 0, 1, 2, 3, 0, 1, 2] := by
  intro data samples
  obtain ⟨hwritten, hread⟩ := transposed_both_ways 14
  obtain ⟨-, hbits, hback⟩ := hwritten samples
  obtain ⟨haccepted, hcleared⟩ := hread 11 data
  obtain ⟨ss, hss⟩ := haccepted.mpr (by decide)
  obtain ⟨hlen, hclear⟩ := hcleared ss hss
  have hclean : clearPadding 11 data = [255, 224, 18, 32] := by decide +kernel
  refine ⟨⟨ss, hss, hlen, hclear.trans hclean⟩, fun ss h => ?_, ⟨by decide, by decide, ?_⟩, hback⟩
  · exact absurd ((hread 11 data.tail).1.mp ⟨ss, h⟩) (by decide)
  · exact (hbits 1 (by decide) 10 (by decide)).trans (by decide)

end Planes

end Shoreline
