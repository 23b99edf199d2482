import Shoreline.Proofs.Body

/-!
# What encoding loses

A rounded sample is the full-scale form of a reduced one, and reducing takes it back
(`reduce_expand`).  So two samples round alike exactly when they reduce alike, and the planes of a
payload, which hold reduced samples, say no more and no less of it than its rounded form.

* `mapSamples_mapSamples`        two changes of every sample are one change;
* `getElem?_mapSamples`          bytes that belong to no sample stay as they are;
* `encode_loses_only_rounding`   payloads are encoded alike exactly when they round alike.
-/

namespace Shoreline

/-! ## One sample -/

namespace Planes

theorem toNat_expand {k : Nat} (hk : k ≤ 16) {v : UInt16} (h : v.toNat < 2 ^ count k) :
    (expand k v).toNat = v.toNat * 2 ^ k := by
  have hlt : v.toNat * 2 ^ k < 2 ^ 16 := by
    rw [show (16 : Nat) = count k + k from (Nat.sub_add_cancel hk).symm, Nat.pow_add]
    exact Nat.mul_lt_mul_of_pos_right h (Nat.two_pow_pos k)
  rw [expand, UInt16.toNat_ofNat', Nat.mod_eq_of_lt hlt]

/-- a reduced sample comes back from its full-scale form -/
theorem reduce_expand {k : Nat} (hk : k ≤ 16) {v : UInt16} (h : v.toNat < 2 ^ count k) :
    reduce k (expand k v) = v := by
  have hexpand := toNat_expand hk h
  by_cases h0 : k = 0
  · subst h0
    rw [reduce, if_pos rfl, ← UInt16.toNat_inj, hexpand, Nat.pow_zero, Nat.mul_one]
  · have hhalf : 2 ^ (k - 1) < 2 ^ k := Nat.pow_lt_pow_right (by decide) (by omega)
    have hnear : (v.toNat * 2 ^ k + 2 ^ (k - 1)) / 2 ^ k = v.toNat := by
      rw [Nat.mul_comm, Nat.mul_add_div (Nat.two_pow_pos k), Nat.div_eq_of_lt hhalf, Nat.add_zero]
    have hmost : v.toNat ≤ 65535 / 2 ^ k := by
      have := (expand k v).toNat_lt
      rw [Nat.le_div_iff_mul_le (Nat.two_pow_pos k)]
      omega
    rw [reduce, if_neg h0, hexpand, hnear, Nat.min_eq_left hmost, UInt16.ofNat_toNat]

theorem reduce_round {k : Nat} (hk : k ≤ 16) (v : UInt16) : reduce k (round k v) = reduce k v :=
  reduce_expand hk (reduce_lt hk v)

theorem round_round {k : Nat} (hk : k ≤ 16) (v : UInt16) : round k (round k v) = round k v :=
  congrArg (expand k) (reduce_round hk v)

end Planes

/-! ## The bytes of a payload -/

/-- for each byte of a cell, whether it belongs to a sample -/
def Cell.marks : Cell → List Bool
  | sample => [true, true]
  | raw => [false]

namespace Layout

/-- byte `i` of a payload of `n` bytes belongs to a sample -/
def Sampled (l : Layout) (n i : Nat) : Prop :=
  i < n / l.itemSize * l.itemSize ∧
    (l.cells.flatMap Cell.marks)[i % l.itemSize]? = some true

instance (l : Layout) (n i : Nat) : Decidable (l.Sampled n i) := inferInstanceAs (Decidable (_ ∧ _))

/-- of an item with pairs of counts before each wide channel, the counts are the samples -/
example : (List.range 60).filter (fun i => (ofSensor .mcoms).Sampled Sensor.mcoms.itemSize i) =
    [0, 1, 2, 3, 8, 9, 10, 11, 16, 17, 18, 19] := by decide

theorem getElem?_weave (f : UInt16 → UInt16) (cs : List Cell) (b : Bytes)
    (hb : b.length = sizeOf cs) (i : Nat) (hi : (cs.flatMap Cell.marks)[i]? ≠ some true) :
    (weave cs ((itemSamples cs b).map f) (itemRaw cs b))[i]? = b[i]? := by
  induction cs generalizing b i with
  | nil => rw [List.length_eq_zero_iff.mp hb]; rfl
  | cons c cs ih =>
    rw [sizeOf_cons] at hb
    cases c with
    | sample =>
      simp only [Cell.size] at hb
      obtain ⟨lo, b, rfl⟩ := List.exists_cons_of_length_pos (l := b) (by omega)
      simp only [List.length_cons] at hb
      obtain ⟨hi', b, rfl⟩ := List.exists_cons_of_length_pos (l := b) (by omega)
      simp only [List.length_cons] at hb
      rcases i with _ | _ | i
      · exact absurd rfl hi
      · exact absurd rfl hi
      · exact ih b (by omega) i hi
    | raw =>
      simp only [Cell.size] at hb
      obtain ⟨x, b, rfl⟩ := List.exists_cons_of_length_pos (l := b) (by omega)
      simp only [List.length_cons] at hb
      rcases i with _ | i
      · rfl
      · exact ih b (by omega) i hi

section
variable (l : Layout) (payload : Bytes) (h : 0 < l.itemSize) (f g : UInt16 → UInt16)
include h

/-- two changes of every sample are one change -/
theorem mapSamples_mapSamples :
    l.mapSamples (l.mapSamples payload f) g = l.mapSamples payload (g ∘ f) := by
  have hjoin := l.join_map (l.mapSamples payload f) h g
  rw [l.split_mapSamples payload h, List.map_map, l.join_map payload h] at hjoin
  exact (Except.ok.inj hjoin).symm

/-- bytes that belong to no sample stay as they are -/
theorem getElem?_mapSamples {i : Nat} (hi : ¬ l.Sampled payload.length i) :
    (l.mapSamples payload f)[i]? = payload[i]? := by
  have hlen := l.length_of_mem_items payload h
  have hchanged : ∀ c ∈ (l.items payload).map fun item =>
      weave l.cells ((itemSamples l.cells item).map f) (itemRaw l.cells item),
      c.length = l.itemSize := by
    intro c hc
    obtain ⟨item, hm, rfl⟩ := List.mem_map.mp hc
    exact (l.weave_item payload h f hm).1
  have hflat := length_flatten_of_length hlen
  have hflat' := length_flatten_of_length hchanged
  rw [List.length_map] at hflat'
  rw [l.length_items payload h] at hflat hflat'
  conv => rhs; rw [← l.items_flatten payload h]
  rw [mapSamples, List.flatMap_def]
  by_cases hw : i < payload.length / l.itemSize * l.itemSize
  · rw [List.getElem?_append_left (by omega), List.getElem?_append_left (by omega),
      getElem?_flatten_of_length h hchanged, getElem?_flatten_of_length h hlen, List.getElem?_map]
    cases hitem : (l.items payload)[i / l.itemSize]? with
    | none => rfl
    | some item =>
      exact getElem?_weave f l.cells item (hlen item (List.mem_of_getElem? hitem)) _
        fun hmark => hi ⟨hw, hmark⟩
  · rw [List.getElem?_append_right (by omega), List.getElem?_append_right (by omega), hflat, hflat']

end

end Layout

/-! ## Bodies -/

namespace Body

section
variable (l : Layout) (hl : 0 < l.itemSize) (s : Stages) (hk : s.noise.bits ≤ Noise.most)
include hl hk

theorem rounded_rounded (p : Bytes) :
    rounded l s.noise (rounded l s.noise p) = rounded l s.noise p := by
  have hk16 : s.noise.bits ≤ 16 := Nat.le_trans hk (by decide)
  rw [rounded_eq l hl, rounded_eq l hl, l.mapSamples_mapSamples p hl]
  exact congrArg (l.mapSamples p) (funext (Planes.round_round hk16))

/-- payloads that round alike have the same reduced samples and the same raw bytes -/
theorem split_eq_of_rounded_eq {p q : Bytes} (h : rounded l s.noise p = rounded l s.noise q) :
    (l.split p).1.map (Planes.reduce s.noise.bits) =
        (l.split q).1.map (Planes.reduce s.noise.bits) ∧
      (l.split p).2 = (l.split q).2 := by
  have hk16 : s.noise.bits ≤ 16 := Nat.le_trans hk (by decide)
  have hreduce (x : Bytes) : (l.split (rounded l s.noise x)).1.map (Planes.reduce s.noise.bits) =
      (l.split x).1.map (Planes.reduce s.noise.bits) := by
    rw [rounded_eq l hl, l.split_mapSamples x hl, List.map_map]
    exact List.map_congr_left fun v _ => Planes.reduce_round hk16 v
  have hraw (x : Bytes) : (l.split (rounded l s.noise x)).2 = (l.split x).2 := by
    rw [rounded_eq l hl, l.split_mapSamples x hl]
  constructor
  · rw [← hreduce p, h, hreduce q]
  · rw [← hraw p, h, hraw q]

theorem stage_eq_of_rounded_eq {p q : Bytes} (h : rounded l s.noise p = rounded l s.noise q) :
    stage l s p = stage l s q := by
  cases hn : s.noise with
  | untransposed =>
    have hbits : s.noise.bits = 0 := by rw [hn]; rfl
    rw [rounded_of_bits_eq_zero l hl hbits, rounded_of_bits_eq_zero l hl hbits] at h
    rw [h]
  | removed k =>
    obtain ⟨hsamples, hraw⟩ := split_eq_of_rounded_eq l hl s hk h
    rw [hn, Noise.bits] at hsamples
    rw [stage_removed l p s hn, stage_removed l q s hn, hsamples, hraw]

/-- payloads of one length are encoded alike exactly when they round alike -/
theorem encode_eq_iff [Deflate.Encoder] {p q : Bytes} (hlen : p.length = q.length) {d e : Encoded}
    (hd : encode l s p = .ok d) (he : encode l s q = .ok e) :
    d = e ↔ rounded l s.noise p = rounded l s.noise q := by
  constructor
  · rintro rfl
    have hp := decode_encode l hl s hk p hd
    rw [hlen, decode_encode l hl s hk q he] at hp
    exact (Except.ok.inj hp).symm
  · intro h
    rw [encode, stage_eq_of_rounded_eq l hl s hk h, ← encode, he] at hd
    exact (Except.ok.inj hd).symm

end

/-- a body says of its payload just what rounding leaves of it; and rounding changes nothing but
samples, and those only once -/
theorem encode_loses_only_rounding [Deflate.Encoder] (l : Layout) (hl : l ∈ layouts) (s : Stages)
    (hk : s.noise.bits ≤ Noise.most) :
    (∀ p q : Bytes, p.length = q.length → ∃ d e, encode l s p = .ok d ∧ encode l s q = .ok e ∧
      (d = e ↔ rounded l s.noise p = rounded l s.noise q)) ∧
    ∀ p : Bytes, rounded l s.noise (rounded l s.noise p) = rounded l s.noise p ∧
      (rounded l s.noise p).length = p.length ∧
      (∀ i, ¬ l.Sampled p.length i → (rounded l s.noise p)[i]? = p[i]?) ∧
      (s.noise.bits = 0 → rounded l s.noise p = p) := by
  have hpos := itemSize_pos_of_mem_layouts hl
  refine ⟨fun p q hlen => ?_, fun p => ⟨?_, ?_, ?_, ?_⟩⟩
  · obtain ⟨d, hd⟩ := exists_encode l hpos s p
    obtain ⟨e, he⟩ := exists_encode l hpos s q
    exact ⟨d, e, hd, he, encode_eq_iff l hpos s hk hlen hd he⟩
  · exact rounded_rounded l hpos s hk p
  · rw [rounded_eq l hpos, l.length_mapSamples p hpos]
  · intro i hi
    rw [rounded_eq l hpos, l.getElem?_mapSamples p hpos _ hi]
  · exact fun hbits => rounded_of_bits_eq_zero l hpos hbits p

/-- two payloads that differ in the low bits of a sample have one body, and their odd last byte
comes through -/
theorem near_payloads_encoded_alike :
    let s : Stages := ⟨.gray, .removed 3, .deflate, .base85⟩
    let p : Bytes := [7, 0, 255, 255, 9]
    let q : Bytes := [9, 0, 252, 255, 9]
    Layout.words ∈ layouts ∧ s.noise.bits ≤ Noise.most ∧ p.length = q.length ∧
      (∃ d, encode .words s p = .ok d ∧ encode .words s q = .ok d) ∧
      ¬ Layout.words.Sampled p.length 4 ∧ (rounded .words s.noise p)[4]? = some 9 ∧
      (Stages.identity.noise.bits = 0 → rounded .words Stages.identity.noise p = p) := by
  intro s p q
  have hl : Layout.words ∈ layouts := by decide
  have hk : s.noise.bits ≤ Noise.most := by decide
  obtain ⟨hencode, hrounded⟩ := encode_loses_only_rounding .words hl s hk
  obtain ⟨d, e, hd, he, hiff⟩ := hencode p q rfl
  have hde : d = e := hiff.mpr (by decide +kernel)
  have htail : ¬ Layout.words.Sampled p.length 4 := by decide
  refine ⟨hl, hk, rfl, ⟨d, hd, hde ▸ he⟩, htail, ?_, ?_⟩
  · rw [(hrounded p).2.2.1 4 htail]
    rfl
  · exact ((encode_loses_only_rounding .words hl .identity (by decide)).2 p).2.2.2

end Body

end Shoreline
