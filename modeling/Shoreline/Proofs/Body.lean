import Shoreline.Body
import Shoreline.Proofs.Base64
import Shoreline.Proofs.Base85
import Shoreline.Proofs.Layout
import Shoreline.Proofs.Samples

/-!
# A body stands for the rounded payload

Every step from a payload to a body is taken back but the rounding, so the body decodes to the payload
with its samples rounded (`decode_encode`).  The staged form has the length that the reader expects
(`length_stage`), and that is also the limit up to which it inflates.  No payload is refused, whole
items or not (`exists_encode`), so each comes back rounded, and unchanged where no bits are rounded
away (`encoded_comes_back`).
-/

namespace Shoreline.Body

/-! ## Steps -/

theorem unarmor_armor (e : Encoding) (b : Bytes) : unarmor e (armor e b) = .ok b := by
  cases e with
  | none => rfl
  | base85 => exact Base85.decode_encode b
  | base64 => exact Base64.decode_encode b

theorem decompress_compress [Deflate.Encoder] (c : Compression) (b : Bytes) :
    decompress b.length c (compress c b) = .ok b := by
  cases c with
  | none => rfl
  | deflate => exact Deflate.Encoder.inflate_encode b

/-- what the representation does to one sample -/
def recode : Representation → UInt16 → UInt16
  | .gray => Gray.encode
  | .binary => id

theorem represent_eq (r : Representation) (ss : List UInt16) : represent r ss = ss.map (recode r) := by
  cases r with
  | gray => rfl
  | binary => exact (List.map_id ss).symm

theorem unrepresent_represent (r : Representation) (ss : List UInt16) :
    unrepresent r (represent r ss) = ss := by
  cases r with
  | gray =>
    show (ss.map Gray.encode).map Gray.decode = ss
    rw [List.map_map]
    conv => rhs; rw [← List.map_id ss]
    exact List.map_congr_left fun s _ => Gray.decode_encode s
  | binary => rfl

theorem represent_lt (r : Representation) {n : Nat} {ss : List UInt16}
    (h : ∀ s ∈ ss, s.toNat < 2 ^ n) : ∀ s ∈ represent r ss, s.toNat < 2 ^ n := by
  cases r with
  | gray =>
    intro s hs
    obtain ⟨v, hv, rfl⟩ := List.mem_map.mp hs
    exact Gray.encode_lt (h v hv)
  | binary => exact h

theorem round_zero (v : UInt16) : Planes.round 0 v = v := by
  rw [Planes.round, Planes.reduce, if_pos rfl, Planes.expand, Nat.pow_zero, Nat.mul_one,
    UInt16.ofNat_toNat]

theorem expand_zero (v : UInt16) : Planes.expand 0 v = v := by
  rw [Planes.expand, Nat.pow_zero, Nat.mul_one, UInt16.ofNat_toNat]

/-! ## Staging -/

section
variable (l : Layout) (hl : 0 < l.itemSize) (payload : Bytes)
include hl

theorem rounded_eq (noise : Noise) :
    rounded l noise payload = l.mapSamples payload (Planes.round noise.bits) := by
  rw [rounded]
  dsimp only
  rw [l.join_map payload hl]

theorem length_samples : (l.split payload).1.length = l.sampleCount payload.length := by
  rw [l.length_samples payload hl, l.length_items payload hl]
  rfl

theorem length_raw : (l.split payload).2.length = l.rawSize payload.length := by
  have hs := length_samples l hl payload
  have hsize := l.itemSize_eq
  have hdiv := Nat.div_add_mod' payload.length l.itemSize
  have hraw : (l.split payload).2.length =
      payload.length / l.itemSize * l.rawPerItem + payload.length % l.itemSize := by
    rw [Layout.split, List.length_append, l.length_rawItems payload hl, l.length_items payload hl,
      l.length_tail]
  have hmul : payload.length / l.itemSize * l.itemSize =
      2 * l.sampleCount payload.length + payload.length / l.itemSize * l.rawPerItem := by
    conv => lhs; rw [hsize, Nat.mul_add]
    rw [Layout.sampleCount, Nat.mul_left_comm]
    simp only [← hsize]
  rw [hraw, Layout.rawSize]
  omega

theorem stage_untransposed (s : Stages) (hn : s.noise = .untransposed) :
    stage l s payload = .ok (l.mapSamples payload (recode s.representation)) := by
  rw [stage]
  dsimp only
  rw [hn]
  dsimp only
  rw [represent_eq, l.join_map payload hl]

omit hl in
theorem stage_removed (s : Stages) {k : Nat} (hn : s.noise = .removed k) :
    stage l s payload = .ok (Planes.transpose k
      (represent s.representation ((l.split payload).1.map (Planes.reduce k))) ++
        (l.split payload).2) := by
  rw [stage]
  dsimp only
  rw [hn]

theorem length_stage (s : Stages) {staged : Bytes} (h : stage l s payload = .ok staged) :
    staged.length = stagedSize l s.noise payload.length := by
  cases hn : s.noise with
  | untransposed =>
    rw [stage_untransposed l hl payload s hn] at h
    rw [← Except.ok.inj h, l.length_mapSamples payload hl]
    rfl
  | removed k =>
    rw [stage_removed l payload s hn] at h
    rw [← Except.ok.inj h, List.length_append, Planes.length_transpose, represent_eq,
      List.length_map, List.length_map, length_samples l hl, length_raw l hl]
    rfl

/-- the samples of the staged form, taken back to full scale, are the rounded ones -/
theorem unstage_stage (s : Stages) (hk : s.noise.bits ≤ Noise.most) {staged : Bytes}
    (h : stage l s payload = .ok staged) :
    ∃ ss, unstage l s.noise payload.length staged = .ok (ss, (l.split payload).2) ∧
      (unrepresent s.representation ss).map (Planes.expand s.noise.bits) =
        (l.split payload).1.map (Planes.round s.noise.bits) := by
  cases hn : s.noise with
  | untransposed =>
    rw [stage_untransposed l hl payload s hn] at h
    refine ⟨represent s.representation (l.split payload).1, ?_, ?_⟩
    · rw [← Except.ok.inj h, unstage, l.split_mapSamples payload hl, represent_eq]
    · rw [unrepresent_represent, Noise.bits]
      exact List.map_congr_left fun v _ => (expand_zero v).trans (round_zero v).symm
  | removed k =>
    rw [hn] at hk
    have hk16 : k ≤ 16 := Nat.le_trans hk (by decide)
    rw [stage_removed l payload s hn] at h
    refine ⟨represent s.representation ((l.split payload).1.map (Planes.reduce k)), ?_, ?_⟩
    · have hlen : (represent s.representation ((l.split payload).1.map (Planes.reduce k))).length =
          l.sampleCount payload.length := by
        rw [represent_eq, List.length_map, List.length_map, length_samples l hl]
      have hreduced : ∀ v ∈ (l.split payload).1.map (Planes.reduce k),
          v.toNat < 2 ^ Planes.count k := by
        intro v hv
        obtain ⟨w, -, rfl⟩ := List.mem_map.mp hv
        exact Planes.reduce_lt hk16 w
      have hlt := represent_lt s.representation hreduced
      have hsize := Planes.length_transpose k
        (represent s.representation ((l.split payload).1.map (Planes.reduce k)))
      have hback := Planes.untranspose_transpose k hlt
      rw [hlen] at hsize hback
      rw [← Except.ok.inj h, unstage, ← hsize, List.take_left, List.drop_left, hback]
      rfl
    · rw [unrepresent_represent, List.map_map]
      rfl

end

/-! ## The body -/

theorem decode_encode [Deflate.Encoder] (l : Layout) (hl : 0 < l.itemSize) (s : Stages)
    (hk : s.noise.bits ≤ Noise.most) (payload : Bytes) {e : Encoded}
    (h : encode l s payload = .ok e) :
    decode l s payload.length e.body = .ok (rounded l s.noise payload) := by
  obtain ⟨staged, hstage, he⟩ := bind_eq_ok h
  have hlen := length_stage l hl payload s hstage
  obtain ⟨ss, hun, hss⟩ := unstage_stage l hl payload s hk hstage
  have hbody : e.body = armor s.encoding (compress s.compression staged) := by
    rw [← Except.ok.inj he]
  rw [decode, unpack, hbody, unarmor_armor]
  dsimp only [bind, Except.bind]
  rw [← hlen, decompress_compress]
  dsimp only
  rw [if_neg (by simp), hun]
  dsimp only
  rw [hss, l.join_map payload hl, rounded_eq l hl]

theorem exists_encode [Deflate.Encoder] (l : Layout) (hl : 0 < l.itemSize) (s : Stages)
    (payload : Bytes) : ∃ e, encode l s payload = .ok e := by
  obtain ⟨staged, hstage⟩ : ∃ staged, stage l s payload = .ok staged := by
    cases hn : s.noise with
    | untransposed => exact ⟨_, stage_untransposed l hl payload s hn⟩
    | removed k => exact ⟨_, stage_removed l payload s hn⟩
  exact ⟨_, by rw [encode, hstage]; rfl⟩

theorem rounded_of_bits_eq_zero (l : Layout) (hl : 0 < l.itemSize) {noise : Noise}
    (h : noise.bits = 0) (payload : Bytes) : rounded l noise payload = payload := by
  rw [rounded_eq l hl, h]
  exact l.mapSamples_of_fixed payload hl _ round_zero

theorem rounded_append (l : Layout) (hl : 0 < l.itemSize) (noise : Noise) {a : Bytes}
    (ha : l.itemSize ∣ a.length) (b : Bytes) :
    rounded l noise (a ++ b) = rounded l noise a ++ rounded l noise b := by
  rw [rounded_eq l hl, rounded_eq l hl, rounded_eq l hl, l.mapSamples_append hl _ ha]

/-- a payload may be rounded piece by piece, if it is cut between its items -/
theorem rounded_chunks (l : Layout) (hl : 0 < l.itemSize) (noise : Noise) {k : Nat} (hk : 0 < k)
    (payload : Bytes) :
    ((chunks (k * l.itemSize) payload).map (rounded l noise)).flatten =
      rounded l noise payload := by
  have hn : 0 < k * l.itemSize := Nat.mul_pos hk hl
  by_cases hp : payload = []
  · have hlen := l.length_mapSamples payload hl (Planes.round noise.bits)
    rw [← rounded_eq l hl, hp] at hlen
    rw [hp, chunks_nil, List.length_eq_zero_iff.mp hlen]
    rfl
  · rw [chunks_of_ne_nil _ hn payload hp, List.map_cons, List.flatten_cons]
    by_cases hle : payload.length ≤ k * l.itemSize
    · rw [List.drop_of_length_le hle, chunks_nil, List.take_of_length_le hle]
      exact List.append_nil _
    · have hwhole : l.itemSize ∣ (payload.take (k * l.itemSize)).length := by
        rw [List.length_take, Nat.min_eq_left (by omega)]
        exact Nat.dvd_mul_left _ _
      rw [rounded_chunks l hl noise hk (payload.drop (k * l.itemSize)),
        ← rounded_append l hl noise hwhole, List.take_append_drop]
termination_by payload.length
decreasing_by
  have := List.length_pos_iff.mpr hp
  simp only [List.length_drop]
  omega

/-- the layouts in use: plain words, and the items of each sensor class -/
def layouts : List Layout := .words :: Sensor.all.map .ofSensor

theorem itemSize_pos_of_mem_layouts {l : Layout} (h : l ∈ layouts) : 0 < l.itemSize := by
  rcases List.mem_cons.mp h with rfl | h
  · decide
  · obtain ⟨c, -, rfl⟩ := List.mem_map.mp h
    exact Layout.itemSize_ofSensor_pos c

/-- every payload has a body, and the body comes back as the rounded payload -/
theorem encoded_comes_back [Deflate.Encoder] (l : Layout) (hl : l ∈ layouts) (s : Stages)
    (hk : s.noise.bits ≤ Noise.most) (payload : Bytes) :
    ∃ e, encode l s payload = .ok e ∧
      decode l s payload.length e.body = .ok (rounded l s.noise payload) ∧
      (s.noise.bits = 0 → rounded l s.noise payload = payload) := by
  have hpos := itemSize_pos_of_mem_layouts hl
  obtain ⟨e, he⟩ := exists_encode l hpos s payload
  exact ⟨e, he, decode_encode l hpos s hk payload he,
    fun h => rounded_of_bits_eq_zero l hpos h payload⟩

/-- two items of interleaved channels and a part of a third, through all four stages -/
theorem partial_items_come_back :
    let payload : Bytes := (List.range 87).map fun i => UInt8.ofNat (i * 5)
    let s : Stages := ⟨.gray, .removed 3, .deflate, .base85⟩
    Layout.ofSensor .mcoms ∈ layouts ∧ s.noise.bits ≤ Noise.most ∧
      ∃ e, encode (.ofSensor .mcoms) s payload = .ok e ∧
        decode (.ofSensor .mcoms) s 87 e.body =
          .ok (rounded (.ofSensor .mcoms) (.removed 3) payload) ∧
        (s.noise.bits = 0 → rounded (.ofSensor .mcoms) (.removed 3) payload = payload) := by
  intro payload s
  have hl : Layout.ofSensor .mcoms ∈ layouts := by decide
  have hk : s.noise.bits ≤ Noise.most := by decide
  exact ⟨hl, hk, encoded_comes_back (.ofSensor .mcoms) hl s hk payload⟩

end Shoreline.Body
