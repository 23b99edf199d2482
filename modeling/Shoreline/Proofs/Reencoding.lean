import Shoreline.Proofs.Package
import Shoreline.Proofs.Rounding

/-!
# What was read is written again without loss

A body need not be one that the encoder writes: bits behind the last sample of a plane, groups of the
ASCII alphabets and deflate streams can all be written otherwise.  But what is read from it has the
length that its header states, and its samples have no bits left that the stages would round away
(`Body.rounded_of_decode`).  So a packet that was read is encoded and read again as it was, up to the
two sizes in its header (`DataPacket.packet_read_back`, with the way from a new packet to its
rounded payload).

* `Layout.join_split`           a payload is put together again from its streams;
* `Layout.split_join`           two streams that can be joined come apart again;
* `Planes.untranspose_eq_ok`    planes hold as many samples as asked for, of few enough bits;
* `Planes.round_expand`         samples at full scale are not rounded again.
-/

namespace Shoreline

/-! ## Joined streams -/

namespace Layout
variable (l : Layout)

/-- the first item of joined streams -/
theorem weaveItems_succ (hs : 0 < l.samplesPerItem) {q : Nat} {samples : List UInt16} {raw : Bytes}
    (hsamples : samples.length = (q + 1) * l.samplesPerItem)
    (hraw : raw.length = (q + 1) * l.rawPerItem) :
    l.weaveItems samples raw =
      weave l.cells (samples.take l.samplesPerItem) (raw.take l.rawPerItem) ++
        l.weaveItems (samples.drop l.samplesPerItem) (raw.drop l.rawPerItem) := by
  rw [Nat.succ_mul] at hsamples hraw
  have hne : samples ≠ [] := List.length_pos_iff.mp (by omega)
  rw [weaveItems, weaveItems, chunks_of_ne_nil _ hs samples hne]
  by_cases hz : l.rawPerItem = 0
  · rw [if_pos hz, if_pos hz, hz]
    rfl
  · have hne' : raw ≠ [] := List.length_pos_iff.mp (by omega)
    rw [if_neg hz, if_neg hz, chunks_of_ne_nil _ (Nat.pos_of_ne_zero hz) raw hne']
    rfl

/-- joined streams are items, and the items come apart into the streams -/
theorem weaveItems_items (hs : 0 < l.samplesPerItem) {q : Nat} {samples : List UInt16} {raw : Bytes}
    (hsamples : samples.length = q * l.samplesPerItem) (hraw : raw.length = q * l.rawPerItem) :
    ∃ items : List Bytes, l.weaveItems samples raw = items.flatten ∧
      (∀ b ∈ items, b.length = l.itemSize) ∧ items.flatMap (itemSamples l.cells) = samples ∧
      items.flatMap (itemRaw l.cells) = raw := by
  induction q generalizing samples raw with
  | zero =>
    obtain rfl := List.length_eq_zero_iff.mp (hsamples.trans (Nat.zero_mul _))
    obtain rfl := List.length_eq_zero_iff.mp (hraw.trans (Nat.zero_mul _))
    exact ⟨[], by rw [weaveItems, chunks_nil]; rfl, by simp, rfl, rfl⟩
  | succ q ih =>
    have hfirst := l.weaveItems_succ hs hsamples hraw
    rw [Nat.succ_mul] at hsamples hraw
    have hdrop : (samples.drop l.samplesPerItem).length = q * l.samplesPerItem := by
      rw [List.length_drop]
      omega
    have hdrop' : (raw.drop l.rawPerItem).length = q * l.rawPerItem := by
      rw [List.length_drop]
      omega
    obtain ⟨items, hweave, hlen, hitems, hitems'⟩ := ih hdrop hdrop'
    obtain ⟨hsize, hback, hback'⟩ := weave_spec l.cells (samples.take l.samplesPerItem)
      (raw.take l.rawPerItem) (by rw [List.length_take]; exact Nat.min_eq_left (by omega))
      (by rw [List.length_take]; exact Nat.min_eq_left (by omega))
    refine ⟨weave l.cells (samples.take l.samplesPerItem) (raw.take l.rawPerItem) :: items,
      ?_, ?_, ?_, ?_⟩
    · rw [hfirst, hweave, List.flatten_cons]
    · intro b hb
      rcases List.mem_cons.mp hb with rfl | hb
      · exact hsize
      · exact hlen b hb
    · rw [List.flatMap_cons, hback, hitems, List.take_append_drop]
    · rw [List.flatMap_cons, hback', hitems', List.take_append_drop]

theorem join_of_no_samples (hs : l.samplesPerItem = 0) (raw : Bytes) :
    l.join [] raw = .ok raw := by
  rw [join, hs, if_neg (by simp), if_neg (by simp), List.length_nil, Nat.div_zero, Nat.zero_mul,
    List.take_zero, List.drop_zero, weaveItems, hs, chunks_nil, List.zipWith_nil_left]
  rfl

variable {l} in
/-- a payload is put together again from its own streams -/
theorem join_split (h : 0 < l.itemSize) (payload : Bytes) :
    l.join (l.split payload).1 (l.split payload).2 = .ok payload := by
  have hjoin := l.join_map payload h id
  rwa [l.mapSamples_of_fixed payload h id fun _ => rfl, List.map_id] at hjoin

variable {l} in
/-- what was joined comes apart into the streams it was joined from -/
theorem split_join (h : 0 < l.itemSize) {samples : List UInt16} {raw b : Bytes}
    (hb : l.join samples raw = .ok b) : l.split b = (samples, raw) := by
  by_cases hs : l.samplesPerItem = 0
  · have hsamples : samples = [] := by
      rw [join, hs, Nat.mul_zero] at hb
      split at hb
      · exact absurd hb (by simp)
      next hwhole => exact List.length_eq_zero_iff.mp (Decidable.not_not.mp hwhole).symm
    have hnone : (l.split b).1 = [] :=
      List.length_eq_zero_iff.mp (by rw [l.length_samples b h, hs, Nat.mul_zero])
    have hself := join_split h b
    rw [hnone, l.join_of_no_samples hs] at hself
    rw [hsamples, l.join_of_no_samples hs] at hb
    rw [hsamples]
    exact Prod.ext hnone ((Except.ok.inj hself).trans (Except.ok.inj hb).symm)
  · rw [join] at hb
    split at hb
    · exact absurd hb (by simp)
    next hwhole =>
    split at hb
    · exact absurd hb (by simp)
    next hraw =>
    obtain ⟨hle, hlt⟩ := not_or.mp hraw
    have hwhole := Decidable.not_not.mp hwhole
    have htaken : (raw.take (samples.length / l.samplesPerItem * l.rawPerItem)).length =
        samples.length / l.samplesPerItem * l.rawPerItem := by
      rw [List.length_take]
      omega
    have hrest : (raw.drop (samples.length / l.samplesPerItem * l.rawPerItem)).length <
        l.itemSize := by
      rw [List.length_drop]
      omega
    obtain ⟨items, hweave, hlen, hitems, hitems'⟩ :=
      l.weaveItems_items (Nat.pos_of_ne_zero hs) hwhole.symm htaken
    obtain ⟨hback, htail⟩ := items_of_flatten_append h hlen hrest
    rw [← Except.ok.inj hb, hweave, split, hback, htail, hitems, hitems', List.take_append_drop]

theorem two_mul_sampleCount_le (n : Nat) : 2 * l.sampleCount n ≤ n := by
  have hsize := l.itemSize_eq
  have hmul := Nat.mul_le_mul_left (n / l.itemSize)
    (show 2 * l.samplesPerItem ≤ l.itemSize by omega)
  rw [Nat.mul_left_comm] at hmul
  exact Nat.le_trans hmul (Nat.div_mul_le_self _ _)

theorem length_split (h : 0 < l.itemSize) (payload : Bytes) :
    payload.length = 2 * (l.split payload).1.length + (l.split payload).2.length := by
  have hcount := l.two_mul_sampleCount_le payload.length
  rw [Body.length_samples l h, Body.length_raw l h, rawSize]
  omega

end Layout

/-! ## Samples read from planes -/

namespace Gray

theorem fold_lt {n k : Nat} (hk : k < 16) {v : UInt16} (h : v.toNat < 2 ^ n) :
    (fold (UInt16.ofNat k) v).toNat < 2 ^ n := by
  rw [toNat_fold hk]
  exact Nat.xor_lt_two_pow h (Nat.lt_of_le_of_lt (Nat.shiftRight_le _ _) h)

theorem decode_lt {n : Nat} {v : UInt16} (h : v.toNat < 2 ^ n) : (decode v).toNat < 2 ^ n :=
  fold_lt (k := 8) (by decide) (fold_lt (k := 4) (by decide)
    (fold_lt (k := 2) (by decide) (fold_lt (k := 1) (by decide) h)))

end Gray

namespace Planes

/-- each plane gives every sample one bit more -/
theorem foldl_pushRow_lt {n i : Nat} (rows : List Bytes) (hrows : ∀ row ∈ rows, n ≤ 8 * row.length)
    {acc : List UInt16} (hlen : acc.length = n) (hacc : ∀ s ∈ acc, s.toNat < 2 ^ i)
    (hi : i + rows.length ≤ 16) :
    (rows.foldl pushRow acc).length = n ∧
      ∀ s ∈ rows.foldl pushRow acc, s.toNat < 2 ^ (i + rows.length) := by
  induction rows generalizing i acc with
  | nil => exact ⟨hlen, hacc⟩
  | cons row rows ih =>
    rw [List.length_cons] at hi ⊢
    have hpow : 2 ^ (i + 1) ≤ 2 ^ 16 := Nat.pow_le_pow_right (by decide) (by omega)
    rw [List.foldl_cons, show i + (rows.length + 1) = i + 1 + rows.length by omega]
    refine ih (fun r hr => hrows r (List.mem_cons_of_mem _ hr)) ?_ ?_ (by omega)
    · rw [pushRow, List.length_zipWith, length_flatMap_bitsOf, hlen]
      exact Nat.min_eq_left (hrows row List.mem_cons_self)
    · intro s hs
      rw [pushRow, ← List.map_uncurry_zip_eq_zipWith] at hs
      obtain ⟨⟨v, b⟩, hv, rfl⟩ := List.mem_map.mp hs
      have hlt := hacc v (List.of_mem_zip hv).1
      have hb := Bool.toNat_le b
      rw [Nat.pow_succ] at hpow ⊢
      show (2 * v.toNat + b.toNat) % 65536 < 2 ^ i * 2
      omega

/-- the samples that planes were read into, from the first plane on -/
theorem foldl_pushRow_zero_lt {n : Nat} (rows : List Bytes)
    (hrows : ∀ row ∈ rows, n ≤ 8 * row.length) (hlen : rows.length ≤ 16) :
    (rows.foldl pushRow (List.replicate n 0)).length = n ∧
      ∀ s ∈ rows.foldl pushRow (List.replicate n 0), s.toNat < 2 ^ rows.length := by
  have hzero : ∀ s ∈ List.replicate n (0 : UInt16), s.toNat < 2 ^ 0 := by
    intro s hs
    rw [List.eq_of_mem_replicate hs]
    decide
  have hall := foldl_pushRow_lt rows hrows List.length_replicate hzero (by omega)
  rwa [Nat.zero_add] at hall

/-- planes of the right size, one for each bit, and each with a place for every sample -/
theorem rows_of_size {n k : Nat} {data : Bytes} (hn : 0 < n) (hlen : data.length = size n k) :
    (chunks (groups n) data).length = count k ∧
      ∀ row ∈ chunks (groups n) data, n ≤ 8 * row.length := by
  have hg : 0 < groups n := by
    rw [groups]
    omega
  constructor
  · rw [length_chunks hg, hlen, size, Nat.add_sub_assoc hg, Nat.mul_comm,
      Nat.mul_add_div hg, Nat.div_eq_of_lt (by omega), Nat.add_zero]
  · intro row hrow
    rw [length_of_mem_chunks hg hlen row hrow, groups]
    omega

theorem untranspose_eq_ok {n k : Nat} {data : Bytes} {ss : List UInt16}
    (h : untranspose n k data = .ok ss) : ss.length = n ∧ ∀ s ∈ ss, s.toNat < 2 ^ count k := by
  rw [untranspose] at h
  split at h
  next hlen =>
    obtain rfl := Except.ok.inj h
    by_cases hn : n = 0
    · subst hn
      have hnil : data = [] := List.length_eq_zero_iff.mp (hlen.trans (Nat.mul_zero _))
      rw [hnil, chunks_nil]
      exact ⟨rfl, by simp⟩
    · obtain ⟨hcount, hrows⟩ := rows_of_size (Nat.pos_of_ne_zero hn) hlen
      have hall := foldl_pushRow_zero_lt (chunks (groups n) data) hrows
        (by rw [hcount, count, sampleBits]; omega)
      rwa [hcount] at hall
  · exact absurd h (by simp)

/-- a sample at full scale is not rounded again -/
theorem round_expand {k : Nat} (hk : k ≤ 16) {v : UInt16} (h : v.toNat < 2 ^ count k) :
    round k (expand k v) = expand k v :=
  congrArg (expand k) (reduce_expand hk h)

end Planes

/-! ## Payloads that were read -/

namespace Body

theorem length_unrepresent (r : Representation) (ss : List UInt16) :
    (unrepresent r ss).length = ss.length := by
  cases r with
  | gray => exact List.length_map Gray.decode
  | binary => rfl

theorem unrepresent_lt (r : Representation) {n : Nat} {ss : List UInt16}
    (h : ∀ s ∈ ss, s.toNat < 2 ^ n) : ∀ s ∈ unrepresent r ss, s.toNat < 2 ^ n := by
  cases r with
  | gray =>
    intro s hs
    obtain ⟨v, hv, rfl⟩ := List.mem_map.mp hs
    exact Gray.decode_lt (h v hv)
  | binary => exact h

/-- the streams of a staged payload of `n` bytes -/
theorem unstage_eq_ok {l : Layout} (hl : 0 < l.itemSize) {noise : Noise} {n : Nat}
    {staged raw : Bytes} {ss : List UInt16} (hlen : staged.length = stagedSize l noise n)
    (h : unstage l noise n staged = .ok (ss, raw)) :
    2 * ss.length + raw.length = n ∧
      ∀ k, noise = .removed k → ∀ s ∈ ss, s.toNat < 2 ^ Planes.count k := by
  cases noise with
  | untransposed =>
    have hsplit := l.length_split hl staged
    rw [unstage] at h
    rw [Except.ok.inj h, hlen, stagedSize] at hsplit
    exact ⟨hsplit.symm, fun k hk => absurd hk (by simp)⟩
  | removed k =>
    obtain ⟨samples, hsamples, hpair⟩ := map_eq_ok h
    obtain ⟨rfl, rfl⟩ := Prod.mk.inj hpair
    obtain ⟨hcount, hlt⟩ := Planes.untranspose_eq_ok hsamples
    refine ⟨?_, fun j hj => Noise.removed.inj hj ▸ hlt⟩
    have hle := l.two_mul_sampleCount_le n
    rw [stagedSize, Layout.rawSize] at hlen
    rw [hcount, List.length_drop, hlen]
    omega

/-- what was read has the length asked for, and its samples are rounded -/
theorem rounded_of_decode {l : Layout} (hl : 0 < l.itemSize) {s : Stages}
    (hk : s.noise.bits ≤ Noise.most) {n : Nat} {body payload : Bytes}
    (h : decode l s n body = .ok payload) :
    payload.length = n ∧ rounded l s.noise payload = payload := by
  obtain ⟨staged, -, h⟩ := bind_eq_ok h
  split at h
  · exact absurd h (by simp)
  next hlen =>
  obtain ⟨⟨ss, raw⟩, hun, hjoin⟩ := bind_eq_ok h
  obtain ⟨hn, hlt⟩ := unstage_eq_ok hl (Decidable.not_not.mp hlen) hun
  have hsplit := Layout.split_join hl hjoin
  constructor
  · rw [l.length_split hl payload, hsplit, List.length_map, length_unrepresent, hn]
  · cases hnoise : s.noise with
    | untransposed => exact rounded_of_bits_eq_zero l hl rfl payload
    | removed k =>
      rw [hnoise] at hk hjoin hsplit
      have hk16 : k ≤ 16 := Nat.le_trans hk (by decide)
      have hround : ((unrepresent s.representation ss).map (Planes.expand k)).map (Planes.round k) =
          (unrepresent s.representation ss).map (Planes.expand k) := by
        rw [List.map_map]
        exact List.map_congr_left fun v hv =>
          Planes.round_expand hk16 (unrepresent_lt s.representation (hlt k hnoise) v hv)
      rw [rounded, hsplit]
      dsimp only [Noise.bits] at hjoin ⊢
      rw [hround, hjoin]

end Body

/-! ## Packets that were read -/

namespace DataPacket

theorem of_decode {b : Bytes} {p : DataPacket} (h : decode b = .ok p) :
    p.WellFormed ∧ p.header.stages.noise.bits ≤ Noise.most ∧
      Body.rounded (.ofSensor p.header.sensor) p.header.stages.noise p.payload = p.payload := by
  obtain ⟨hheader, -, hpayload⟩ := decode_eq_ok_iff.mp h
  obtain ⟨hpacket, hitems, hbits⟩ := DataHeader.of_parse hheader
  obtain ⟨hlen, hrounded⟩ :=
    Body.rounded_of_decode (Layout.itemSize_ofSensor_pos _) hbits hpayload
  exact ⟨⟨hpacket, hitems, hlen⟩, hbits, hrounded⟩

/-- a new packet is read with its numbers, the stages and sizes of its body and its rounded payload;
and a packet that was read from any bytes, encoded under its own stages, is read again as it was, up
to the two sizes -/
theorem packet_read_back [Deflate.Encoder] :
    (∀ (serial profile packet : UInt16) (sensor : Sensor) (sensorId : SensorId) (payload : Bytes)
      (s : Stages) (p : DataPacket) (b : Bytes),
      packet ≠ 0 → ofPayload serial profile packet sensor sensorId payload = .ok p →
      s.noise.bits ≤ Noise.most → p.encode s = .ok b →
      ∃ header staged,
        Packet.decode b =
          .ok (.data ⟨header, Body.rounded (.ofSensor sensor) s.noise payload⟩) ∧
        header = ⟨serial, profile, packet, sensor, sensorId, p.header.itemCount, s,
          header.compressedSize, header.encodedSize⟩ ∧
        header.itemCount.toNat * sensor.itemSize = payload.length ∧
        Body.stage (.ofSensor sensor) s payload = .ok staged ∧
        header.compressedSize.toNat = (Body.compress s.compression staged).length ∧
        header.encodedSize.toNat = (b.drop DataHeader.size).length ∧
        b.drop DataHeader.size = Body.armor s.encoding (Body.compress s.compression staged)) ∧
    (∀ (b b' : Bytes) (p : DataPacket),
      decode b = .ok p → p.encode p.header.stages = .ok b' →
      ∃ header, decode b' = .ok ⟨header, p.payload⟩ ∧
        header = { p.header with
          compressedSize := header.compressedSize, encodedSize := header.encodedSize }) := by
  constructor
  · intro serial profile packet sensor sensorId payload s p b hpacket hp hk hb
    obtain ⟨hmod, hitems, -, -, -, hcount, hlen⟩ := ofPayload_eq_ok hp
    have hparts : p.payload = payload ∧ p.header = ⟨serial, profile, packet, sensor, sensorId,
        p.header.itemCount, .identity, 0, 0⟩ := by
      rw [ofPayload, if_neg (not_not_intro hmod), if_neg (Nat.not_lt.mpr hitems)] at hp
      rw [← Except.ok.inj hp]
      exact ⟨rfl, rfl⟩
    obtain ⟨hpayload, hheader⟩ := hparts
    have hwell : p.WellFormed := ⟨by rw [hheader]; exact hpacket, hcount ▸ hitems, hlen⟩
    obtain ⟨header, hh, ⟨staged, hstaged, hcompressed, hencoded, hbody⟩, hdecode⟩ :=
      Packet.decode_encode hwell hk hb
    have hsensor : p.header.sensor = sensor := by rw [hheader]
    have hstages : header.stages = s := by rw [hh]
    have hitems : header.itemCount = p.header.itemCount := by rw [hh]
    rw [hsensor, hpayload] at hdecode hstaged
    rw [hstages] at hstaged hcompressed hbody
    refine ⟨header, staged, hdecode, ?_, ?_, hstaged, hcompressed, hencoded, hbody⟩
    · rw [hheader] at hh
      exact hh
    · rw [hitems, hcount, Nat.div_mul_cancel (Nat.dvd_of_mod_eq_zero hmod)]
  · intro b b' p hp hb'
    obtain ⟨hwell, hbits, hrounded⟩ := of_decode hp
    obtain ⟨header, hh, -, -, -, hdecode⟩ := decode_encode hwell hbits hb'
    rw [hrounded] at hdecode
    exact ⟨header, hdecode, hh⟩

/-- one item through all four stages; and a body with bits behind the last sample of each plane, which
is not written again as it was -/
theorem loose_planes_read_back :
    let payload : Bytes := (List.range 40).map UInt8.ofNat
    let s : Stages := ⟨.gray, .removed 3, .deflate, .base64⟩
    let id := SensorId.ofText "mcoms"
    let loose : Bytes := DataHeader.render ⟨770, 12345, 1, .mcoms, id, 1,
      ⟨.gray, .removed 0, .none, .none⟩, 44, 44⟩ ++ List.replicate 44 255
    (∃ p b header, ofPayload 770 12345 1 .mcoms id payload = .ok p ∧ p.encode s = .ok b ∧
      Packet.decode b =
        .ok (.data ⟨header, Body.rounded (.ofSensor .mcoms) (.removed 3) payload⟩) ∧
      header.itemCount.toNat * 40 = payload.length) ∧
    ∃ p b header, decode loose = .ok p ∧ p.encode p.header.stages = .ok b ∧ b ≠ loose ∧
      decode b = .ok ⟨header, p.payload⟩ := by
  intro payload s id loose
  constructor
  · obtain ⟨x, hx⟩ : ∃ x, (do
        let p ← (ofPayload 770 12345 1 .mcoms id payload).toOption
        let b ← (p.encode s).toOption
        some (p, b)) = some x := Option.isSome_iff_exists.mp (by decide +kernel)
    obtain ⟨p, hp, hx⟩ := Option.bind_eq_some_iff.mp hx
    obtain ⟨b, hb, -⟩ := Option.bind_eq_some_iff.mp hx
    have hp := toOption_eq_some hp
    have hb := toOption_eq_some hb
    obtain ⟨header, -, hdecode, -, hcount, -⟩ :=
      packet_read_back.1 770 12345 1 .mcoms id payload s p b (by decide) hp (by decide) hb
    exact ⟨p, b, header, hp, hb, hdecode, hcount⟩
  · obtain ⟨x, hx⟩ : ∃ x, (do
        let p ← (decode loose).toOption
        let b ← (p.encode p.header.stages).toOption
        if b ≠ loose then some (p, b) else none) = some x :=
      Option.isSome_iff_exists.mp (by decide +kernel)
    obtain ⟨p, hp, hx⟩ := Option.bind_eq_some_iff.mp hx
    obtain ⟨b, hb, hx⟩ := Option.bind_eq_some_iff.mp hx
    split at hx
    next hne =>
      have hp := toOption_eq_some hp
      have hb := toOption_eq_some hb
      obtain ⟨header, hdecode, -⟩ := packet_read_back.2 loose b p hp hb
      exact ⟨p, b, header, hp, hb, hne, hdecode⟩
    · exact absurd hx (by simp)

end DataPacket

end Shoreline
