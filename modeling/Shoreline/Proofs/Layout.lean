import Shoreline.Proofs.Chunks
import Shoreline.Sample.Layout

/-!
# Splitting and joining payloads

To change every sample of a payload in place (`mapSamples`) is to split the payload, change the
samples and join the two streams again; and what was changed splits into the changed samples and the
same raw bytes.

* `weave_spec`                           one item is taken apart into what it was built from;
* `weave_self`                           and built again from what it was taken apart into;
* `join_map`                             joining changed samples is changing them in place;
* `split_mapSamples`                     a changed payload splits into the changed samples.
-/

namespace Shoreline.Layout

/-! ## One item -/

def sizeOf (cs : List Cell) : Nat := (cs.map Cell.size).sum

theorem sizeOf_cons (c : Cell) (cs : List Cell) : sizeOf (c :: cs) = c.size + sizeOf cs := by
  rw [sizeOf, List.map_cons, List.sum_cons]
  rfl

theorem length_itemSamples (cs : List Cell) (b : Bytes) (h : sizeOf cs ≤ b.length) :
    (itemSamples cs b).length = cs.count .sample := by
  induction cs generalizing b with
  | nil => rfl
  | cons c cs ih =>
    rw [sizeOf_cons] at h
    match c, b, h with
    | .sample, lo :: hi :: b, h =>
      rw [itemSamples, List.length_cons, List.count_cons_self, ih b]
      simp only [Cell.size, List.length_cons] at h
      omega
    | .raw, x :: b, h =>
      rw [itemSamples, List.count_cons_of_ne (by decide), ih b]
      simp only [Cell.size, List.length_cons] at h
      omega
    | .sample, [], h => simp [Cell.size] at h
    | .sample, [x], h =>
      simp only [Cell.size, List.length_singleton] at h
      omega
    | .raw, [], h => simp [Cell.size] at h

theorem length_itemRaw (cs : List Cell) (b : Bytes) (h : sizeOf cs ≤ b.length) :
    (itemRaw cs b).length = cs.count .raw := by
  induction cs generalizing b with
  | nil => rfl
  | cons c cs ih =>
    rw [sizeOf_cons] at h
    match c, b, h with
    | .sample, lo :: hi :: b, h =>
      rw [itemRaw, List.count_cons_of_ne (by decide), ih b]
      simp only [Cell.size, List.length_cons] at h
      omega
    | .raw, x :: b, h =>
      rw [itemRaw, List.length_cons, List.count_cons_self, ih b]
      simp only [Cell.size, List.length_cons] at h
      omega
    | .sample, [], h => simp [Cell.size] at h
    | .sample, [x], h =>
      simp only [Cell.size, List.length_singleton] at h
      omega
    | .raw, [], h => simp [Cell.size] at h

/-- an item is taken apart into the samples and the raw bytes it was built from -/
theorem weave_spec (cs : List Cell) (ss : List UInt16) (raw : Bytes)
    (hs : ss.length = cs.count .sample) (hr : raw.length = cs.count .raw) :
    (weave cs ss raw).length = sizeOf cs ∧ itemSamples cs (weave cs ss raw) = ss ∧
      itemRaw cs (weave cs ss raw) = raw := by
  induction cs generalizing ss raw with
  | nil =>
    obtain rfl := List.length_eq_zero_iff.mp hs
    obtain rfl := List.length_eq_zero_iff.mp hr
    exact ⟨rfl, rfl, rfl⟩
  | cons c cs ih =>
    cases c with
    | sample =>
      rw [List.count_cons_self] at hs
      rw [List.count_cons_of_ne (by decide)] at hr
      obtain ⟨s, ss, rfl⟩ := List.exists_cons_of_length_eq_add_one hs
      obtain ⟨h₁, h₂, h₃⟩ := ih ss raw (Nat.succ.inj hs) hr
      refine ⟨?_, ?_, ?_⟩
      · rw [weave, List.length_append, h₁, sizeOf_cons]
        rfl
      · show word _ _ :: itemSamples cs (weave cs ss raw) = s :: ss
        rw [word_ofWord, h₂]
      · exact h₃
    | raw =>
      rw [List.count_cons_of_ne (by decide)] at hs
      rw [List.count_cons_self] at hr
      obtain ⟨x, raw, rfl⟩ := List.exists_cons_of_length_eq_add_one hr
      obtain ⟨h₁, h₂, h₃⟩ := ih ss raw hs (Nat.succ.inj hr)
      refine ⟨?_, ?_, ?_⟩
      · rw [weave, List.length_cons, h₁, sizeOf_cons, Cell.size, Nat.add_comm]
      · rw [weave, itemSamples, h₂]
      · rw [weave, itemRaw, h₃]

theorem weave_nil (cs : List Cell) (raw : Bytes) (hs : cs.count .sample = 0)
    (hr : raw.length = cs.count .raw) : weave cs [] raw = raw := by
  induction cs generalizing raw with
  | nil => exact (List.length_eq_zero_iff.mp hr).symm ▸ rfl
  | cons c cs ih =>
    cases c with
    | sample =>
      rw [List.count_cons_self] at hs
      exact absurd hs (Nat.succ_ne_zero _)
    | raw =>
      rw [List.count_cons_of_ne (by decide)] at hs
      rw [List.count_cons_self] at hr
      obtain ⟨x, raw, rfl⟩ := List.exists_cons_of_length_eq_add_one hr
      rw [weave, ih raw hs (Nat.succ.inj hr)]

/-- an item is put together again from what it was taken apart into -/
theorem weave_self (cs : List Cell) (b : Bytes) (h : b.length = sizeOf cs) :
    weave cs (itemSamples cs b) (itemRaw cs b) = b := by
  induction cs generalizing b with
  | nil => exact (List.length_eq_zero_iff.mp h).symm
  | cons c cs ih =>
    rw [sizeOf_cons] at h
    match c, b, h with
    | .sample, lo :: hi :: b, h =>
      simp only [Cell.size, List.length_cons] at h
      rw [itemSamples, itemRaw, weave, ofWord_word, ih b (by omega)]
      rfl
    | .raw, x :: b, h =>
      simp only [Cell.size, List.length_cons] at h
      rw [itemSamples, itemRaw, weave, ih b (by omega)]
    | .sample, [], h =>
      simp only [Cell.size, List.length_nil] at h
      omega
    | .sample, [x], h =>
      simp only [Cell.size, List.length_singleton] at h
      omega
    | .raw, [], h =>
      simp only [Cell.size, List.length_nil] at h
      omega

theorem itemSize_eq (l : Layout) : l.itemSize = 2 * l.samplesPerItem + l.rawPerItem := by
  obtain ⟨cs⟩ := l
  induction cs with
  | nil => rfl
  | cons c cs ih =>
    simp only [itemSize, samplesPerItem, rawPerItem, List.map_cons, List.sum_cons] at ih ⊢
    cases c with
    | sample =>
      rw [List.count_cons_self, List.count_cons_of_ne (by decide), ih, Cell.size]
      omega
    | raw =>
      rw [List.count_cons_self, List.count_cons_of_ne (by decide), ih, Cell.size]
      omega

theorem itemSize_ofSensor_pos (c : Sensor) : 0 < (ofSensor c).itemSize := by
  rw [itemSize_ofSensor]
  exact c.itemSize_pos

/-! ## All items -/

variable (l : Layout) (payload : Bytes)

theorem items_flatten (h : 0 < l.itemSize) :
    (l.items payload).flatten ++ l.tail payload = payload := by
  rw [items, chunks_flatten l.itemSize h, tail, List.take_append_drop]

theorem length_tail : (l.tail payload).length = payload.length % l.itemSize := by
  rw [tail, List.length_drop, Nat.mod_eq_sub_div_mul]

theorem length_of_mem_items (h : 0 < l.itemSize) :
    ∀ item ∈ l.items payload, item.length = l.itemSize := by
  refine length_of_mem_chunks h (k := payload.length / l.itemSize) ?_
  rw [List.length_take, Nat.min_eq_left (Nat.div_mul_le_self _ _)]

theorem length_items (h : 0 < l.itemSize) :
    (l.items payload).length = payload.length / l.itemSize := by
  have hsum := congrArg List.length (l.items_flatten payload h)
  rw [List.length_append, length_flatten_of_length (l.length_of_mem_items payload h),
    length_tail] at hsum
  have hdiv := Nat.div_add_mod' payload.length l.itemSize
  have heq : (l.items payload).length * l.itemSize = payload.length / l.itemSize * l.itemSize := by
    omega
  exact Nat.eq_of_mul_eq_mul_right h heq

variable {l} in
theorem items_of_flatten_append (h : 0 < l.itemSize) {items : List Bytes}
    (hitems : ∀ b ∈ items, b.length = l.itemSize) {rest : Bytes}
    (hrest : rest.length < l.itemSize) :
    l.items (items.flatten ++ rest) = items ∧ l.tail (items.flatten ++ rest) = rest := by
  have hlen := length_flatten_of_length hitems
  have hwhole : (items.flatten ++ rest).length / l.itemSize * l.itemSize =
      items.flatten.length := by
    rw [List.length_append, hlen, Nat.mul_comm items.length, Nat.mul_add_div h,
      Nat.div_eq_of_lt hrest, Nat.add_zero, Nat.mul_comm]
  constructor
  · rw [Layout.items, hwhole, List.take_left]
    exact chunks_flatten_of_length h hitems
  · rw [tail, hwhole, List.drop_left]

/-- the payload with every sample changed in its place -/
def mapSamples (f : UInt16 → UInt16) : Bytes :=
  ((l.items payload).flatMap fun item =>
    weave l.cells ((itemSamples l.cells item).map f) (itemRaw l.cells item)) ++ l.tail payload

section
variable (h : 0 < l.itemSize) (f : UInt16 → UInt16)
include h

theorem weave_item {item : Bytes} (hi : item ∈ l.items payload) :
    (weave l.cells ((itemSamples l.cells item).map f) (itemRaw l.cells item)).length =
        l.itemSize ∧
      itemSamples l.cells (weave l.cells ((itemSamples l.cells item).map f)
        (itemRaw l.cells item)) = (itemSamples l.cells item).map f ∧
      itemRaw l.cells (weave l.cells ((itemSamples l.cells item).map f)
        (itemRaw l.cells item)) = itemRaw l.cells item := by
  have hlen : sizeOf l.cells ≤ item.length :=
    Nat.le_of_eq (l.length_of_mem_items payload h item hi).symm
  exact weave_spec l.cells _ _ (by rw [List.length_map, length_itemSamples _ _ hlen])
    (length_itemRaw _ _ hlen)

theorem length_mapSamples : (l.mapSamples payload f).length = payload.length := by
  rw [mapSamples, List.length_append, List.length_flatMap,
    List.map_congr_left fun item hi => (l.weave_item payload h f hi).1, List.map_const',
    List.sum_replicate_nat, l.length_items payload h, length_tail, Nat.div_add_mod']

theorem items_mapSamples :
    l.items (l.mapSamples payload f) = ((l.items payload).map fun item =>
        weave l.cells ((itemSamples l.cells item).map f) (itemRaw l.cells item)) ∧
      l.tail (l.mapSamples payload f) = l.tail payload := by
  rw [mapSamples, List.flatMap_def]
  refine items_of_flatten_append h ?_ ?_
  · intro b hb
    obtain ⟨item, hi, rfl⟩ := List.mem_map.mp hb
    exact (l.weave_item payload h f hi).1
  · rw [length_tail]
    exact Nat.mod_lt _ h

/-- a changed payload splits into the changed samples and the same raw bytes -/
theorem split_mapSamples :
    l.split (l.mapSamples payload f) = ((l.split payload).1.map f, (l.split payload).2) := by
  obtain ⟨hitems, htail⟩ := l.items_mapSamples payload h f
  have hsamples : (l.items (l.mapSamples payload f)).flatMap (itemSamples l.cells) =
      ((l.items payload).flatMap (itemSamples l.cells)).map f := by
    rw [hitems, List.flatMap_map, List.map_flatMap, List.flatMap_def,
      List.flatMap_def]
    exact congrArg _ (List.map_congr_left fun item hi => (l.weave_item payload h f hi).2.1)
  have hraw : (l.items (l.mapSamples payload f)).flatMap (itemRaw l.cells) =
      (l.items payload).flatMap (itemRaw l.cells) := by
    rw [hitems, List.flatMap_map, List.flatMap_def, List.flatMap_def]
    exact congrArg _ (List.map_congr_left fun item hi => (l.weave_item payload h f hi).2.2)
  rw [split, split, hsamples, hraw, htail]

/-- a change that changes no sample leaves the payload as it is -/
theorem mapSamples_of_fixed (hf : ∀ v, f v = v) : l.mapSamples payload f = payload := by
  have hself : ∀ item ∈ l.items payload,
      weave l.cells ((itemSamples l.cells item).map f) (itemRaw l.cells item) = item := by
    intro item hi
    rw [List.map_congr_left (g := id) fun v _ => hf v, List.map_id]
    exact weave_self l.cells item (l.length_of_mem_items payload h item hi)
  rw [mapSamples, List.flatMap_def, List.map_congr_left (g := id) hself, List.map_id,
    l.items_flatten payload h]

/-- whole items and what follows them are changed apart -/
theorem mapSamples_append {a : Bytes} (ha : l.itemSize ∣ a.length) (b : Bytes) :
    l.mapSamples (a ++ b) f = l.mapSamples a f ++ l.mapSamples b f := by
  have hlen : (a ++ b).length / l.itemSize * l.itemSize =
      a.length + b.length / l.itemSize * l.itemSize := by
    obtain ⟨q, hq⟩ := ha
    rw [List.length_append, hq, Nat.mul_add_div h, Nat.add_mul, Nat.mul_comm q]
  have hitems : l.items (a ++ b) = l.items a ++ l.items b := by
    rw [items, hlen, List.take_length_add_append, chunks_append h ha, items, items,
      Nat.div_mul_cancel ha, List.take_length]
  have htail : l.tail (a ++ b) = l.tail b := by
    rw [tail, hlen, List.drop_length_add_append, tail]
  have hnil : l.tail a = [] := by
    rw [tail, Nat.div_mul_cancel ha, List.drop_length]
  rw [mapSamples, hitems, htail, List.flatMap_append, mapSamples, hnil, List.append_nil, mapSamples,
    List.append_assoc]

/-! ## Joining -/

theorem length_samples :
    (l.split payload).1.length = (l.items payload).length * l.samplesPerItem := by
  rw [split, List.length_flatMap, List.map_congr_left fun item hi => length_itemSamples l.cells item
    (Nat.le_of_eq (l.length_of_mem_items payload h item hi).symm), List.map_const',
    List.sum_replicate_nat]
  rfl

theorem length_rawItems :
    ((l.items payload).flatMap (itemRaw l.cells)).length =
      (l.items payload).length * l.rawPerItem := by
  rw [List.length_flatMap, List.map_congr_left fun item hi => length_itemRaw l.cells item
    (Nat.le_of_eq (l.length_of_mem_items payload h item hi).symm), List.map_const',
    List.sum_replicate_nat]
  rfl

/-- the shares of the items are what was changed and kept of each item -/
theorem weaveItems_map (hs : 0 < l.samplesPerItem) :
    l.weaveItems ((l.split payload).1.map f) ((l.items payload).flatMap (itemRaw l.cells)) =
      (l.items payload).flatMap fun item =>
        weave l.cells ((itemSamples l.cells item).map f) (itemRaw l.cells item) := by
  have hlen : ∀ item ∈ l.items payload, sizeOf l.cells ≤ item.length := fun item hi =>
    Nat.le_of_eq (l.length_of_mem_items payload h item hi).symm
  have hshares : chunks l.samplesPerItem ((l.split payload).1.map f) =
      (l.items payload).map fun item => (itemSamples l.cells item).map f := by
    rw [split, List.map_flatMap, List.flatMap_def]
    refine chunks_flatten_of_length hs ?_
    intro c hc
    obtain ⟨item, hi, rfl⟩ := List.mem_map.mp hc
    rw [List.length_map]
    exact length_itemSamples _ _ (hlen item hi)
  have hraw : (if l.rawPerItem = 0 then
        ((l.items payload).map fun item => (itemSamples l.cells item).map f).map fun _ => []
      else chunks l.rawPerItem ((l.items payload).flatMap (itemRaw l.cells))) =
      (l.items payload).map (itemRaw l.cells) := by
    split
    · next hz =>
      rw [List.map_map]
      apply List.map_congr_left
      intro item hi
      have := length_itemRaw l.cells item (hlen item hi)
      exact (List.length_eq_zero_iff.mp (this.trans hz)).symm
    · next hz =>
      rw [List.flatMap_def]
      refine chunks_flatten_of_length (Nat.pos_of_ne_zero hz) ?_
      intro c hc
      obtain ⟨item, hi, rfl⟩ := List.mem_map.mp hc
      exact length_itemRaw _ _ (hlen item hi)
  rw [weaveItems, hshares, hraw, List.zipWith_map, List.zipWith_self, List.flatMap_def]

/-- joining changed samples is changing them in their places -/
theorem join_map :
    l.join ((l.split payload).1.map f) (l.split payload).2 = .ok (l.mapSamples payload f) := by
  have hn := l.length_samples payload h
  have hr := l.length_rawItems payload h
  have ht := l.length_tail payload
  have hlt := Nat.mod_lt payload.length h
  have hraw : (l.split payload).2.length =
      (l.items payload).length * l.rawPerItem + (l.tail payload).length := by
    rw [split, List.length_append, hr]
  rw [join, List.length_map, hn]
  by_cases hs : 0 < l.samplesPerItem
  · rw [Nat.mul_div_cancel _ hs, if_neg (by simp), if_neg (by rw [hraw]; omega)]
    have htake : (l.split payload).2.take ((l.items payload).length * l.rawPerItem) =
        (l.items payload).flatMap (itemRaw l.cells) := by
      rw [split, ← hr, List.take_left]
    have hdrop : (l.split payload).2.drop ((l.items payload).length * l.rawPerItem) =
        l.tail payload := by
      rw [split, ← hr, List.drop_left]
    rw [htake, hdrop, l.weaveItems_map payload h f hs, mapSamples]
  · have hz : l.samplesPerItem = 0 := by omega
    have hnil : (l.split payload).1 = [] := List.length_eq_zero_iff.mp (by rw [hn, hz, Nat.mul_zero])
    have hweave : ∀ item ∈ l.items payload,
        weave l.cells ((itemSamples l.cells item).map f) (itemRaw l.cells item) =
          itemRaw l.cells item := by
      intro item hi
      have hle : sizeOf l.cells ≤ item.length :=
        Nat.le_of_eq (l.length_of_mem_items payload h item hi).symm
      have hempty := length_itemSamples l.cells item hle
      rw [List.length_eq_zero_iff.mp (hempty.trans hz), List.map_nil]
      exact weave_nil _ _ hz (length_itemRaw _ _ hle)
    rw [hz, if_neg (by simp), if_neg (by simp), Nat.div_zero, Nat.zero_mul, hnil, List.map_nil,
      List.take_zero, List.drop_zero, weaveItems, hz, chunks_nil, List.zipWith_nil_left,
      List.flatten_nil, List.nil_append, mapSamples, List.flatMap_def,
      List.map_congr_left hweave, ← List.flatMap_def, split]

end

end Shoreline.Layout
