import Shoreline.Proofs.Reencoding

/-!
# Bodies read with every access checked

The readers of the library are total: a byte past the end counts as zero, a slice past the end is
short, and a difference below zero is zero.  Here they are written once more with indices, slices and
differences that stop instead (`Stop`).  On every input both give the same result, so what a reader
looks at before an access is enough for it, and no result rests on a byte that is not there.

* `Guarded.foldlM_lift`   a run whose steps agree under an invariant that they keep;
* `Guarded.unarmor_eq`    the ASCII step;
* `Guarded.unstage_eq`    planes, samples and raw bytes;
* `Guarded.payload_eq`    whole bodies.

Base64 and DEFLATE are not formats of this library: their readers are taken as they are.
-/

namespace Shoreline

/-- why a checked reader stops -/
inductive Stop where
  | fault (f : Fault)
  /-- an index or a slice past the end -/
  | outside
  /-- a length below zero -/
  | below
  deriving DecidableEq

namespace Guarded

/-! ## Checked accesses -/

section
variable {α β : Type}

/-- the result of a reader that is not checked -/
def lift (x : Except Fault α) : Except Stop α := x.mapError .fault

def byteAt (i : Nat) (b : Bytes) : Except Stop UInt8 :=
  if h : i < b.length then .ok b[i] else .error .outside

/-- the bytes from position `i` to before position `j` -/
def part (i j : Nat) (b : Bytes) : Except Stop Bytes :=
  if i ≤ j ∧ j ≤ b.length then .ok (slice i (j - i) b) else .error .outside

def minus (a b : Nat) : Except Stop Nat := if b ≤ a then .ok (a - b) else .error .below

theorem byteAt_getElem {i : Nat} {b : Bytes} (h : i < b.length) : byteAt i b = .ok b[i] := dif_pos h

theorem byteAt_eq {i : Nat} {b : Bytes} (h : i < b.length) : byteAt i b = .ok (b.getD i 0) := by
  rw [byteAt_getElem h, List.getD_eq_getElem?_getD, List.getElem?_eq_getElem h]
  rfl

theorem part_eq {i j : Nat} (n : Nat) {b : Bytes} (hij : i + n = j) (h : j ≤ b.length) :
    part i j b = .ok (slice i n b) := by
  rw [part, if_pos ⟨by omega, h⟩, ← hij, Nat.add_sub_cancel_left]

theorem minus_eq {a b : Nat} (h : b ≤ a) : minus a b = .ok (a - b) := if_pos h

theorem ok_bind (a : α) (g : α → Except Stop β) : (Except.ok a >>= g) = g a := rfl

theorem lift_ok (a : α) : lift (.ok a) = .ok a := rfl

theorem lift_error (f : Fault) : lift (.error f : Except Fault α) = .error (.fault f) := rfl

theorem bind_lift {x : Except Fault α} {g : α → Except Stop β} {f : α → Except Fault β}
    (h : ∀ a, x = .ok a → g a = lift (f a)) : (lift x >>= g) = lift (x >>= f) := by
  cases x with
  | error e => rfl
  | ok a => exact h a rfl

theorem bind_lift_map {x : Except Fault α} {g : α → Except Stop β} {f : α → β}
    (h : ∀ a, x = .ok a → g a = .ok (f a)) : (lift x >>= g) = lift (x.map f) := by
  cases x with
  | error e => rfl
  | ok a => exact h a rfl

theorem map_lift (x : Except Fault α) (f : α → β) : (lift x).map f = lift (x.map f) := by
  cases x <;> rfl

/-- a run whose steps agree under an invariant that they keep -/
theorem foldlM_lift {g : β → α → Except Stop β} {f : β → α → Except Fault β} (inv : β → Prop)
    (xs : List α) (hstep : ∀ s, ∀ x ∈ xs, inv s → g s x = lift (f s x))
    (hinv : ∀ s x t, inv s → f s x = .ok t → inv t) {s : β} (hs : inv s) :
    xs.foldlM g s = lift (xs.foldlM f s) ∧ ∀ t, xs.foldlM f s = .ok t → inv t := by
  induction xs generalizing s with
  | nil => exact ⟨rfl, fun t ht => Except.ok.inj ht ▸ hs⟩
  | cons x xs ih =>
    have ih := fun t ht => ih (fun s y hy => hstep s y (List.mem_cons_of_mem x hy))
      (hinv s x t hs ht)
    rw [List.foldlM_cons, List.foldlM_cons, hstep s x List.mem_cons_self hs]
    refine ⟨bind_lift fun t ht => (ih t ht).1, fun u hu => ?_⟩
    obtain ⟨t, ht, hu⟩ := bind_eq_ok hu
    exact (ih t ht).2 u hu

/-- a run whose steps do not fail under an invariant that they keep -/
theorem foldlM_ok {g : β → α → Except Stop β} {f : β → α → β} (inv : β → Prop) (xs : List α)
    (hstep : ∀ s, ∀ x ∈ xs, inv s → g s x = .ok (f s x)) (hinv : ∀ s x, inv s → inv (f s x))
    {s : β} (hs : inv s) : xs.foldlM g s = .ok (xs.foldl f s) ∧ inv (xs.foldl f s) := by
  have hfold : xs.foldlM (fun s x => (.ok (f s x) : Except Fault β)) s = .ok (xs.foldl f s) :=
    List.foldlM_pure
  obtain ⟨hrun, hend⟩ := foldlM_lift inv xs hstep
    (fun s x t hs ht => Except.ok.inj ht ▸ hinv s x hs) hs
  exact ⟨hrun.trans (congrArg lift hfold), hend _ hfold⟩

theorem mapM_ok {g : α → Except Stop β} {f : α → β} (xs : List α)
    (h : ∀ x ∈ xs, g x = .ok (f x)) : xs.mapM g = .ok (xs.map f) := by
  induction xs with
  | nil => rfl
  | cons x xs ih =>
    rw [List.mapM_cons, h x List.mem_cons_self, ih fun y hy => h y (List.mem_cons_of_mem x hy)]
    rfl

end

/-! ## The ASCII step -/

/-- puts a digit into the group begun, which has five places -/
def push (ds : List Nat) (d : Nat) : Except Stop (List Nat) :=
  if ds.length < 5 then .ok (ds ++ [d]) else .error .outside

def step (s : Base85.State) (c : UInt8) : Except Stop Base85.State :=
  if c = Base85.zeros ∧ s.digits = [] then .ok ⟨[], 0 :: 0 :: 0 :: 0 :: s.out⟩
  else if Base85.first ≤ c ∧ c ≤ Base85.last then do
    let d ← minus c.toNat 33
    let ds ← push s.digits d
    if ds.length = 5 then (lift (Base85.groupBytes ds)).map fun g => ⟨[], g.reverse ++ s.out⟩
    else .ok ⟨ds, s.out⟩
  else .error (.fault (.body (.base85Character c)))

theorem step_eq {s : Base85.State} (hs : s.digits.length < 5) (c : UInt8) :
    step s c = lift (Base85.step s c) := by
  rw [step, Base85.step]
  split
  · rfl
  split
  next hc =>
    have hfirst : 33 ≤ c.toNat := hc.1
    rw [minus_eq hfirst, ok_bind, push, if_pos hs, ok_bind]
    dsimp only
    split
    · exact map_lift _ _
    · rfl
  · rfl

/-- fewer than five digits are waiting between two characters -/
theorem length_digits_of_step {s t : Base85.State} (hs : s.digits.length < 5) {c : UInt8}
    (h : Base85.step s c = .ok t) : t.digits.length < 5 := by
  rw [Base85.step] at h
  split at h
  · rw [← Except.ok.inj h]
    exact Nat.zero_lt_succ 4
  split at h
  · dsimp only at h
    split at h
    · obtain ⟨g, -, ht⟩ := map_eq_ok h
      rw [← ht]
      exact Nat.zero_lt_succ 4
    next hfull =>
      rw [← Except.ok.inj h]
      rw [List.length_append, List.length_singleton] at hfull ⊢
      omega
  · exact absurd h (by simp)

def finish (s : Base85.State) : Except Stop Bytes :=
  match s.digits with
  | [] => .ok s.out.reverse
  | [_] => .error (.fault (.body .base85Dangling))
  | ds => do
    let missing ← minus 5 ds.length
    let g ← lift (Base85.groupBytes (ds ++ List.replicate missing 84))
    let n ← minus ds.length 1
    let kept ← part 0 n g
    .ok (s.out.reverse ++ kept)

theorem length_of_groupBytes {ds : List Nat} {g : Bytes} (h : Base85.groupBytes ds = .ok g) :
    g.length = 4 := by
  rw [Base85.groupBytes] at h
  split at h
  · rw [← Except.ok.inj h]
    rfl
  · exact absurd h (by simp)

theorem finish_eq {s : Base85.State} (hs : s.digits.length < 5) :
    finish s = lift (Base85.finish s) := by
  obtain ⟨digits, out⟩ := s
  match digits, hs with
  | [], _ => rfl
  | [_], _ => rfl
  | d :: d' :: ds, hs =>
    have hle : (d :: d' :: ds).length ≤ 5 := Nat.le_of_lt hs
    rw [finish, Base85.finish]
    dsimp only at hs ⊢
    rw [minus_eq hle, ok_bind]
    refine bind_lift_map fun g hg => ?_
    have hfour := length_of_groupBytes hg
    rw [minus_eq (by rw [List.length_cons]; omega), ok_bind,
      part_eq _ (Nat.zero_add _) (by omega), ok_bind]
    rfl

def unarmor : Encoding → Bytes → Except Stop Bytes
  | .base85, b => b.foldlM step ⟨[], []⟩ >>= finish
  | e, b => lift (Body.unarmor e b)

theorem unarmor_eq (e : Encoding) (b : Bytes) : unarmor e b = lift (Body.unarmor e b) := by
  cases e with
  | none => rfl
  | base64 => rfl
  | base85 =>
    obtain ⟨hrun, hleft⟩ := foldlM_lift (fun s : Base85.State => s.digits.length < 5) b
      (fun _ c _ hs => step_eq hs c) (fun _ _ _ hs ht => length_digits_of_step hs ht)
      (show (⟨[], []⟩ : Base85.State).digits.length < 5 from Nat.zero_lt_succ 4)
    rw [unarmor, hrun]
    exact bind_lift fun t ht => finish_eq (hleft t ht)

/-! ## Samples in items -/

/-- the samples and the raw bytes of an item, from position `i` on -/
def separate : List Cell → Nat → Bytes → Except Stop (List UInt16 × Bytes)
  | [], _, _ => .ok ([], [])
  | .sample :: cs, i, item => do
    let lo ← byteAt i item
    let hi ← byteAt (i + 1) item
    let (samples, raw) ← separate cs (i + 2) item
    .ok (word lo hi :: samples, raw)
  | .raw :: cs, i, item => do
    let x ← byteAt i item
    let (samples, raw) ← separate cs (i + 1) item
    .ok (samples, x :: raw)

theorem separate_eq (cs : List Cell) (i : Nat) (item : Bytes)
    (h : i + Layout.sizeOf cs ≤ item.length) :
    separate cs i item =
      .ok (Layout.itemSamples cs (item.drop i), Layout.itemRaw cs (item.drop i)) := by
  induction cs generalizing i with
  | nil => rfl
  | cons c cs ih =>
    rw [Layout.sizeOf_cons] at h
    cases c with
    | sample =>
      dsimp only [Cell.size] at h
      have h₀ : i < item.length := by omega
      have h₁ : i + 1 < item.length := by omega
      rw [separate, byteAt_getElem h₀, ok_bind, byteAt_getElem h₁, ok_bind, ih (i + 2) (by omega),
        ok_bind, List.drop_eq_getElem_cons h₀, List.drop_eq_getElem_cons h₁]
      rfl
    | raw =>
      dsimp only [Cell.size] at h
      have h₀ : i < item.length := by omega
      rw [separate, byteAt_getElem h₀, ok_bind, ih (i + 1) (by omega), ok_bind,
        List.drop_eq_getElem_cons h₀]
      rfl

/-- the two streams of a payload, with room made for its raw bytes first -/
def split (l : Layout) (payload : Bytes) : Except Stop (List UInt16 × Bytes) := do
  let _ ← minus payload.length (2 * l.sampleCount payload.length)
  let parts ← (l.items payload).mapM (separate l.cells 0)
  .ok (parts.flatMap Prod.fst, parts.flatMap Prod.snd ++ l.tail payload)

theorem split_eq {l : Layout} (hl : 0 < l.itemSize) (payload : Bytes) :
    split l payload = .ok (l.split payload) := by
  have hitems : ∀ item ∈ l.items payload, separate l.cells 0 item =
      .ok (Layout.itemSamples l.cells item, Layout.itemRaw l.cells item) := by
    intro item hitem
    have hsize := l.length_of_mem_items payload hl item hitem
    exact separate_eq l.cells 0 item (by rw [hsize]; exact Nat.le_of_eq (Nat.zero_add _))
  rw [split, minus_eq (l.two_mul_sampleCount_le _), ok_bind, mapM_ok _ hitems, ok_bind,
    List.flatMap_map, List.flatMap_map]
  rfl

def join (l : Layout) (samples : List UInt16) (raw : Bytes) : Except Stop Bytes := do
  let items := samples.length / l.samplesPerItem
  if items * l.samplesPerItem ≠ samples.length then
    .error (.fault (.body (.looseSamples samples.length)))
  else
    let rawPerItem ← minus l.itemSize (2 * l.samplesPerItem)
    let woven := items * rawPerItem
    if raw.length < woven then .error (.fault (.body (.rawLength raw.length items)))
    else
      let extra ← minus raw.length woven
      if 0 < l.samplesPerItem ∧ l.itemSize ≤ extra then
        .error (.fault (.body (.rawLength raw.length items)))
      else .ok (l.weaveItems samples (raw.take woven) ++ raw.drop woven)

theorem join_eq (l : Layout) (samples : List UInt16) (raw : Bytes) :
    join l samples raw = lift (l.join samples raw) := by
  have hsize := l.itemSize_eq
  have hraw : l.itemSize - 2 * l.samplesPerItem = l.rawPerItem := by omega
  rw [join, Layout.join]
  dsimp only
  split
  · rfl
  rw [minus_eq (by omega), ok_bind, hraw]
  split
  next hshort => rw [if_pos (Or.inl hshort)]; rfl
  next hshort =>
    rw [minus_eq (Nat.le_of_not_lt hshort), ok_bind]
    by_cases hlong : 0 < l.samplesPerItem ∧ l.itemSize ≤ raw.length -
        samples.length / l.samplesPerItem * l.rawPerItem
    · rw [if_pos hlong, if_pos (Or.inr hlong)]; rfl
    · rw [if_neg hlong, if_neg (not_or.mpr ⟨hshort, hlong⟩)]; rfl

/-! ## Planes -/

/-- sample `p.2` with its bit of a plane put below those that it has -/
def pushBit (plane : Bytes) (p : UInt16 × Nat) : Except Stop UInt16 := do
  let byte ← byteAt (p.2 / 8) plane
  .ok (UInt16.ofNat (2 * p.1.toNat + (byte.toNat.testBit (7 - p.2 % 8)).toNat))

def pushRow (groups : Nat) (data : Bytes) (acc : List UInt16) (row : Nat) :
    Except Stop (List UInt16) := do
  let plane ← part (row * groups) ((row + 1) * groups) data
  acc.zipIdx.mapM (pushBit plane)

theorem pushBit_eq {plane : Bytes} {p : UInt16 × Nat} (h : p.2 / 8 < plane.length) :
    pushBit plane p = .ok (UInt16.ofNat
      (2 * p.1.toNat + ((plane.flatMap Planes.bitsOf)[p.2]?.getD false).toNat)) := by
  rw [pushBit, byteAt_getElem h, ok_bind, Planes.getElem?_flatMap_bitsOf plane h, Option.getD_some]

theorem mapM_pushBit {plane : Bytes} {acc : List UInt16} (hacc : acc.length ≤ 8 * plane.length) :
    acc.zipIdx.mapM (pushBit plane) = .ok (Planes.pushRow acc plane) := by
  have hbytes : ∀ i < acc.length, i / 8 < plane.length := by
    intro i hi
    rw [Nat.div_lt_iff_lt_mul (by decide)]
    omega
  rw [mapM_ok _ fun p hp => pushBit_eq (hbytes p.2 (List.snd_lt_of_mem_zipIdx hp))]
  congr 1
  refine List.ext_getElem? fun i => ?_
  rw [Planes.pushRow, List.getElem?_zipWith, List.getElem?_map, List.getElem?_zipIdx]
  by_cases hi : i < acc.length
  · rw [List.getElem?_eq_getElem hi, Planes.getElem?_flatMap_bitsOf plane (hbytes i hi)]
    simp [Planes.getElem?_flatMap_bitsOf plane (hbytes i hi)]
  · rw [List.getElem?_eq_none (Nat.le_of_not_lt hi)]
    rfl

/-- every plane lies in the data, and adds no samples -/
theorem foldlM_pushRow {n k : Nat} {data : Bytes} (hlen : data.length = Planes.size n k) :
    (List.range (Planes.count k)).foldlM (pushRow (Planes.groups n) data) (List.replicate n 0) =
      .ok ((chunks (Planes.groups n) data).foldl Planes.pushRow (List.replicate n 0)) := by
  let plane (row : Nat) : Bytes := slice (row * Planes.groups n) (Planes.groups n) data
  have hstep : ∀ acc : List UInt16, ∀ row ∈ List.range (Planes.count k), acc.length ≤ n →
      pushRow (Planes.groups n) data acc row = .ok (Planes.pushRow acc (plane row)) := by
    intro acc row hrow hacc
    have hend : (row + 1) * Planes.groups n ≤ data.length := by
      rw [hlen]
      exact Nat.mul_le_mul_right _ (List.mem_range.mp hrow)
    have hgroups : acc.length ≤ 8 * Planes.groups n := by
      rw [Planes.groups]
      omega
    have hsize : (plane row).length = Planes.groups n :=
      length_slice _ _ _ (by rw [← Nat.succ_mul]; exact hend)
    rw [pushRow, part_eq _ (Nat.succ_mul _ _).symm hend, ok_bind,
      mapM_pushBit (by rw [hsize]; exact hgroups)]
  have hshort : ∀ (acc : List UInt16) row, acc.length ≤ n →
      (Planes.pushRow acc (plane row)).length ≤ n := by
    intro acc row hacc
    rw [Planes.pushRow, List.length_zipWith]
    omega
  obtain ⟨hrun, hleft⟩ := foldlM_ok (fun acc : List UInt16 => acc.length ≤ n) _ hstep hshort
    (Nat.le_of_eq List.length_replicate)
  refine hrun.trans (congrArg Except.ok ?_)
  by_cases hn : n = 0
  · subst hn
    have hempty : data = [] := List.length_eq_zero_iff.mp (hlen.trans (Nat.mul_zero _))
    rw [List.length_eq_zero_iff.mp (Nat.le_zero.mp hleft), hempty, chunks_nil]
    rfl
  · have hg : 0 < Planes.groups n := by
      rw [Planes.groups]
      omega
    rw [chunks_eq_map hg hlen, List.foldl_map]
    rfl

def planesSize (n k : Nat) : Except Stop Nat := do
  let planes ← minus Planes.sampleBits k
  .ok (planes * Planes.groups n)

theorem planesSize_eq {k : Nat} (hk : k ≤ Planes.sampleBits) (n : Nat) :
    planesSize n k = .ok (Planes.size n k) := by
  rw [planesSize, minus_eq hk, ok_bind]
  rfl

def untranspose (n k : Nat) (data : Bytes) : Except Stop (List UInt16) := do
  let expected ← planesSize n k
  if data.length = expected then do
    let planes ← minus Planes.sampleBits k
    (List.range planes).foldlM (pushRow (Planes.groups n) data) (List.replicate n 0)
  else .error (.fault (.body (.planeLength expected data.length)))

theorem untranspose_eq {k : Nat} (hk : k ≤ Planes.sampleBits) (n : Nat) (data : Bytes) :
    untranspose n k data = lift (Planes.untranspose n k data) := by
  rw [untranspose, planesSize_eq hk, ok_bind, Planes.untranspose]
  by_cases hlen : data.length = Planes.size n k
  · rw [if_pos hlen, if_pos hlen, minus_eq hk, ok_bind, lift_ok]
    exact foldlM_pushRow hlen
  · rw [if_neg hlen, if_neg hlen, lift_error]

/-! ## Payloads -/

def stagedSize (l : Layout) (noise : Noise) (n : Nat) : Except Stop Nat :=
  match noise with
  | .untransposed => .ok n
  | .removed k => do
    let planes ← planesSize (l.sampleCount n) k
    let raw ← minus n (2 * l.sampleCount n)
    .ok (planes + raw)

def unstage (l : Layout) (noise : Noise) (n : Nat) (staged : Bytes) :
    Except Stop (List UInt16 × Bytes) :=
  match noise with
  | .untransposed => split l staged
  | .removed k => do
    let size ← planesSize (l.sampleCount n) k
    let planes ← part 0 size staged
    let samples ← untranspose (l.sampleCount n) k planes
    let raw ← part size staged.length staged
    .ok (samples, raw)

section
variable {l : Layout} {noise : Noise} (hk : noise.bits ≤ Noise.most)
include hk

theorem stagedSize_eq (n : Nat) : stagedSize l noise n = .ok (Body.stagedSize l noise n) := by
  cases noise with
  | untransposed => rfl
  | removed k =>
    have hk : k ≤ Planes.sampleBits := Nat.le_trans hk (by decide)
    rw [stagedSize, planesSize_eq hk, ok_bind, minus_eq (l.two_mul_sampleCount_le n), ok_bind]
    rfl

theorem unstage_eq (hl : 0 < l.itemSize) {n : Nat} {staged : Bytes}
    (hlen : staged.length = Body.stagedSize l noise n) :
    unstage l noise n staged = lift (Body.unstage l noise n staged) := by
  cases noise with
  | untransposed => exact split_eq hl staged
  | removed k =>
    have hk : k ≤ Planes.sampleBits := Nat.le_trans hk (by decide)
    have hsize : Planes.size (l.sampleCount n) k ≤ staged.length := by
      rw [hlen, Body.stagedSize]
      exact Nat.le_add_right _ _
    rw [unstage, planesSize_eq hk, ok_bind, part_eq _ (Nat.zero_add _) hsize, ok_bind,
      untranspose_eq hk]
    refine bind_lift_map fun samples _ => ?_
    rw [part_eq _ (Nat.add_sub_cancel' hsize) (Nat.le_refl _), ok_bind, slice,
      List.take_of_length_le (Nat.le_of_eq List.length_drop)]

end

def payload (l : Layout) (s : Stages) (n : Nat) (body : Bytes) : Except Stop Bytes := do
  let compressed ← unarmor s.encoding body
  let expected ← stagedSize l s.noise n
  let staged ← lift (Body.decompress expected s.compression compressed)
  if staged.length ≠ expected then
    .error (.fault (.body (.stagedLength expected staged.length)))
  else
    let (samples, raw) ← unstage l s.noise n staged
    join l ((Body.unrepresent s.representation samples).map (Planes.expand s.noise.bits)) raw

theorem payload_eq {l : Layout} (hl : 0 < l.itemSize) {s : Stages}
    (hk : s.noise.bits ≤ Noise.most) (n : Nat) (body : Bytes) :
    payload l s n body = lift (Body.decode l s n body) := by
  rw [payload, unarmor_eq, stagedSize_eq hk, Body.decode, Body.unpack, bind_assoc]
  refine bind_lift fun compressed _ => ?_
  rw [ok_bind]
  refine bind_lift fun staged _ => ?_
  by_cases hlen : staged.length ≠ Body.stagedSize l s.noise n
  · rw [if_pos hlen, if_pos hlen, lift_error]
  · rw [if_neg hlen, if_neg hlen, unstage_eq hk hl (Decidable.not_not.mp hlen)]
    exact bind_lift fun p _ => join_eq l _ _

end Guarded

end Shoreline
