import Mathlib.Data.List.Induction
import Shoreline.Proofs.Slots

/-!
# The bursts of one packet in any order

Until all bursts of a framed packet have come (`Framed.Complete`), what is there of it is exactly
what has come (`Gathered`): the announced number, the pieces under their indices and the terminal
mark, each independent of the others, of the order and of repetitions.

* `Gathered.take`          one more burst;
* `Gathered.ready_iff`     the packet is ready when all have come;
* `Gathered.bytes_eq`      its pieces together are the packet then;
* `Gathered.mem_of_full`   a burst for which the packet's bytes leave no room has come before.
-/

namespace Shoreline

theorem mem_concat_of_ne {α : Type} {a b : α} {l : List α} (h : a ≠ b) : a ∈ l ++ [b] ↔ a ∈ l := by
  rw [List.mem_append, List.mem_singleton, or_iff_left h]

/-! ## The bursts of a framed packet -/

namespace Framed

/-- the payload of burst `i`, if it is a data burst -/
def piece? (f : Framed) : Nat → Option Bytes
  | 0 => none
  | i + 1 => f.pieces[i]?

/-- every burst has come at least once -/
def Complete (f : Framed) (is : List Nat) : Prop := ∀ i ≤ f.terminalIndex, i ∈ is

instance (f : Framed) (is : List Nat) : Decidable (f.Complete is) :=
  inferInstanceAs (Decidable (∀ i ≤ f.terminalIndex, i ∈ is))

variable {f : Framed} {is : List Nat} {i : Nat} {k : BurstKind}

theorem piece?_eq_some {b : Bytes} : f.piece? i = some b ↔ 1 ≤ i ∧ f.pieces[i - 1]? = some b := by
  cases i with
  | zero => exact ⟨fun h => absurd h (by simp [piece?]), fun h => absurd h.1 (by decide)⟩
  | succ i => exact ⟨fun h => ⟨Nat.succ_pos i, h⟩, fun h => h.2⟩

theorem le_count_of_piece? {b : Bytes} (h : f.piece? i = some b) : i ≤ f.count := by
  obtain ⟨-, h⟩ := piece?_eq_some.mp h
  have hlt : i - 1 < f.count := (List.getElem?_eq_some_iff.mp h).1
  omega

theorem exists_piece? (h₁ : 1 ≤ i) (h₂ : i ≤ f.count) : ∃ b, f.piece? i = some b :=
  ⟨_, piece?_eq_some.mpr ⟨h₁, List.getElem?_eq_getElem (show i - 1 < f.count by omega)⟩⟩

theorem le_of_kind? (h : f.kind? i = some k) : i ≤ f.terminalIndex := by
  rcases kind?_cases h with ⟨rfl, -⟩ | ⟨j, b, rfl, hb, -⟩ | ⟨rfl, -⟩
  · exact Nat.zero_le _
  · have hlt : j < f.count := (List.getElem?_eq_some_iff.mp hb).1
    rw [terminalIndex]
    omega
  · exact Nat.le_refl _

theorem kind?_eq_terminal (h : f.kind? i = some k) : k = .terminal ↔ i = f.terminalIndex := by
  rcases kind?_cases h with ⟨rfl, rfl⟩ | ⟨j, b, rfl, hb, rfl⟩ | ⟨rfl, rfl⟩
  · exact ⟨fun h => absurd h (by simp), fun h => absurd h (Nat.succ_ne_zero _).symm⟩
  · have hlt : j < f.count := (List.getElem?_eq_some_iff.mp hb).1
    refine ⟨fun h => absurd h (by simp), fun h => ?_⟩
    rw [terminalIndex] at h
    omega
  · exact ⟨fun _ => rfl, fun _ => rfl⟩

theorem terminalIndex_ne_zero (f : Framed) : f.terminalIndex ≠ 0 := Nat.succ_ne_zero _

theorem Complete.append (h : f.Complete is) (js : List Nat) : f.Complete (is ++ js) :=
  fun i hi => List.mem_append_left _ (h i hi)

/-- a burst that has come before completes nothing -/
theorem complete_append_of_mem (h : i ∈ is) : f.Complete (is ++ [i]) ↔ f.Complete is := by
  refine ⟨fun hall j hj => ?_, fun hall => hall.append _⟩
  rcases List.mem_append.mp (hall j hj) with hmem | hmem
  · exact hmem
  · rwa [List.mem_singleton.mp hmem]

/-- the burst that completes a packet -/
theorem exists_completing {is : List (Nat × Nat)} (h : f.Complete (is.map Prod.fst)) :
    ∃ before x after, is = before ++ x :: after ∧ ¬ f.Complete (before.map Prod.fst) ∧
      f.Complete ((before ++ [x]).map Prod.fst) := by
  induction is using List.reverseRecOn with
  | nil => exact absurd (h 0 (Nat.zero_le _)) (by simp)
  | append_singleton is x ih =>
    by_cases hall : f.Complete (is.map Prod.fst)
    · obtain ⟨before, y, after, rfl, hnot, hy⟩ := ih hall
      exact ⟨before, y, after ++ [x], by rw [List.append_assoc, List.cons_append], hnot, hy⟩
    · exact ⟨is, x, [], rfl, hall, h⟩

end Framed

/-! ## What is there of the packet -/

namespace PacketAssembly

/-- an announcement that agrees with what is there changes nothing else -/
theorem announce_of_agrees {p : PacketAssembly} {c : UInt16}
    (ha : p.announced = none ∨ p.announced = some c)
    (hp : ∀ i b, p.pieces.get? i = some b → i ≤ c) :
    p.announce c = { p with announced := some c } := by
  have hany : p.announced.any (· != c) = false := by
    rcases ha with ha | ha <;> rw [ha]
    · rfl
    · exact bne_self_eq_false c
  rw [announce, hany, if_neg Bool.false_ne_true,
    Keyed.filter_of_forall fun i b hb => decide_eq_true (hp i b hb)]

/-- the packet is open, and exactly the bursts with these indices have come -/
structure Gathered (f : Framed) (is : List Nat) (p : PacketAssembly) : Prop where
  held : p.held = false
  announced : p.announced = if 0 ∈ is then some (UInt16.ofNat f.count) else none
  piece : ∀ i : UInt16, p.pieces.get? i = if i.toNat ∈ is then f.piece? i.toNat else none
  terminalSeen : p.terminalSeen = decide (f.terminalIndex ∈ is)

variable {f : Framed} {is : List Nat} {i : Nat} {k : BurstKind} {p : PacketAssembly}

theorem gathered_new (f : Framed) : Gathered f [] .new :=
  ⟨rfl, rfl, fun _ => rfl, rfl⟩

/-- only which bursts have come counts -/
theorem Gathered.congr {js : List Nat} (h : Gathered f is p) (hmem : ∀ i, i ∈ js ↔ i ∈ is) :
    Gathered f js p := by
  refine ⟨h.held, ?_, fun i => ?_, ?_⟩
  · simp only [hmem, h.announced]
  · simp only [hmem, h.piece]
  · simp only [hmem, h.terminalSeen]

theorem Gathered.get?_eq_some (h : Gathered f is p) {i : UInt16} {b : Bytes}
    (hb : p.pieces.get? i = some b) : i.toNat ∈ is ∧ f.piece? i.toNat = some b := by
  rw [h.piece] at hb
  split at hb
  · next hmem => exact ⟨hmem, hb⟩
  · exact absurd hb (by simp)

section
variable (hcount : f.count ≤ mostBursts)
include hcount

theorem toNat_index (hi : i ≤ f.count) : (UInt16.ofNat i).toNat = i := by
  have : f.count ≤ 998 := hcount
  rw [UInt16.toNat_ofNat']
  omega

theorem toNat_count : (UInt16.ofNat f.count).toNat = f.count := toNat_index hcount (Nat.le_refl _)

theorem Gathered.le_count (h : Gathered f is p) {i : UInt16} {b : Bytes}
    (hb : p.pieces.get? i = some b) : i ≤ UInt16.ofNat f.count := by
  rw [UInt16.le_iff_toNat_le, toNat_count hcount]
  exact Framed.le_count_of_piece? (h.get?_eq_some hb).2

theorem Gathered.refuses_eq (h : Gathered f is p) (hk : f.kind? i = some k) :
    p.refuses k = false := by
  rcases Framed.kind?_cases hk with ⟨rfl, rfl⟩ | ⟨j, b, rfl, hb, rfl⟩ | ⟨rfl, rfl⟩
  · rfl
  · have hj : j < f.count := (List.getElem?_eq_some_iff.mp hb).1
    rw [refuses, h.announced]
    split
    · rw [Option.any_some, decide_eq_false_iff_not, UInt16.lt_iff_toNat_lt, toNat_count hcount,
        toNat_index hcount hj]
      omega
    · rfl
  · rfl

theorem Gathered.announce (h : Gathered f is p) :
    Gathered f (is ++ [0]) (p.announce (UInt16.ofNat f.count)) := by
  have hannounced : p.announced = none ∨ p.announced = some (UInt16.ofNat f.count) := by
    rw [h.announced]
    split
    · exact Or.inr rfl
    · exact Or.inl rfl
  rw [announce_of_agrees hannounced fun i b hb => h.le_count hcount hb]
  refine ⟨h.held, (if_pos List.mem_concat_self).symm, fun j => ?_, ?_⟩
  · rw [h.piece]
    by_cases hj : j.toNat = 0
    · rw [hj, Framed.piece?, ite_self, ite_self]
    · simp only [mem_concat_of_ne hj]
  · simp only [mem_concat_of_ne f.terminalIndex_ne_zero]
    exact h.terminalSeen

theorem Gathered.data (h : Gathered f is p) {j : Nat} {b : Bytes} (hb : f.pieces[j]? = some b) :
    Gathered f (is ++ [j + 1]) { p with pieces := p.pieces.insert (UInt16.ofNat (j + 1)) b } := by
  have hj : j < f.count := (List.getElem?_eq_some_iff.mp hb).1
  have hindex := toNat_index hcount (Nat.succ_le_of_lt hj)
  refine ⟨h.held, ?_, fun m => ?_, ?_⟩
  · simp only [mem_concat_of_ne (Nat.succ_ne_zero j).symm]
    exact h.announced
  · dsimp only
    by_cases hm : m = UInt16.ofNat (j + 1)
    · rw [hm, Keyed.get?_insert, hindex, if_pos List.mem_concat_self]
      exact hb.symm
    · have hm' : m.toNat ≠ j + 1 := fun he => hm (UInt16.toNat_inj.mp (he.trans hindex.symm))
      rw [Keyed.get?_insert_ne _ hm, h.piece]
      simp only [mem_concat_of_ne hm']
  · have hne : f.terminalIndex ≠ j + 1 := by
      rw [Framed.terminalIndex]
      omega
    simp only [mem_concat_of_ne hne]
    exact h.terminalSeen

omit hcount in
theorem Gathered.terminal (h : Gathered f is p) :
    Gathered f (is ++ [f.terminalIndex]) { p with terminalSeen := true } := by
  refine ⟨h.held, ?_, fun m => ?_, (decide_eq_true List.mem_concat_self).symm⟩
  · simp only [mem_concat_of_ne f.terminalIndex_ne_zero.symm]
    exact h.announced
  · dsimp only
    rw [h.piece]
    by_cases hm : m.toNat = f.terminalIndex
    · have hnone : f.piece? m.toNat = none := by
        rw [hm, Framed.terminalIndex, Framed.piece?]
        exact List.getElem?_eq_none (Nat.le_refl _)
      rw [hnone, ite_self, ite_self]
    · simp only [mem_concat_of_ne hm]

/-- one more burst -/
theorem Gathered.take (h : Gathered f is p) (hk : f.kind? i = some k) :
    Gathered f (is ++ [i]) (p.take k) := by
  rcases Framed.kind?_cases hk with ⟨rfl, rfl⟩ | ⟨j, b, rfl, hb, rfl⟩ | ⟨rfl, rfl⟩
  · exact h.announce hcount
  · exact h.data hcount hb
  · exact h.terminal

/-- the packet is ready once every burst has come -/
theorem Gathered.ready_iff (h : Gathered f is p) : p.ready = true ↔ f.Complete is := by
  have hcontains (i : UInt16) (h₁ : 1 ≤ i.toNat) (h₂ : i.toNat ≤ f.count) :
      p.pieces.contains i = true ↔ i.toNat ∈ is := by
    rw [Keyed.contains, h.piece]
    obtain ⟨b, hb⟩ := Framed.exists_piece? h₁ h₂
    rw [hb]
    split
    · next hmem => exact iff_of_true rfl hmem
    · next hmem => exact iff_of_false Bool.false_ne_true hmem
  rw [ready, h.held, Bool.not_false, Bool.true_and, Bool.and_eq_true, h.terminalSeen,
    decide_eq_true_iff]
  constructor
  · rintro ⟨hterminal, hall⟩ i hi
    obtain ⟨c, hc⟩ := announced_of_hasAll hall
    have hzero : 0 ∈ is := by
      by_contra hnot
      rw [h.announced, if_neg hnot] at hc
      exact absurd hc (by simp)
    rw [h.announced, if_pos hzero] at hc
    obtain rfl := Option.some.inj hc
    by_cases h₀ : i = 0
    · rwa [h₀]
    by_cases h₁ : i = f.terminalIndex
    · rwa [h₁]
    have hle : i ≤ f.count := by
      rw [Framed.terminalIndex] at hi h₁
      omega
    have hindex := toNat_index hcount hle
    have hpiece := (hasAll_iff (h.announced.trans (if_pos hzero))).mp hall (UInt16.ofNat i)
      (by rw [hindex]; omega)
      (by rw [UInt16.le_iff_toNat_le, hindex, toNat_count hcount]; exact hle)
    have := (hcontains _ (by rw [hindex]; omega) (by rw [hindex]; exact hle)).mp hpiece
    rwa [hindex] at this
  · intro hall
    have hzero := hall 0 (Nat.zero_le _)
    refine ⟨hall _ (Nat.le_refl _), (hasAll_iff (h.announced.trans (if_pos hzero))).mpr ?_⟩
    intro i h₁ h₂
    rw [UInt16.le_iff_toNat_le, toNat_count hcount] at h₂
    exact (hcontains i h₁ h₂).mpr (hall _ (Nat.le_succ_of_le h₂))

/-- all pieces together are the packet -/
theorem Gathered.bytes_eq (h : Gathered f is p) (hall : f.Complete is) : p.bytes = f.packet := by
  have hmost : f.count ≤ 998 := hcount
  have hlen : f.pieces.length < 65536 := Nat.lt_of_le_of_lt hmost (by decide)
  rw [bytes, Framed.packet, p.pieces.values_eq hlen fun i b => ?_]
  rw [← Framed.piece?_eq_some]
  refine ⟨fun hb => (h.get?_eq_some hb).2, fun hb => ?_⟩
  rw [h.piece, if_pos (hall _ (Nat.le_succ_of_le (Framed.le_count_of_piece? hb))), hb]

end

theorem Gathered.buffered_le (h : Gathered f is p) : p.buffered ≤ f.packet.length :=
  ProfileAssembly.buffered_le_of_pieces fun _ _ hb =>
    Framed.piece?_eq_some.mp (h.get?_eq_some hb).2

/-- a burst that the packet's bytes leave no room for has come before -/
theorem Gathered.mem_of_full (hcount : f.count ≤ mostBursts) (h : Gathered f is p)
    (hk : f.kind? i = some k) {key : PacketKey}
    (hfull : f.packet.length < p.buffered + (Burst.payload ⟨key, k⟩).length) : i ∈ is := by
  have hle := h.buffered_le
  rcases Framed.kind?_cases hk with ⟨rfl, rfl⟩ | ⟨j, b, rfl, hb, rfl⟩ | ⟨rfl, rfl⟩
  · exact absurd hfull (Nat.not_lt.mpr hle)
  · by_contra hnot
    have hj : j < f.count := (List.getElem?_eq_some_iff.mp hb).1
    have hmissing : p.pieces.contains (UInt16.ofNat (j + 1)) = false := by
      rw [Keyed.contains, h.piece, toNat_index hcount (Nat.succ_le_of_lt hj), if_neg hnot]
      rfl
    have hgrown := buffered_data b hmissing
    have hle' := (h.take hcount hk).buffered_le
    have hpayload : (Burst.payload ⟨key, .data (UInt16.ofNat (j + 1)) b⟩).length = b.length := rfl
    omega
  · exact absurd hfull (Nat.not_lt.mpr hle)

end PacketAssembly

end Shoreline
