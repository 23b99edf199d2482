import Mathlib.Algebra.Order.BigOperators.Group.Finset
import Mathlib.Algebra.Order.Group.Nat
import Mathlib.Data.List.Sort
import Shoreline.Bytes
import Shoreline.Keyed

/-!
# More laws of maps with ascending keys

A map is decided by its look-ups: its entries are the pairs that look-up gives, and in one order only.

* `mem_entries_iff`   the entries are what look-up gives;
* `entries_eq`        a list of entries with the same look-ups and ascending keys is the map's;
* `values_eq`         the values of a map whose look-ups are those of a list, counted from 1;
* `get?_filter`       look-up in a filtered map;
* `get?_map`          and in one with other values;
* `sum_insert`        a sum over the values after an insertion;
* `sum_values_eq`, `sum_values_le`   a sum over the values as one over a range of keys.
-/

namespace Shoreline.Keyed
open Ranked
variable {κ α : Type} [Ranked κ]

/-! ## Entries and look-up -/

theorem find?_of_mem {l : List (κ × α)} (h : l.Pairwise fun a b => rank a.1 < rank b.1) {k : κ}
    {a : α} (hm : (k, a) ∈ l) : find? k l = some a := by
  induction l with
  | nil => exact absurd hm (by simp)
  | cons e l ih =>
    obtain ⟨k', a'⟩ := e
    obtain ⟨h₁, h₂⟩ := List.pairwise_cons.mp h
    rw [find?]
    rcases List.mem_cons.mp hm with he | hm
    · obtain ⟨rfl, rfl⟩ := Prod.mk.inj he
      rw [if_pos rfl]
    · have : rank k' < rank k := h₁ _ hm
      rw [if_neg (by omega), ih h₂ hm]

theorem mem_of_find? {l : List (κ × α)} {k : κ} {a : α} (h : find? k l = some a) :
    (k, a) ∈ l := by
  induction l with
  | nil => exact absurd h (by simp [find?])
  | cons e l ih =>
    obtain ⟨k', a'⟩ := e
    rw [find?] at h
    split at h
    · next hr =>
      rw [eq_of_rank hr, Option.some.inj h]
      exact List.mem_cons_self
    · exact List.mem_cons_of_mem _ (ih h)

theorem mem_entries_iff (m : Keyed κ α) (k : κ) (a : α) :
    (k, a) ∈ m.entries ↔ m.get? k = some a :=
  ⟨find?_of_mem m.ascending, mem_of_find?⟩

theorem mem_keys_iff (m : Keyed κ α) (k : κ) : k ∈ m.keys ↔ m.contains k = true := by
  rw [keys, List.mem_map, contains, Option.isSome_iff_exists]
  constructor
  · rintro ⟨⟨k', a⟩, he, rfl⟩
    exact ⟨a, (m.mem_entries_iff k' a).mp he⟩
  · rintro ⟨a, ha⟩
    exact ⟨(k, a), (m.mem_entries_iff k a).mpr ha, rfl⟩

theorem nodup_keys (m : Keyed κ α) : m.keys.Nodup := by
  refine List.pairwise_map.mpr (m.ascending.imp fun hlt he => ?_)
  rw [he] at hlt
  exact Nat.lt_irrefl _ hlt

theorem contains_iff (m : Keyed κ α) (k : κ) : m.contains k = true ↔ ∃ a, m.get? k = some a :=
  Option.isSome_iff_exists

theorem contains_insert (m : Keyed κ α) (k : κ) (a : α) : (m.insert k a).contains k = true := by
  rw [contains, get?_insert]
  rfl

theorem contains_insert_ne (m : Keyed κ α) {k k' : κ} (h : k' ≠ k) (a : α) :
    (m.insert k a).contains k' = m.contains k' := by
  rw [contains, get?_insert_ne m h, contains]

theorem contains_insert_of_contains {m : Keyed κ α} {k k' : κ} (a : α)
    (h : m.contains k' = true) : (m.insert k a).contains k' = true := by
  by_cases hk : k' = k
  · rw [hk, contains_insert]
  · rw [contains_insert_ne m hk, h]

/-- a list in ascending order is decided by its members -/
theorem eq_of_ascending {β : Type} {f : β → Nat} {l l' : List β}
    (hl : l.Pairwise fun a b => f a < f b) (hl' : l'.Pairwise fun a b => f a < f b)
    (h : ∀ b, b ∈ l ↔ b ∈ l') : l = l' := by
  have hanti : Std.Antisymm fun a b : β => f a < f b := ⟨fun a b h₁ h₂ => by omega⟩
  have hirrefl : Std.Irrefl fun a b : β => f a < f b := ⟨fun a h₁ => by omega⟩
  exact List.Pairwise.eq_of_mem_iff hl hl' h

/-- a list with ascending keys and the same look-ups is the list of entries -/
theorem entries_eq (m : Keyed κ α) {l : List (κ × α)}
    (hl : l.Pairwise fun a b => rank a.1 < rank b.1)
    (h : ∀ k a, (k, a) ∈ l ↔ m.get? k = some a) : m.entries = l := by
  refine eq_of_ascending (f := fun e => rank e.1) m.ascending hl fun ⟨k, a⟩ => ?_
  rw [mem_entries_iff, h]

theorem values_eq (m : Keyed UInt16 α) {l : List α} (hlen : l.length < 65536)
    (h : ∀ (k : UInt16) a, m.get? k = some a ↔ 1 ≤ k.toNat ∧ l[k.toNat - 1]? = some a) :
    m.values = l := by
  have hindex : ∀ i, i < l.length → (UInt16.ofNat (i + 1)).toNat = i + 1 := by
    intro i hi
    rw [UInt16.toNat_ofNat']
    omega
  have hentries : m.entries = l.mapIdx fun i a => (UInt16.ofNat (i + 1), a) := by
    refine m.entries_eq ?_ fun k a => ?_
    · rw [List.pairwise_iff_getElem]
      intro i j hi hj hij
      rw [List.length_mapIdx] at hi hj
      rw [List.getElem_mapIdx, List.getElem_mapIdx]
      show (UInt16.ofNat (i + 1)).toNat < (UInt16.ofNat (j + 1)).toNat
      rw [hindex i hi, hindex j hj]
      omega
    · rw [h, List.mem_mapIdx]
      constructor
      · rintro ⟨i, hi, he⟩
        obtain ⟨rfl, rfl⟩ := Prod.mk.inj he
        rw [hindex i hi, Nat.add_sub_cancel, List.getElem?_eq_getElem hi]
        exact ⟨Nat.succ_pos i, rfl⟩
      · rintro ⟨hpos, ha⟩
        obtain ⟨hi, rfl⟩ := List.getElem?_eq_some_iff.mp ha
        refine ⟨k.toNat - 1, hi, ?_⟩
        rw [show k.toNat - 1 + 1 = k.toNat by omega, UInt16.ofNat_toNat]
  rw [values, hentries]
  apply List.ext_getElem (by simp)
  intro i _ _
  rw [List.getElem_map, List.getElem_mapIdx]

/-! ## Filtering -/

theorem get?_filter (m : Keyed κ α) (p : κ → α → Bool) (k : κ) :
    (m.filter p).get? k = (m.get? k).filter (p k) := by
  apply Option.ext
  intro a
  rw [← mem_entries_iff, Option.filter_eq_some_iff, ← mem_entries_iff]
  exact List.mem_filter

theorem filter_of_forall {m : Keyed κ α} {p : κ → α → Bool}
    (h : ∀ k a, m.get? k = some a → p k a = true) : m.filter p = m := by
  have he : m.entries.filter (fun e => p e.1 e.2) = m.entries :=
    List.filter_eq_self.mpr fun ⟨k, a⟩ hm => h k a ((m.mem_entries_iff k a).mp hm)
  obtain ⟨l, hl⟩ := m
  unfold filter
  congr 1

theorem filter_of_forall_not {m : Keyed κ α} {p : κ → α → Bool}
    (h : ∀ k a, m.get? k = some a → p k a = false) : (m.filter p).entries = [] := by
  refine List.filter_eq_nil_iff.mpr ?_
  rintro ⟨k, a⟩ hm
  rw [h k a ((m.mem_entries_iff k a).mp hm)]
  exact Bool.false_ne_true

/-! ## Other values -/

theorem get?_map {β : Type} (m : Keyed κ α) (f : α → β) (k : κ) :
    (m.map f).get? k = (m.get? k).map f := by
  have hfind (l : List (κ × α)) : find? k (l.map fun e => (e.1, f e.2)) = (find? k l).map f := by
    induction l with
    | nil => rfl
    | cons e l ih =>
      rw [List.map_cons, find?, find?]
      split
      · rfl
      · exact ih
  exact hfind m.entries

theorem values_map {β : Type} (m : Keyed κ α) (f : α → β) : (m.map f).values = m.values.map f := by
  rw [values, map, List.map_map, values, List.map_map]
  rfl

/-! ## Sums -/

theorem find?_eq_none_of_lt {l : List (κ × α)} {k : κ} (h : ∀ e ∈ l, rank k < rank e.1) :
    find? k l = none := by
  cases hf : find? k l with
  | none => rfl
  | some a => exact absurd (h _ (mem_of_find? hf)) (Nat.lt_irrefl _)

theorem sum_put (f : α → Nat) (k : κ) (a : α) {l : List (κ × α)}
    (h : l.Pairwise fun a b => rank a.1 < rank b.1) :
    ((put k a l).map fun e => f e.2).sum + ((find? k l).map f).getD 0 =
      (l.map fun e => f e.2).sum + f a := by
  induction l with
  | nil => simp [put, find?]
  | cons e l ih =>
    obtain ⟨k', a'⟩ := e
    obtain ⟨h₁, h₂⟩ := List.pairwise_cons.mp h
    rw [put]
    split
    · next hlt =>
      have hnone : find? k ((k', a') :: l) = none := by
        refine find?_eq_none_of_lt fun e he => ?_
        rcases List.mem_cons.mp he with rfl | he
        · exact hlt
        · exact Nat.lt_trans hlt (h₁ e he)
      rw [hnone, List.map_cons, List.sum_cons, Option.map_none, Option.getD_none, Nat.add_zero,
        Nat.add_comm]
    · split
      · next heq =>
        rw [find?, if_pos heq, List.map_cons, List.map_cons, List.sum_cons, List.sum_cons]
        simp only [Option.map_some, Option.getD_some]
        omega
      · next hne =>
        have := ih h₂
        rw [find?, if_neg hne, List.map_cons, List.map_cons, List.sum_cons, List.sum_cons]
        simp only at this ⊢
        omega

theorem sum_insert (m : Keyed κ α) (f : α → Nat) (k : κ) (a : α) :
    ((m.insert k a).values.map f).sum + ((m.get? k).map f).getD 0 =
      (m.values.map f).sum + f a := by
  have := sum_put f k a m.ascending
  simp only [values, List.map_map]
  exact this

/-- the ranks of the keys -/
def ranks (m : Keyed κ α) : Finset Nat := (m.entries.map fun e => rank e.1).toFinset

theorem mem_ranks {m : Keyed κ α} {j : Nat} :
    j ∈ m.ranks ↔ ∃ k a, m.get? k = some a ∧ rank k = j := by
  rw [ranks, List.mem_toFinset, List.mem_map]
  constructor
  · rintro ⟨⟨k, a⟩, he, rfl⟩
    exact ⟨k, a, (m.mem_entries_iff k a).mp he, rfl⟩
  · rintro ⟨k, a, ha, rfl⟩
    exact ⟨(k, a), (m.mem_entries_iff k a).mpr ha, rfl⟩

theorem sum_entries (m : Keyed κ α) (g : Nat → Nat) :
    (m.entries.map fun e => g (rank e.1)).sum = ∑ j ∈ m.ranks, g j := by
  have hnodup : (m.entries.map fun e => rank e.1).Nodup :=
    List.pairwise_map.mpr (m.ascending.imp fun hlt => Nat.ne_of_lt hlt)
  rw [ranks, List.sum_toFinset g hnodup, List.map_map]
  rfl

/-- the values are given one by one by the ranks of their keys, which are below `n` -/
theorem sum_values_eq (m : Keyed κ α) (f : α → Nat) (g : Nat → Nat) (n : Nat)
    (h : ∀ k a, m.get? k = some a → rank k < n ∧ f a = g (rank k))
    (hnone : ∀ j < n, (∀ k, rank k = j → m.get? k = none) → g j = 0) :
    (m.values.map f).sum = ∑ j ∈ Finset.range n, g j := by
  have hentries : (m.values.map f).sum = (m.entries.map fun e => g (rank e.1)).sum := by
    rw [values, List.map_map]
    refine congrArg List.sum (List.map_congr_left fun ⟨k, a⟩ he => ?_)
    exact (h k a ((m.mem_entries_iff k a).mp he)).2
  rw [hentries, sum_entries]
  refine Finset.sum_subset (fun j hj => ?_) fun j hj hnot => ?_
  · obtain ⟨k, a, ha, rfl⟩ := mem_ranks.mp hj
    exact Finset.mem_range.mpr (h k a ha).1
  · refine hnone j (Finset.mem_range.mp hj) fun k hk => ?_
    exact Option.eq_none_iff_forall_ne_some.mpr fun a ha => hnot (mem_ranks.mpr ⟨k, a, ha, hk⟩)

/-- the values are bounded one by one, and their keys are of different ranks below `n` -/
theorem sum_values_le (m : Keyed κ α) (f : α → Nat) (g : Nat → Nat) (n : Nat)
    (h : ∀ k a, m.get? k = some a → rank k < n ∧ f a ≤ g (rank k)) :
    (m.values.map f).sum ≤ ((List.range n).map g).sum := by
  have hentries : (m.values.map f).sum ≤ (m.entries.map fun e => g (rank e.1)).sum := by
    rw [values, List.map_map]
    refine List.sum_le_sum fun ⟨k, a⟩ he => ?_
    exact (h k a ((m.mem_entries_iff k a).mp he)).2
  have hranks : m.ranks ⊆ Finset.range n := by
    intro j hj
    obtain ⟨k, a, ha, rfl⟩ := mem_ranks.mp hj
    exact Finset.mem_range.mpr (h k a ha).1
  rw [sum_entries] at hentries
  exact Nat.le_trans hentries (Finset.sum_le_sum_of_subset hranks)

end Shoreline.Keyed
