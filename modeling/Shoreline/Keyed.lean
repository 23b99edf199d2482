/-!
# Maps with ascending keys

A list of entries, the keys ascending by their rank.  `insert` replaces the entry of a key that is
there already, in one pass, so that the laws of look-up need no hypothesis.

* `get?_insert`, `get?_insert_ne`   look-up after an insertion;
* `keys`, `values`                  in ascending order of the keys.
-/

namespace Shoreline

/-- types whose values are told apart and ordered by a number -/
class Ranked (κ : Type) where
  rank : κ → Nat
  eq_of_rank : ∀ {a b : κ}, rank a = rank b → a = b

instance : Ranked UInt16 where
  rank := UInt16.toNat
  eq_of_rank h := UInt16.toNat_inj.mp h

structure Keyed (κ α : Type) [Ranked κ] where
  entries : List (κ × α)
  ascending : entries.Pairwise fun a b => Ranked.rank a.1 < Ranked.rank b.1

namespace Keyed
open Ranked
variable {κ α : Type} [Ranked κ]

/-! ## Lists of entries -/

def find? (k : κ) : List (κ × α) → Option α
  | [] => none
  | (k', a) :: l => if rank k = rank k' then some a else find? k l

/-- puts an entry in its place, instead of one with the same key -/
def put (k : κ) (a : α) : List (κ × α) → List (κ × α)
  | [] => [(k, a)]
  | (k', a') :: l =>
    if rank k < rank k' then (k, a) :: (k', a') :: l
    else if rank k = rank k' then (k, a) :: l
    else (k', a') :: put k a l

theorem mem_put {k : κ} {a : α} {e : κ × α} {l : List (κ × α)} (h : e ∈ put k a l) :
    e = (k, a) ∨ e ∈ l := by
  induction l with
  | nil => exact Or.inl (List.mem_singleton.mp h)
  | cons x l ih =>
    obtain ⟨k', a'⟩ := x
    rw [put] at h
    split at h
    · rcases List.mem_cons.mp h with h | h
      · exact Or.inl h
      · exact Or.inr h
    · split at h
      · rcases List.mem_cons.mp h with h | h
        · exact Or.inl h
        · exact Or.inr (List.mem_cons_of_mem _ h)
      · rcases List.mem_cons.mp h with h | h
        · exact Or.inr (h ▸ List.mem_cons_self)
        · rcases ih h with h | h
          · exact Or.inl h
          · exact Or.inr (List.mem_cons_of_mem _ h)

theorem ascending_put {l : List (κ × α)} (k : κ) (a : α)
    (h : l.Pairwise fun a b => rank a.1 < rank b.1) :
    (put k a l).Pairwise fun a b => rank a.1 < rank b.1 := by
  induction l with
  | nil => exact List.pairwise_singleton _ _
  | cons x l ih =>
    obtain ⟨k', a'⟩ := x
    obtain ⟨h₁, h₂⟩ := List.pairwise_cons.mp h
    rw [put]
    split
    · next hk =>
      refine List.pairwise_cons.mpr ⟨fun e he => ?_, h⟩
      rcases List.mem_cons.mp he with rfl | he
      · exact hk
      · exact Nat.lt_trans hk (h₁ e he)
    · split
      · next hk =>
        refine List.pairwise_cons.mpr ⟨fun e he => ?_, h₂⟩
        have := h₁ e he
        simp only at this ⊢
        omega
      · next hk hk' =>
        refine List.pairwise_cons.mpr ⟨fun e he => ?_, ih h₂⟩
        rcases mem_put he with rfl | he
        · simp only
          omega
        · exact h₁ e he

theorem find?_put (k : κ) (a : α) (l : List (κ × α)) : find? k (put k a l) = some a := by
  induction l with
  | nil => simp [put, find?]
  | cons x l ih =>
    obtain ⟨k', a'⟩ := x
    rw [put]
    split
    · simp [find?]
    · split
      · simp [find?]
      · next h => rw [find?, if_neg h, ih]

theorem find?_put_ne {k k' : κ} (h : k' ≠ k) (a : α) (l : List (κ × α)) :
    find? k' (put k a l) = find? k' l := by
  have hr : rank k' ≠ rank k := fun e => h (eq_of_rank e)
  induction l with
  | nil => simp [put, find?, hr]
  | cons x l ih =>
    obtain ⟨k'', a''⟩ := x
    rw [put]
    split
    · rw [find?, if_neg hr]
    · split
      · next he => rw [find?, find?, if_neg hr, if_neg (he ▸ hr)]
      · rw [find?, find?, ih]

/-! ## Operations -/

def empty : Keyed κ α := ⟨[], List.Pairwise.nil⟩

instance : Inhabited (Keyed κ α) := ⟨empty⟩

def get? (m : Keyed κ α) (k : κ) : Option α := find? k m.entries

def contains (m : Keyed κ α) (k : κ) : Bool := (m.get? k).isSome

def insert (m : Keyed κ α) (k : κ) (a : α) : Keyed κ α :=
  ⟨put k a m.entries, ascending_put k a m.ascending⟩

/-- the entries that satisfy `p` -/
def filter (m : Keyed κ α) (p : κ → α → Bool) : Keyed κ α :=
  ⟨m.entries.filter fun e => p e.1 e.2, m.ascending.filter _⟩

/-- the same keys with other values -/
def map {β : Type} (m : Keyed κ α) (f : α → β) : Keyed κ β :=
  ⟨m.entries.map fun e => (e.1, f e.2), List.Pairwise.map _ (fun _ _ h => h) m.ascending⟩

def keys (m : Keyed κ α) : List κ := m.entries.map Prod.fst

def values (m : Keyed κ α) : List α := m.entries.map Prod.snd

theorem get?_empty (k : κ) : (empty : Keyed κ α).get? k = none := rfl

theorem get?_insert (m : Keyed κ α) (k : κ) (a : α) : (m.insert k a).get? k = some a :=
  find?_put k a m.entries

theorem get?_insert_ne (m : Keyed κ α) {k k' : κ} (h : k' ≠ k) (a : α) :
    (m.insert k a).get? k' = m.get? k' := find?_put_ne h a m.entries

end Keyed

end Shoreline
