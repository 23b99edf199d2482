import Shoreline.Proofs.Shipment

/-!
# Packets at the sender

What the operations of a burst table do to the bursts that wait (`Unsent`), and the invariant of a
packet at the sender (`Tabled`): its table has an entry for each of its bursts, and while one of them
waits, so does the packet.  A packet that waits is the only one that is looked at for a burst to send.

* `BurstTable.allSent_iff`   no burst waits;
* `Outbound.tabled_apply`, `Outbound.tabled_solicit`, `Outbound.tabled_send`   the invariant is kept;
* `Outbound.confirmed_apply` only the word that it is held confirms a packet.
-/

namespace Shoreline

/-! ## Tables -/

namespace BurstTable

def Unsent (t : BurstTable) (i : Nat) : Prop := t.status? i = some .unsent

variable {t : BurstTable} {i j : Nat}

theorem lt_of_unsent (h : t.Unsent i) : i < t.size := by
  obtain ⟨r, hr, -⟩ := Option.map_eq_some_iff.mp h
  exact (List.getElem?_eq_some_iff.mp hr).1

theorem status?_change (t : BurstTable) (i j : Nat) (f : BurstRecord → BurstRecord) :
    (t.change i f).status? j =
      (t.records[j]?.map fun r => if i = j then f r else r).map BurstRecord.status := by
  rw [status?, change, List.getElem?_modify]
  rfl

theorem status?_change_self (t : BurstTable) (i : Nat) (f : BurstRecord → BurstRecord) :
    (t.change i f).status? i = t.records[i]?.map fun r => (f r).status := by
  rw [status?_change, Option.map_map]
  congr 1
  funext r
  exact congrArg BurstRecord.status (if_pos rfl)

theorem status?_change_ne (t : BurstTable) (h : i ≠ j) (f : BurstRecord → BurstRecord) :
    (t.change i f).status? j = t.status? j := by
  rw [status?_change, Option.map_map]
  congr 1
  funext r
  exact congrArg BurstRecord.status (if_neg h)

theorem status?_fill (t : BurstTable) (s : Progress) (i : Nat) :
    (t.fill s).status? i = t.records[i]?.map fun _ => s := by
  rw [status?, fill, List.getElem?_map, Option.map_map]
  rfl

theorem attempts_markSent (h : i < t.size) :
    (t.markSent i).attempts j = t.attempts j + if j = i then 1 else 0 := by
  have hi : t.records[i]? = some t.records[i] := List.getElem?_eq_getElem h
  rw [attempts, markSent, change, List.getElem?_modify, attempts]
  by_cases hij : i = j
  · subst hij
    simp [hi]
  · simp [if_neg hij, if_neg (Ne.symm hij)]

theorem attempts_markUnsent (t : BurstTable) (i j : Nat) :
    (t.markUnsent i).attempts j = t.attempts j := by
  rw [attempts, markUnsent, change, List.getElem?_modify, attempts]
  by_cases hij : i = j
  · simp [hij, Function.comp_def]
  · simp [if_neg hij]

theorem attempts_fill (t : BurstTable) (s : Progress) (i : Nat) :
    (t.fill s).attempts i = t.attempts i := by
  rw [attempts, fill, List.getElem?_map, Option.map_map]
  rfl

theorem size_change (t : BurstTable) (i : Nat) (f : BurstRecord → BurstRecord) :
    (t.change i f).size = t.size := List.length_modify _ _ _

theorem size_fill (t : BurstTable) (s : Progress) : (t.fill s).size = t.size := List.length_map _

theorem size_new (count : Nat) : (BurstTable.new count).size = count + 2 := List.length_replicate

theorem unsent_new {count : Nat} : (BurstTable.new count).Unsent i ↔ i < count + 2 := by
  rw [Unsent, status?, new, List.getElem?_replicate]
  split
  · next h => exact ⟨fun _ => h, fun _ => rfl⟩
  · next h => exact ⟨fun he => absurd he (by simp), fun hi => absurd hi h⟩

theorem unsent_markSent : (t.markSent i).Unsent j ↔ j ≠ i ∧ t.Unsent j := by
  rw [Unsent, markSent]
  by_cases h : i = j
  · subst h
    rw [status?_change_self]
    constructor
    · intro he
      obtain ⟨r, -, hr⟩ := Option.map_eq_some_iff.mp he
      exact absurd hr (by simp)
    · exact fun he => absurd rfl he.1
  · rw [status?_change_ne t h]
    exact ⟨fun hu => ⟨Ne.symm h, hu⟩, And.right⟩

theorem unsent_markUnsent : (t.markUnsent i).Unsent j ↔ (j = i ∧ i < t.size) ∨ t.Unsent j := by
  rw [Unsent, markUnsent]
  by_cases h : i = j
  · subst h
    rw [status?_change_self]
    constructor
    · intro he
      obtain ⟨r, hr, -⟩ := Option.map_eq_some_iff.mp he
      exact Or.inl ⟨rfl, (List.getElem?_eq_some_iff.mp hr).1⟩
    · intro he
      have hlt : i < t.records.length := he.elim And.right lt_of_unsent
      rw [List.getElem?_eq_getElem hlt]
      rfl
  · rw [status?_change_ne t h]
    exact ⟨Or.inr, fun he => he.elim (fun hj => absurd hj.1.symm h) id⟩

theorem unsent_reset : t.reset.Unsent j ↔ j < t.size := by
  rw [Unsent, reset, status?_fill]
  constructor
  · intro he
    obtain ⟨r, hr, -⟩ := Option.map_eq_some_iff.mp he
    exact (List.getElem?_eq_some_iff.mp hr).1
  · intro hlt
    rw [List.getElem?_eq_getElem hlt]
    rfl

theorem allSent_iff : t.allSent = true ↔ ∀ i, ¬ t.Unsent i := by
  rw [allSent, List.all_eq_true]
  constructor
  · intro h i hi
    obtain ⟨r, hr, hs⟩ := Option.map_eq_some_iff.mp hi
    have := h r (List.mem_of_getElem? hr)
    rw [hs] at this
    exact absurd this (by decide)
  · intro h r hr
    obtain ⟨i, hi⟩ := List.getElem?_of_mem hr
    rw [bne_iff_ne]
    intro hs
    refine h i ?_
    rw [Unsent, status?, hi, ← hs]
    rfl

theorem allSent_confirmAll (t : BurstTable) : t.confirmAll.allSent = true := by
  rw [allSent_iff]
  intro i hi
  rw [Unsent, confirmAll, status?_fill] at hi
  obtain ⟨r, -, hr⟩ := Option.map_eq_some_iff.mp hi
  exact absurd hr (by decide)

theorem unsent_of_nextUnsent? (h : t.nextUnsent? = some i) : t.Unsent i := by
  obtain ⟨hlt, hs, -⟩ := List.findIdx?_eq_some_iff_getElem.mp h
  rw [Unsent, status?, List.getElem?_eq_getElem hlt, Option.map_some, beq_iff_eq.mp hs]

theorem allSent_of_nextUnsent? (h : t.nextUnsent? = none) : t.allSent = true := by
  rw [allSent, List.all_eq_true]
  intro r hr
  have := List.findIdx?_eq_none_iff.mp h r hr
  rwa [bne, Bool.not_eq_true']

end BurstTable

/-! ## Packets -/

namespace Outbound

/-- the packet framed as `f`, with a table for all its bursts; while one of them waits, so does the
packet -/
structure Tabled (f : Framed) (x : Outbound) : Prop where
  framed_eq : x.framed = f
  size_eq : x.bursts.size = f.count + 2
  settled : x.status ≠ .unsent → x.bursts.allSent = true

variable {f : Framed} {x : Outbound}

theorem tabled_new (f : Framed) : Tabled f (.new f) :=
  ⟨rfl, BurstTable.size_new _, fun h => absurd rfl h⟩

theorem Tabled.kind?_isSome (h : Tabled f x) {i : Nat} (hi : i < x.bursts.size) :
    ∃ k, f.kind? i = some k := Framed.exists_kind? (h.size_eq ▸ hi)

theorem tabled_apply (h : Tabled f x) (c : ControlLine) : Tabled f (x.apply c) := by
  cases hk : c.kind with
  | received =>
    rw [apply, hk]
    dsimp only
    split
    · exact ⟨h.framed_eq, (BurstTable.size_fill _ _).trans h.size_eq,
        fun _ => BurstTable.allSent_confirmAll _⟩
    · exact h
  | resend =>
    rw [apply, hk]
    dsimp only
    split
    · exact ⟨h.framed_eq, (BurstTable.size_fill _ _).trans h.size_eq, fun hs => absurd rfl hs⟩
    · split
      · exact ⟨h.framed_eq, (BurstTable.size_change _ _ _).trans h.size_eq, fun hs => absurd rfl hs⟩
      · exact h

theorem tabled_solicit (h : Tabled f x) : Tabled f x.solicit := by
  rw [solicit]
  split
  · exact h
  · exact ⟨h.framed_eq, (BurstTable.size_change _ _ _).trans h.size_eq, fun hs => absurd rfl hs⟩

/-- only the word that it is held confirms a packet -/
theorem confirmed_apply {c : ControlLine} (h : (x.apply c).status = .confirmed) :
    x.status = .confirmed ∨ (c.kind = .received ∧ c.isWholePacket = true) := by
  cases hk : c.kind with
  | received =>
    rw [apply, hk] at h
    dsimp only at h
    split at h
    · next hc =>
      rw [Bool.and_eq_true] at hc
      exact Or.inr ⟨rfl, hc.1⟩
    · exact Or.inl h
  | resend =>
    rw [apply, hk] at h
    dsimp only at h
    split at h
    · exact absurd h (by simp)
    · split at h
      · exact absurd h (by simp)
      · exact Or.inl h

/-! ## Sending -/

/-- the packet once it was looked at for a burst to send: as it was, or counted as sent -/
def Settles (x y : Outbound) : Prop :=
  y = x ∨ (x.status = .unsent ∧ x.bursts.allSent = true ∧ y = { x with status := .sent })

theorem settles_refl (x : Outbound) : Settles x x := Or.inl rfl

theorem settles_settle (isFirst : Bool) (h : x.status = .unsent) : Settles x (x.settle isFirst) := by
  rw [settle]
  split
  · next hs =>
    rw [Bool.and_eq_true] at hs
    exact Or.inr ⟨h, hs.2, rfl⟩
  · exact Or.inl rfl

theorem Settles.framed_eq {x y : Outbound} (h : Settles x y) : y.framed = x.framed := by
  rcases h with rfl | ⟨-, -, rfl⟩ <;> rfl

theorem Settles.bursts_eq {x y : Outbound} (h : Settles x y) : y.bursts = x.bursts := by
  rcases h with rfl | ⟨-, -, rfl⟩ <;> rfl

theorem Settles.confirmed_iff {x y : Outbound} (h : Settles x y) :
    y.status = .confirmed ↔ x.status = .confirmed := by
  rcases h with rfl | ⟨hx, -, rfl⟩
  · exact Iff.rfl
  · rw [hx]
    exact ⟨fun h => absurd h (by simp), fun h => absurd h (by simp)⟩

theorem Settles.tabled {x y : Outbound} (h : Settles x y) (hx : Tabled f x) : Tabled f y := by
  rcases h with rfl | ⟨-, hall, rfl⟩
  · exact hx
  · exact ⟨hx.framed_eq, hx.size_eq, fun _ => hall⟩

/-- the packet with burst `i` sent once more -/
def send (x : Outbound) (i : Nat) : Outbound := { x with bursts := x.bursts.markSent i }

theorem tabled_send (h : Tabled f x) (hx : x.status = .unsent) (i : Nat) : Tabled f (x.send i) :=
  ⟨h.framed_eq, (BurstTable.size_change _ _ _).trans h.size_eq, fun hs => absurd hx hs⟩

end Outbound

end Shoreline
