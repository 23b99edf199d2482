import Shoreline.Proofs.Assembly
import Shoreline.Proofs.Packet

/-!
# What an assembly can hold, given what can come

A supply says which bursts can come for the packets of one profile.  Whatever order they come in and
however often, an assembly holds only what they bring (`Stocked`): announced numbers and pieces from
the supply, and rebuilt packets that its pieces yield.

* `exists_pieces`       the bytes of a packet that is all there are its pieces in order;
* `stocked_apply`       a burst of the supply keeps an assembly stocked;
* `stocked_requestOutstanding`   and so does asking for what is missing.
-/

namespace Shoreline

/-- which bursts can come for the packets of one profile -/
structure Supply where
  key : ProfileKey
  Has : UInt16 → BurstKind → Prop
  index_ne_zero : ∀ {n i b}, Has n (.data i b) → i ≠ 0

namespace Supply

/-- the supply has as many pieces as it announces for packet `n`, each under its own index, and
together they decode to the packet `q` with the right key -/
def Yields (u : Supply) (n : UInt16) (q : Packet) : Prop :=
  ∃ pieces : List Bytes, pieces.length < 65536 ∧
    u.Has n (.announce (UInt16.ofNat pieces.length)) ∧
    (∀ (i : Nat) b, pieces[i]? = some b → u.Has n (.data (UInt16.ofNat (i + 1)) b)) ∧
    Packet.decode pieces.flatten = .ok q ∧ q.key = { u.key with packet := n }

theorem Yields.packet_eq {u : Supply} {n : UInt16} {q : Packet} (h : u.Yields n q) :
    q.key.packet = n := by
  obtain ⟨-, -, -, -, -, hkey⟩ := h
  rw [hkey]

theorem Yields.not_data_zero {u : Supply} {p : DataPacket} : ¬ u.Yields 0 (.data p) := by
  rintro ⟨pieces, -, -, -, hdecode, hkey⟩
  refine Packet.packet_ne_zero_of_decode hdecode ?_
  exact congrArg PacketKey.packet hkey

/-- announced numbers and pieces of packet `n` from the supply, no piece behind the announced ones -/
structure Contents (u : Supply) (n : UInt16) (p : PacketAssembly) : Prop where
  announced : ∀ c, p.announced = some c → u.Has n (.announce c)
  piece : ∀ i b, p.pieces.get? i = some b → u.Has n (.data i b)
  within : ∀ c i b, p.announced = some c → p.pieces.get? i = some b → i ≤ c

theorem contents_new (u : Supply) (n : UInt16) : u.Contents n .new :=
  ⟨fun _ h => absurd h (by simp [PacketAssembly.new]),
    fun i b h => absurd h (by rw [PacketAssembly.new, Keyed.get?_empty]; simp),
    fun _ _ _ h => absurd h (by simp [PacketAssembly.new])⟩

theorem contents_of_empty {u : Supply} {n : UInt16} {p : PacketAssembly}
    (ha : ∀ c, p.announced = some c → u.Has n (.announce c)) (hp : p.pieces = .empty) :
    u.Contents n p :=
  ⟨ha, fun i b h => absurd h (by rw [hp, Keyed.get?_empty]; simp),
    fun _ i b _ h => absurd h (by rw [hp, Keyed.get?_empty]; simp)⟩

theorem contents_announce {u : Supply} {n c : UInt16} {p : PacketAssembly}
    (h : u.Contents n p) (hc : u.Has n (.announce c)) : u.Contents n (p.announce c) := by
  have hpieces : ∀ i b, (p.announce c).pieces.get? i = some b →
      p.pieces.get? i = some b ∧ i ≤ c := by
    intro i b hb
    rw [PacketAssembly.announce] at hb
    dsimp only at hb
    rw [Keyed.get?_filter, Option.filter_eq_some_iff, decide_eq_true_iff] at hb
    obtain ⟨hb, hle⟩ := hb
    split at hb
    · rw [PacketAssembly.restart, Keyed.get?_empty] at hb
      exact absurd hb (by simp)
    · exact ⟨hb, hle⟩
  refine ⟨?_, fun i b hb => h.piece i b (hpieces i b hb).1, ?_⟩
  · intro d hd
    obtain rfl : c = d := Option.some.inj hd
    exact hc
  · intro d i b hd hb
    obtain rfl : c = d := Option.some.inj hd
    exact (hpieces i b hb).2

theorem contents_data {u : Supply} {n i : UInt16} {b : Bytes} {p : PacketAssembly}
    (h : u.Contents n p) (hb : u.Has n (.data i b)) (hr : p.refuses (.data i b) = false) :
    u.Contents n { p with pieces := p.pieces.insert i b } := by
  refine ⟨h.announced, ?_, ?_⟩
  · intro j d hd
    by_cases hj : j = i
    · rw [hj, Keyed.get?_insert] at hd
      rw [hj, ← Option.some.inj hd]
      exact hb
    · rw [Keyed.get?_insert_ne _ hj] at hd
      exact h.piece j d hd
  · intro c j d hc hd
    by_cases hj : j = i
    · have hc' : p.announced = some c := hc
      rw [PacketAssembly.refuses, hc', Option.any_some, decide_eq_false_iff_not] at hr
      rw [hj]
      exact UInt16.not_lt.mp hr
    · rw [Keyed.get?_insert_ne _ hj] at hd
      exact h.within c j d hc hd

theorem contents_take {u : Supply} {n : UInt16} {k : BurstKind} {p : PacketAssembly}
    (h : u.Contents n p) (hk : u.Has n k) (hr : p.refuses k = false) :
    u.Contents n (p.take k) := by
  cases k with
  | announce c => exact contents_announce h hk
  | data i b => exact contents_data h hk hr
  | terminal => exact ⟨h.announced, h.piece, h.within⟩

/-! ## A packet that is all there -/

/-- the pieces that are there, by index, are those of the announced indices in order -/
theorem exists_pieces {u : Supply} {n c : UInt16} {p : PacketAssembly} (h : u.Contents n p)
    (hc : p.announced = some c) (hall : p.hasAll = true) :
    ∃ pieces : List Bytes, pieces.length = c.toNat ∧ p.bytes = pieces.flatten ∧
      ∀ (i : Nat) b, pieces[i]? = some b → p.pieces.get? (UInt16.ofNat (i + 1)) = some b := by
  have hlt := c.toNat_lt
  have hindex : ∀ i, i < c.toNat → (UInt16.ofNat (i + 1)).toNat = i + 1 := by
    intro i hi
    rw [UInt16.toNat_ofNat']
    omega
  let pieces := (List.range c.toNat).map fun i =>
    (p.pieces.get? (UInt16.ofNat (i + 1))).getD []
  have hlen : pieces.length = c.toNat := by rw [List.length_map, List.length_range]
  have hget : ∀ (i : Nat) b, pieces[i]? = some b ↔
      i < c.toNat ∧ p.pieces.get? (UInt16.ofNat (i + 1)) = some b := by
    intro i b
    rw [List.getElem?_map, Option.map_eq_some_iff]
    constructor
    · rintro ⟨j, hj, rfl⟩
      obtain ⟨hi, rfl⟩ := List.getElem?_eq_some_iff.mp hj
      rw [List.length_range] at hi
      rw [List.getElem_range]
      obtain ⟨b, hb⟩ := (Keyed.contains_iff _ _).mp ((PacketAssembly.hasAll_iff hc).mp hall
        (UInt16.ofNat (i + 1)) (by rw [hindex i hi]; omega)
        (by rw [UInt16.le_iff_toNat_le, hindex i hi]; omega))
      exact ⟨hi, by rw [hb]; rfl⟩
    · rintro ⟨hi, hb⟩
      exact ⟨i, List.getElem?_range hi, by rw [hb]; rfl⟩
  refine ⟨pieces, hlen, ?_, fun i b hb => ((hget i b).mp hb).2⟩
  rw [PacketAssembly.bytes, p.pieces.values_eq (l := pieces) (by omega) fun i b => ?_]
  rw [hget]
  constructor
  · intro hb
    have hpos : i.toNat ≠ 0 := fun hz =>
      u.index_ne_zero (h.piece i b hb) (UInt16.toNat_inj.mp hz)
    have hle := UInt16.le_iff_toNat_le.mp (h.within c i b hc hb)
    rw [show i.toNat - 1 + 1 = i.toNat by omega, UInt16.ofNat_toNat]
    exact ⟨by omega, by omega, hb⟩
  · rintro ⟨hpos, -, hb⟩
    rwa [show i.toNat - 1 + 1 = i.toNat by omega, UInt16.ofNat_toNat] at hb

theorem yields_of_hasAll {u : Supply} {n : UInt16} {p : PacketAssembly} {q : Packet}
    (h : u.Contents n p) (hall : p.hasAll = true) (hq : Packet.decode p.bytes = .ok q)
    (hkey : q.key = { u.key with packet := n }) : u.Yields n q := by
  obtain ⟨c, hc⟩ := PacketAssembly.announced_of_hasAll hall
  obtain ⟨pieces, hlen, hbytes, hget⟩ := exists_pieces h hc hall
  refine ⟨pieces, hlen ▸ c.toNat_lt, ?_, fun i b hb => h.piece _ b (hget i b hb), hbytes ▸ hq, hkey⟩
  rw [hlen, UInt16.ofNat_toNat]
  exact h.announced c hc

end Supply

/-! ## Assemblies -/

namespace ProfileAssembly

/-- packet `n` was rebuilt as `q` -/
def Stores (s : ProfileAssembly) (n : UInt16) : Packet → Prop
  | .info p => n = 0 ∧ s.received.info = some p
  | .data p => s.received.data.get? n = some p

/-- everything in the assembly comes from the supply, and the held packets are those rebuilt -/
structure Stocked (u : Supply) (s : ProfileAssembly) : Prop where
  key_eq : s.received.key = u.key
  contents : ∀ n, u.Contents n (s.packet n)
  stores : ∀ n q, s.Stores n q → u.Yields n q
  held_iff : ∀ n, (s.packet n).held = true ↔ ∃ q, s.Stores n q
  seen : ∀ n, s.packets.contains n = true → ∃ k, u.Has n k

variable {u : Supply} {s : ProfileAssembly} {n : UInt16}

theorem stocked_new (u : Supply) : Stocked u (.new u.key) where
  key_eq := rfl
  contents n := u.contents_new n
  stores n q h := by
    cases q with
    | info p => exact absurd h.2 (by simp [new])
    | data p => exact absurd h (by simp [Stores, new, Keyed.get?_empty])
  held_iff n := by
    refine ⟨fun h => absurd h Bool.false_ne_true, ?_⟩
    rintro ⟨q, h⟩
    cases q with
    | info p => exact absurd h.2 (by simp [new])
    | data p => exact absurd h (by simp [Stores, new, Keyed.get?_empty])
  seen n h := absurd h Bool.false_ne_true

theorem idle_new (key : ProfileKey) : Idle (.new key) := fun _ => rfl

theorem stocked_put (h : Stocked u s) {p : PacketAssembly} (hp : u.Contents n p)
    (hheld : p.held = (s.packet n).held) (hn : ∃ k, u.Has n k) : Stocked u (s.put n p) where
  key_eq := h.key_eq
  contents m := by
    by_cases hm : m = n
    · rw [hm, packet_put]
      exact hp
    · rw [packet_put_ne s n hm]
      exact h.contents m
  stores m q hq := h.stores m q (by cases q <;> exact hq)
  held_iff m := by
    have hstores : ∀ q, (s.put n p).Stores m q ↔ s.Stores m q := fun q => by cases q <;> rfl
    simp only [hstores, ← h.held_iff m]
    by_cases hm : m = n
    · rw [hm, packet_put, hheld]
    · rw [packet_put_ne s n hm]
  seen m hm := by
    by_cases hmn : m = n
    · rw [hmn]
      exact hn
    · refine h.seen m ?_
      rwa [put, Keyed.contains_insert_ne _ hmn] at hm

theorem stores_store {q : Packet} (hkey : q.key.packet = n) (m : UInt16) (q' : Packet)
    (h : (s.store n q).Stores m q') : (m = n ∧ q' = q) ∨ s.Stores m q' := by
  cases q with
  | info p =>
    cases q' with
    | info p' =>
      obtain ⟨hm, hp⟩ := h
      refine Or.inl ⟨hm.trans hkey, ?_⟩
      rw [Option.some.inj hp]
    | data p' => exact Or.inr h
  | data p =>
    cases q' with
    | info p' => exact Or.inr h
    | data p' =>
      have hp : (s.received.data.insert n p).get? m = some p' := h
      by_cases hm : m = n
      · rw [hm, Keyed.get?_insert] at hp
        refine Or.inl ⟨hm, ?_⟩
        rw [Option.some.inj hp]
      · rw [Keyed.get?_insert_ne _ hm] at hp
        exact Or.inr hp

theorem stores_store_self {q : Packet} (hkey : q.key.packet = n) : (s.store n q).Stores n q := by
  cases q with
  | info p => exact ⟨hkey.symm, rfl⟩
  | data p => exact Keyed.get?_insert _ _ _

theorem stores_store_ne {q : Packet} (hkey : q.key.packet = n) {m : UInt16} (hm : m ≠ n)
    {q' : Packet} (h : s.Stores m q') : (s.store n q).Stores m q' := by
  cases q with
  | info p =>
    cases q' with
    | info p' => exact absurd (h.1.trans hkey) hm
    | data p' => exact h
  | data p =>
    cases q' with
    | info p' => exact h
    | data p' => exact (Keyed.get?_insert_ne _ hm _).trans h

theorem key_store (q : Packet) : (s.store n q).received.key = s.received.key := by
  cases q <;> rfl

theorem stocked_store (h : Stocked u s) {q : Packet} (hy : u.Yields n q)
    (hn : ∃ k, u.Has n k) : Stocked u (s.store n q) where
  key_eq := (key_store q).trans h.key_eq
  contents m := by
    by_cases hm : m = n
    · rw [hm, packet_store]
      exact Supply.contents_of_empty (h.contents n).announced rfl
    · rw [packet_store_ne s n hm]
      exact h.contents m
  stores m q' hq := by
    rcases stores_store hy.packet_eq m q' hq with ⟨rfl, rfl⟩ | hq
    · exact hy
    · exact h.stores m q' hq
  held_iff m := by
    have hkey := hy.packet_eq
    by_cases hm : m = n
    · rw [hm, packet_store]
      exact ⟨fun _ => ⟨q, stores_store_self hkey⟩, fun _ => rfl⟩
    · rw [packet_store_ne s n hm, h.held_iff m]
      constructor
      · rintro ⟨q', hq'⟩
        exact ⟨q', stores_store_ne hkey hm hq'⟩
      · rintro ⟨q', hq'⟩
        rcases stores_store hkey m q' hq' with ⟨he, -⟩ | hq'
        · exact absurd he hm
        · exact ⟨q', hq'⟩
  seen m hm := by
    by_cases hmn : m = n
    · rw [hmn]
      exact hn
    · refine h.seen m ?_
      rwa [packets_store, Keyed.contains_insert_ne _ hmn] at hm

theorem stocked_rebuild (h : Stocked u s) (hall : (s.packet n).hasAll = true) :
    Stocked u (s.rebuild n).1 := by
  have hn := h.seen n (contains_of_hasAll hall)
  cases hd : s.decoded? n with
  | some q =>
    obtain ⟨hq, hkey⟩ := decoded?_eq_some s n hd
    rw [h.key_eq] at hkey
    rw [rebuild_of_some s n hd]
    exact stocked_store h (Supply.yields_of_hasAll (h.contents n) hall hq hkey) hn
  | none =>
    rw [rebuild_of_none s n hd]
    exact stocked_put h (Supply.contents_of_empty (fun c hc => absurd hc (by
      simp [PacketAssembly.restart])) rfl) rfl hn

theorem hasAll_of_ready {p : PacketAssembly} (h : p.ready = true) : p.hasAll = true := by
  rw [PacketAssembly.ready, Bool.and_eq_true] at h
  exact h.2

/-- a burst of the supply keeps an assembly stocked and idle -/
theorem stocked_apply (h : Stocked u s) (hi : Idle s) {k : BurstKind} (hk : u.Has n k) :
    Stocked u (s.apply n k).1 ∧ Idle (s.apply n k).1 := by
  cases hheld : (s.packet n).held with
  | true =>
    rw [apply_of_held hheld]
    exact ⟨h, hi⟩
  | false =>
    cases hr : (s.packet n).refuses k with
    | true =>
      rw [apply_of_refused hheld hr]
      exact ⟨h, hi⟩
    | false =>
      have hput : Stocked u (s.put n ((s.packet n).take k)) :=
        stocked_put h (Supply.contents_take (h.contents n) hk hr)
          (PacketAssembly.held_take _ _) ⟨k, hk⟩
      have hothers : ∀ m, m ≠ n → ((s.put n ((s.packet n).take k)).packet m).ready = false :=
        fun m hm => by rw [packet_put_ne s n hm, hi m]
      rw [apply_of_open hi hheld hr]
      split
      · next hready =>
        refine ⟨stocked_rebuild hput ?_, idle_rebuild hothers⟩
        rw [packet_put]
        exact hasAll_of_ready hready
      · next hready =>
        exact ⟨hput, idle_put (fun m _ => hi m) (Bool.eq_false_iff.mpr hready)⟩

theorem stocked_pursue (h : Stocked u s) (hi : Idle s) (n : UInt16) :
    Stocked u (s.pursue n).1 ∧ Idle (s.pursue n).1 := by
  cases hheld : (s.packet n).held with
  | true =>
    rw [pursue_of_not_hasAll (Or.inr hheld)]
    exact ⟨h, hi⟩
  | false =>
    cases hall : (s.packet n).hasAll with
    | true =>
      rw [pursue_of_hasAll hi hheld hall]
      exact ⟨stocked_rebuild h hall, idle_rebuild fun m _ => hi m⟩
    | false =>
      rw [pursue_of_not_hasAll (Or.inl ⟨hheld, hall⟩)]
      exact ⟨h, hi⟩

theorem stocked_pursueAll (h : Stocked u s) (hi : Idle s) (ns : List UInt16) :
    Stocked u (s.pursueAll ns).1 ∧ Idle (s.pursueAll ns).1 := by
  induction ns generalizing s with
  | nil => exact ⟨h, hi⟩
  | cons n ns ih =>
    obtain ⟨h', hi'⟩ := stocked_pursue h hi n
    exact ih h' hi'

/-- asking for what is missing keeps an assembly stocked and idle -/
theorem stocked_requestOutstanding (h : Stocked u s) (hi : Idle s) :
    Stocked u s.requestOutstanding.1 ∧ Idle s.requestOutstanding.1 := by
  rw [requestOutstanding_eq]
  exact stocked_pursueAll h hi _

end ProfileAssembly

end Shoreline
