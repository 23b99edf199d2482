import Shoreline.Proofs.Keyed
import Shoreline.Receiver.Assembly

/-!
# What a burst does to an assembly

Between two bursts no packet is ready to be rebuilt (`Idle`).  Then a burst concerns its own packet
alone, and there are few things that it can do: nothing, because the packet is held or the piece does
not belong to it; change what is there of the packet (`PacketAssembly.take`); or complete the packet,
which is rebuilt at once.

* `reassemble_eq`    with no other packet ready, only the packet itself is rebuilt;
* `apply_of_held`, `apply_of_refused`, `apply_of_open`   what a burst does;
* `pursue_of_hasAll`, `pursue_of_not_hasAll`             what asking for a packet does.
-/

namespace Shoreline

theorem mem_numbersTo {n : Nat} {i : UInt16} :
    i ∈ numbersTo n ↔ 1 ≤ i.toNat ∧ i.toNat ≤ n := by
  have hi := i.toNat_lt
  rw [numbersTo, List.mem_map]
  constructor
  · rintro ⟨j, hj, rfl⟩
    rw [List.mem_range'_1] at hj
    rw [UInt16.toNat_ofNat']
    omega
  · rintro ⟨h₁, h₂⟩
    exact ⟨i.toNat, List.mem_range'_1.mpr (by omega), UInt16.ofNat_toNat⟩

/-- a fold that puts together what each element gives is the recursion along the list -/
theorem foldl_collect {σ α β : Type} (f : σ → α → σ × List β) (all : σ → List α → σ × List β)
    {g : σ × List β → α → σ × List β} (hnil : ∀ s, all s [] = (s, []))
    (hcons : ∀ s a as, all s (a :: as) = ((all (f s a).1 as).1, (f s a).2 ++ (all (f s a).1 as).2))
    (hg : ∀ x a, g x a = ((f x.1 a).1, x.2 ++ (f x.1 a).2)) (as : List α) (s : σ) (bs : List β) :
    as.foldl g (s, bs) = ((all s as).1, bs ++ (all s as).2) := by
  induction as generalizing s bs with
  | nil => rw [List.foldl_nil, hnil, List.append_nil]
  | cons a as ih => rw [List.foldl_cons, hg, ih, hcons, List.append_assoc]

namespace PacketAssembly

/-- what is there of an open packet when one more burst has come -/
def take (p : PacketAssembly) : BurstKind → PacketAssembly
  | .announce count => p.announce count
  | .data index payload => { p with pieces := p.pieces.insert index payload }
  | .terminal => { p with terminalSeen := true }

/-- a piece behind the announced ones -/
def refuses (p : PacketAssembly) : BurstKind → Bool
  | .data index _ => p.announced.any (· < index)
  | _ => false

theorem held_take (p : PacketAssembly) (k : BurstKind) : (p.take k).held = p.held := by
  cases k with
  | announce count =>
    rw [take, announce]
    dsimp only
    split <;> rfl
  | data index payload => rfl
  | terminal => rfl

theorem hasAll_terminal (p : PacketAssembly) : (p.take .terminal).hasAll = p.hasAll := rfl

theorem ready_eq_false_of_held {p : PacketAssembly} (h : p.held = true) : p.ready = false := by
  rw [ready, h]
  rfl

theorem ready_restart (p : PacketAssembly) : p.restart.ready = false := by
  rw [ready, restart]
  simp

theorem ready_hold (p : PacketAssembly) : p.hold.ready = false := ready_eq_false_of_held rfl

theorem announced_of_hasAll {p : PacketAssembly} (h : p.hasAll = true) :
    ∃ c, p.announced = some c := by
  rw [hasAll, Bool.and_eq_true] at h
  exact Option.isSome_iff_exists.mp h.1

theorem hasAll_iff {p : PacketAssembly} {c : UInt16} (h : p.announced = some c) :
    p.hasAll = true ↔ ∀ i : UInt16, 1 ≤ i.toNat → i ≤ c → p.pieces.contains i = true := by
  rw [hasAll, h, Option.isSome_some, Bool.true_and, List.all_eq_true, indices, h]
  constructor
  · intro hall i h₁ h₂
    exact hall i (mem_numbersTo.mpr ⟨h₁, UInt16.le_iff_toNat_le.mp h₂⟩)
  · intro hall i hi
    obtain ⟨h₁, h₂⟩ := mem_numbersTo.mp hi
    exact hall i h₁ (UInt16.le_iff_toNat_le.mpr h₂)

end PacketAssembly

namespace ProfileAssembly

/-! ## One packet among others -/

variable (s : ProfileAssembly) (n : UInt16)

theorem packet_put (p : PacketAssembly) : (s.put n p).packet n = p := by
  rw [packet, put, Keyed.get?_insert]
  rfl

theorem packet_put_ne {m : UInt16} (h : m ≠ n) (p : PacketAssembly) :
    (s.put n p).packet m = s.packet m := by
  rw [packet, put, Keyed.get?_insert_ne _ h, packet]

theorem contains_put (p : PacketAssembly) : (s.put n p).packets.contains n = true :=
  Keyed.contains_insert _ _ _

theorem packets_store (q : Packet) :
    (s.store n q).packets = s.packets.insert n (s.packet n).hold := by
  cases q <;> rfl

theorem packet_store (q : Packet) : (s.store n q).packet n = (s.packet n).hold := by
  rw [packet, packets_store, Keyed.get?_insert]
  rfl

theorem packet_store_ne {m : UInt16} (h : m ≠ n) (q : Packet) :
    (s.store n q).packet m = s.packet m := by
  rw [packet, packets_store, Keyed.get?_insert_ne _ h, packet]

theorem packet_of_not_contains (h : s.packets.contains n = false) : s.packet n = .new := by
  rw [Keyed.contains, Option.isSome_eq_false_iff, Option.isNone_iff_eq_none] at h
  rw [packet, h]
  rfl

theorem get?_of_contains (h : s.packets.contains n = true) :
    s.packets.get? n = some (s.packet n) := by
  obtain ⟨p, hp⟩ := (Keyed.contains_iff _ _).mp h
  rw [packet, hp]
  rfl

theorem contains_of_ne_new (h : s.packet n ≠ .new) : s.packets.contains n = true := by
  cases hc : s.packets.contains n with
  | true => rfl
  | false => exact absurd (s.packet_of_not_contains n hc) h

/-! ## Rebuilding -/

/-- rebuilding succeeds exactly when the pieces decode to the packet that they should -/
theorem rebuild_of_some {q : Packet} (h : s.decoded? n = some q) :
    s.rebuild n = (s.store n q, .rebuilt n) := by
  rw [rebuild, h]

theorem rebuild_of_none (h : s.decoded? n = none) :
    s.rebuild n = (s.put n (s.packet n).restart, .wantsAll n) := by
  rw [rebuild, h]

theorem decoded?_eq_some {q : Packet} (h : s.decoded? n = some q) :
    Packet.decode (s.packet n).bytes = .ok q ∧ q.key = { s.received.key with packet := n } := by
  rw [decoded?] at h
  split at h
  · next p hp =>
    split at h
    · next hk =>
      obtain rfl := Option.some.inj h
      exact ⟨hp, hk⟩
    · exact absurd h (by simp)
  · exact absurd h (by simp)

theorem packet_rebuild_ne {m : UInt16} (h : m ≠ n) : (s.rebuild n).1.packet m = s.packet m := by
  rw [rebuild]
  split
  · exact s.packet_store_ne n h _
  · exact s.packet_put_ne n h _

theorem ready_rebuild : ((s.rebuild n).1.packet n).ready = false := by
  rw [rebuild]
  split
  · rw [packet_store]
    exact PacketAssembly.ready_hold _
  · rw [packet_put]
    exact PacketAssembly.ready_restart _

def Idle (s : ProfileAssembly) : Prop := ∀ m, (s.packet m).ready = false

variable {s n}

theorem ready_of_idle (h : Idle s) : s.ready = [] := by
  rw [ready, Keyed.keys, Keyed.filter_of_forall_not, List.map_nil]
  intro k p hp
  have := h k
  rwa [packet, hp] at this

theorem sweep_of_idle (h : Idle s) : s.sweep = (s, []) := by
  rw [sweep, ready_of_idle h]
  rfl

theorem idle_put (h : ∀ m, m ≠ n → (s.packet m).ready = false) {p : PacketAssembly}
    (hp : p.ready = false) : Idle (s.put n p) := by
  intro m
  by_cases hm : m = n
  · rw [hm, packet_put, hp]
  · rw [packet_put_ne s n hm, h m hm]

theorem idle_rebuild (h : ∀ m, m ≠ n → (s.packet m).ready = false) : Idle (s.rebuild n).1 := by
  intro m
  by_cases hm : m = n
  · rw [hm, ready_rebuild]
  · rw [packet_rebuild_ne s n hm, h m hm]

/-- with no other packet ready, only the packet itself is rebuilt -/
theorem reassemble_eq (h : ∀ m, m ≠ n → (s.packet m).ready = false)
    (hc : s.packets.contains n = true) :
    s.reassemble n = ((s.rebuild n).1, [(s.rebuild n).2]) := by
  rw [reassemble, hc, Bool.not_true, if_neg Bool.false_ne_true]
  dsimp only
  split
  · rw [sweep_of_idle (idle_rebuild h)]
  · rfl

/-! ## Bursts -/

theorem apply_of_held (h : (s.packet n).held = true) (k : BurstKind) :
    s.apply n k = (s, if k = .terminal then [.stillHeld n] else []) := by
  cases k with
  | announce count =>
    rw [apply, onAnnounce, if_pos h]
    rfl
  | data index payload =>
    rw [apply, onData]
    rw [if_pos h]
    rfl
  | terminal =>
    rw [apply, onTerminal]
    dsimp only
    rw [if_pos h]
    rfl

theorem apply_of_refused {k : BurstKind} (h : (s.packet n).held = false)
    (hr : (s.packet n).refuses k = true) : s.apply n k = (s, []) := by
  cases k with
  | announce count => exact absurd hr Bool.false_ne_true
  | data index payload =>
    rw [apply, onData]
    rw [h, if_neg Bool.false_ne_true]
    exact if_pos hr
  | terminal => exact absurd hr Bool.false_ne_true

/-- what is queued when a burst leaves its packet open -/
def openAnswers (s : ProfileAssembly) (n : UInt16) : BurstKind → List Answer
  | .terminal => s.request n
  | _ => []

theorem settle_eq (hs : Idle s) {p : PacketAssembly} :
    s.settle n p =
      if p.ready then (((s.put n p).rebuild n).1, [((s.put n p).rebuild n).2])
      else (s.put n p, []) := by
  rw [settle]
  split
  · refine reassemble_eq (fun m hm => ?_) (contains_put s n p)
    rw [packet_put_ne s n hm, hs m]
  · rfl

theorem apply_of_open (hs : Idle s) {k : BurstKind} (h : (s.packet n).held = false)
    (hr : (s.packet n).refuses k = false) :
    s.apply n k =
      if ((s.packet n).take k).ready then
        (((s.put n ((s.packet n).take k)).rebuild n).1,
          [((s.put n ((s.packet n).take k)).rebuild n).2])
      else
        (s.put n ((s.packet n).take k),
          openAnswers (s.put n ((s.packet n).take k)) n k) := by
  cases k with
  | announce count =>
    rw [apply, onAnnounce, h, if_neg Bool.false_ne_true, settle_eq hs]
    rfl
  | data index payload =>
    rw [apply, onData]
    rw [h, if_neg Bool.false_ne_true, if_neg (by rw [show Option.any _ _ = _ from hr]; simp),
      settle_eq hs]
    simp only [PacketAssembly.take, h, openAnswers]
  | terminal =>
    have hready : ((s.packet n).take .terminal).ready = (s.packet n).hasAll := by
      rw [PacketAssembly.ready, PacketAssembly.held_take, h, PacketAssembly.hasAll_terminal]
      rfl
    rw [apply, onTerminal]
    dsimp only
    rw [h, if_neg Bool.false_ne_true, hready]
    simp only [PacketAssembly.take, h, openAnswers]
    split
    · refine reassemble_eq (fun m hm => ?_) (contains_put _ n _)
      rw [packet_put_ne s n hm, hs m]
    · rfl

/-! ## Requests -/

theorem contains_of_hasAll (h : (s.packet n).hasAll = true) : s.packets.contains n = true := by
  apply s.contains_of_ne_new n
  intro he
  rw [he] at h
  exact absurd h (by decide)

theorem pursue_of_hasAll (hs : Idle s) (h : (s.packet n).held = false)
    (ha : (s.packet n).hasAll = true) :
    s.pursue n = ((s.rebuild n).1, [(s.rebuild n).2]) := by
  rw [pursue]
  rw [h, ha, Bool.not_false, Bool.and_true, if_pos rfl]
  exact reassemble_eq (fun m _ => hs m) (contains_of_hasAll ha)

theorem pursue_of_not_hasAll (h : ((s.packet n).held = false ∧ (s.packet n).hasAll = false) ∨
    (s.packet n).held = true) : s.pursue n = (s, s.request n) := by
  rw [pursue]
  rw [if_neg]
  rcases h with ⟨h₁, h₂⟩ | h
  · rw [h₂, Bool.and_false]
    exact Bool.false_ne_true
  · rw [h, Bool.not_true, Bool.false_and]
    exact Bool.false_ne_true

theorem request_of_held (h : (s.packet n).held = true) : s.request n = [] := by
  have hc : s.packets.contains n = true := by
    apply s.contains_of_ne_new n
    intro he
    rw [he] at h
    exact absurd h (by decide)
  rw [request, get?_of_contains s n hc]
  exact if_pos h

/-- what is asked for of an open packet: the missing pieces, or all of it before it is announced -/
theorem request_of_open (h : (s.packet n).held = false) :
    s.request n = if (s.packet n).announced.isSome then
      (s.packet n).missing.map (.wantsBurst n) else [.wantsAll n] := by
  rw [request]
  cases hp : s.packets.get? n with
  | none =>
    have hnew : s.packet n = .new := by rw [packet, hp]; rfl
    rw [hnew]
    rfl
  | some p =>
    have hpacket : s.packet n = p := by rw [packet, hp]; rfl
    rw [hpacket] at h ⊢
    dsimp only
    rw [h, if_neg Bool.false_ne_true]

def pursueAll (s : ProfileAssembly) : List UInt16 → ProfileAssembly × List Answer
  | [] => (s, [])
  | n :: ns =>
    (((s.pursue n).1.pursueAll ns).1, (s.pursue n).2 ++ ((s.pursue n).1.pursueAll ns).2)

theorem requestOutstanding_eq (s : ProfileAssembly) :
    s.requestOutstanding = s.pursueAll s.outstanding :=
  foldl_collect pursue pursueAll (fun _ => rfl) (fun _ _ _ => rfl) (fun _ _ => rfl) s.outstanding s []

end ProfileAssembly

end Shoreline
