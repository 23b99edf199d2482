import Shoreline.Proofs.Shares

/-!
# Packets that fit

A receiver turns a data burst away when its bytes would pass the limit, and it keeps what it has of a
packet until the packet is rebuilt.  A packet of which the rest fits is not affected by that: whatever
is turned away is there already (`Roomy`).  When no open packet fits (`Stuck`), nothing that comes
helps, for each piece that is taken in leaves as much less room as it brings.

* `Roomy.held`         a packet that fits is rebuilt when the rest of it comes;
* `stuck_of_reaches`   when none fits, none ever will be.
-/

namespace Shoreline.Receiver
open ProfileAssembly PacketAssembly

/-- packet `n` was rebuilt -/
def holds (r : Receiver) (key : ProfileKey) (n : Nat) : Bool :=
  ((r.assembly key).packet (UInt16.ofNat n)).held

/-- piece `i` of packet `n` is there -/
def hasPiece (r : Receiver) (key : ProfileKey) (n i : Nat) : Bool :=
  ((r.assembly key).packet (UInt16.ofNat n)).there i

/-- packet `n` is open, and there is room for all of its pieces that are not there -/
def Fits (r : Receiver) (s : Sender) (n : Nat) : Prop :=
  r.holds s.key n = false ∧
    r.buffered + s.share n (fun i => !r.hasPiece s.key n i) ≤ r.config.mostBuffered

instance (r : Receiver) (s : Sender) (n : Nat) : Decidable (r.Fits s n) :=
  inferInstanceAs (Decidable (r.holds s.key n = false ∧
    r.buffered + s.share n (fun i => !r.hasPiece s.key n i) ≤ r.config.mostBuffered))

variable {S : Shipment} {sc : SenderConfig} {t : Nat} {rc : ReceiverConfig} {start : Nat}
  {r r' : Receiver} {n : UInt16} {k : BurstKind} {q : Parcel}

/-! ## A packet that fits -/

/-- packet `n` is held, or there is room for the rest of it -/
def Roomy (S : Shipment) (n : UInt16) (q : Parcel) (r : Receiver) : Prop :=
  ((r.assembly S.key).packet n).held = false →
    r.buffered + q.framed.packet.length ≤
      r.config.mostBuffered + ((r.assembly S.key).packet n).buffered

/-- a piece is turned away although there is room for as much as the packet can have: it is there -/
theorem contains_of_lacksRoom {p : PacketAssembly} {i : UInt16} {b : Bytes} {most : Nat}
    (hmost : (p.take (.data i b)).buffered ≤ most)
    (hroom : r.buffered + most ≤ r.config.mostBuffered + p.buffered)
    (hlacks : r.lacksRoom (.data i b) = true) : p.pieces.contains i = true := by
  by_contra hnot
  have hgrown := buffered_data b (Bool.eq_false_iff.mpr hnot)
  have hover : r.config.mostBuffered < r.buffered + b.length := of_decide_eq_true hlacks
  omega

/-- one more burst of the packet comes -/
theorem Roomy.handleBurst (h : Roomy S n q r) (ht : Tuned S.supply r)
    (hq : S.parcels[n.toNat]? = some q) (hk : S.Has n k) (now : Nat) :
    let r' := Receiver.handleBurst now r ⟨⟨S.key, n⟩, k⟩
    Roomy S n q r' ∧
      ((r.assembly S.key).packet n).Grows ((r'.assembly S.key).packet n) ∧
      ((r'.assembly S.key).packet n).Recorded k ∧
      ∀ m, m ≠ n → (r'.assembly S.key).packet m = (r.assembly S.key).packet m := by
  intro r'
  have hcontents := ht.contents n
  cases hroom : r.lacksRoom k with
  | true =>
    have hr' : r' = { r with burstsReceived := r.burstsReceived + 1, lastBurst := now } :=
      handleBurst_of_lacksRoom now hroom
    rw [hr']
    refine ⟨h, Grows.refl _, ?_, fun _ _ => rfl⟩
    show ((r.assembly S.key).packet n).Recorded k
    cases hheld : ((r.assembly S.key).packet n).held with
    | true => exact Or.inl hheld
    | false =>
      cases k with
      | announce c => exact absurd hroom Bool.false_ne_true
      | terminal => exact absurd hroom Bool.false_ne_true
      | data i b =>
        have hle := buffered_le_of_contents
          (Supply.contents_take hcontents hk (Shipment.not_refused hcontents hk)) hq
        exact Or.inr (contains_of_lacksRoom hle (h hheld) hroom)
  | false =>
    obtain ⟨hrep, -⟩ := handleBurst_of_room ht hk now hroom
    have hsum : r'.buffered + _ = _ := buffered_handleBurst ht hk now hroom
    have hgrows := grows_receive hcontents hk
    have hconfig : r'.config = r.config := (advances_handleBurst ht hk now).config
    refine ⟨fun hopen => ?_, ?_, ?_, hrep.packet_ne⟩
    · rw [hrep.packet_eq] at hopen ⊢
      have hbefore : ((r.assembly S.key).packet n).held = false := by
        rw [Bool.eq_false_iff]
        intro hheld
        exact absurd ((hgrows.held hheld).symm.trans hopen) (by decide)
      have hfits := h hbefore
      rw [hconfig]
      omega
    · rw [hrep.packet_eq]
      exact hgrows
    · rw [hrep.packet_eq]
      exact recorded_receive hcontents hk

/-- any bursts of a packet that fits -/
theorem Roomy.takeBursts (h : Roomy S n q r) (ht : Tuned S.supply r)
    (hl : S.limit ≤ r.reader.mostPayload) (hq : S.parcels[n.toNat]? = some q)
    {is : List (Nat × Nat)} (his : ∀ x ∈ is, x.1 ≤ q.framed.terminalIndex) :
    let r' := r.takeBursts q.framed is
    Tuned S.supply r' ∧
      ((r.assembly S.key).packet n).Grows ((r'.assembly S.key).packet n) ∧
      (∀ x ∈ is, ∀ k, q.framed.kind? x.1 = some k → ((r'.assembly S.key).packet n).Recorded k) ∧
      ∀ m, m ≠ n → (r'.assembly S.key).packet m = (r.assembly S.key).packet m := by
  induction is generalizing r with
  | nil => exact ⟨ht, Grows.refl _, fun x hx => absurd hx (by simp), fun _ _ => rfl⟩
  | cons x is ih =>
    obtain ⟨k, hk⟩ := Framed.exists_kind? (Nat.lt_succ_of_le (his x List.mem_cons_self))
    have hhas : S.Has n k := ⟨q, x.1, hq, hk⟩
    have hinput := handleInput_render ht hl hq hk x.2
    obtain ⟨h', hgrows, hrecorded, hne⟩ := h.handleBurst ht hq hhas x.2
    have hreader := reader_handleBurst x.2 r ⟨⟨S.key, n⟩, k⟩
    obtain ⟨ht', hgrows', hrecorded', hne'⟩ := ih h' (tuned_handleBurst ht hhas x.2)
      (hreader ▸ hl) fun y hy => his y (List.mem_cons_of_mem _ hy)
    dsimp only
    rw [Receiver.takeBursts, List.foldl_cons, hinput]
    refine ⟨ht', hgrows.trans hgrows', fun y hy l hl' => ?_,
      fun m hm => (hne' m hm).trans (hne m hm)⟩
    rcases List.mem_cons.mp hy with rfl | hy
    · obtain rfl := Option.some.inj (hk.symm.trans hl')
      exact hgrows'.recorded _ hrecorded
    · exact hrecorded' y hy l hl'

/-- a packet that fits is rebuilt when all that is not there has come -/
theorem Roomy.held (h : Roomy S n q r) (ht : Tuned S.supply r)
    (hl : S.limit ≤ r.reader.mostPayload) (hq : S.parcels[n.toNat]? = some q)
    {is : List (Nat × Nat)} (his : ∀ x ∈ is, x.1 ≤ q.framed.terminalIndex)
    (hall : ∀ i ≤ q.framed.terminalIndex,
      ((r.assembly S.key).packet n).there i = true ∨ i ∈ is.map Prod.fst) :
    (((r.takeBursts q.framed is).assembly S.key).packet n).held = true := by
  obtain ⟨ht', hgrows, hrecorded, -⟩ := h.takeBursts ht hl hq his
  refine held_of_recorded (ht'.contents n) (ht'.idle n) hq fun i k hk => ?_
  rcases hall i (Framed.le_of_kind? hk) with hi | hi
  · exact hgrows.recorded k (recorded_of_there (ht.contents n) hq hi hk)
  · obtain ⟨x, hx, rfl⟩ := List.mem_map.mp hi
    exact hrecorded x hx k hk

/-! ## When none fits -/

/-- none of the open packets fits -/
def Stuck (S : Shipment) (r : Receiver) : Prop :=
  ∀ (n : UInt16) q, S.parcels[n.toNat]? = some q → ((r.assembly S.key).packet n).held = false →
    r.config.mostBuffered + ((r.assembly S.key).packet n).buffered <
      r.buffered + q.framed.packet.length

theorem Stuck.of_assembly (h : Stuck S r) (hu : Underway S rc r) (hu' : Underway S rc r')
    (ha : r'.assembly S.key = r.assembly S.key) : Stuck S r' := by
  have hbuffered : r'.buffered = r.buffered :=
    (buffered_of_tuned hu'.tuned).trans
      ((congrArg ProfileAssembly.buffered ha).trans (buffered_of_tuned hu.tuned).symm)
  intro n q hq hopen
  rw [ha] at hopen ⊢
  rw [hu'.config_eq, ← hu.config_eq, hbuffered]
  exact h n q hq hopen

/-- a burst for which there is room does not complete its packet -/
theorem Stuck.ready_take (h : Stuck S r) (hu : Underway S rc r) (hk : S.Has n k)
    (hroom : r.lacksRoom k = false) (hopen : ((r.assembly S.key).packet n).held = false) :
    (((r.assembly S.key).packet n).take k).ready = false := by
  rw [Bool.eq_false_iff]
  intro hready
  obtain ⟨q, hq⟩ := S.exists_parcel hk
  have hcontents := hu.tuned.contents n
  have hwhole := buffered_of_hasAll
    (Supply.contents_take hcontents hk (Shipment.not_refused hcontents hk)) hq
    (hasAll_of_ready hready)
  have htake : _ ≤ _ + (Burst.payload ⟨⟨S.key, n⟩, k⟩).length :=
    buffered_take_le ((r.assembly S.key).packet n) k
  have hpayload : _ + (Burst.payload ⟨⟨S.key, n⟩, k⟩).length ≤ _ :=
    payload_le_of_lacksRoom hu.buffered_le hroom
  have hfull := h n q hq hopen
  omega

theorem Stuck.handleBurst (h : Stuck S r) (hu : Underway S rc r) (hk : S.Has n k) (now : Nat)
    (hu' : Underway S rc (Receiver.handleBurst now r ⟨⟨S.key, n⟩, k⟩)) :
    let r' := Receiver.handleBurst now r ⟨⟨S.key, n⟩, k⟩
    Stuck S r' ∧
      ∀ m, ((r'.assembly S.key).packet m).held = ((r.assembly S.key).packet m).held := by
  intro r'
  cases hroom : r.lacksRoom k with
  | true =>
    have hprofiles : r'.profiles = r.profiles := by
      rw [show r' = _ from handleBurst_of_lacksRoom now hroom]
    have ha := assembly_of_profiles hprofiles S.key
    exact ⟨h.of_assembly hu hu' ha, fun m => by rw [ha]⟩
  | false =>
    obtain ⟨hrep, -⟩ := handleBurst_of_room hu.tuned hk now hroom
    have hsum : r'.buffered + _ = _ := buffered_handleBurst hu.tuned hk now hroom
    have hconfig : r'.config = r.config := hu'.config_eq.trans hu.config_eq.symm
    have hcontents := hu.tuned.contents n
    obtain ⟨p, hp⟩ := S.exists_parcel hk
    -- the packet is as it was, or open and with at least as much of it there
    obtain ⟨hheld, hle⟩ : (((r.assembly S.key).packet n).receive n k).1.held =
          ((r.assembly S.key).packet n).held ∧
        ((r.assembly S.key).packet n).buffered ≤
          (((r.assembly S.key).packet n).receive n k).1.buffered := by
      cases hheld : ((r.assembly S.key).packet n).held with
      | true =>
        rw [receive, if_pos hheld]
        exact ⟨hheld, Nat.le_refl _⟩
      | false =>
        rw [receive, hheld, if_neg Bool.false_ne_true, h.ready_take hu hk hroom hheld,
          if_neg Bool.false_ne_true]
        exact ⟨(held_take _ _).trans hheld, buffered_le_take hcontents hp hk⟩
    refine ⟨fun m q hq hopen => ?_, fun m => ?_⟩
    · rw [hconfig]
      by_cases hm : m = n
      · subst hm
        rw [hrep.packet_eq] at hopen ⊢
        have hfull := h m q hq (hheld.symm.trans hopen)
        omega
      · rw [hrep.packet_ne m hm] at hopen ⊢
        have hfull := h m q hq hopen
        omega
    · by_cases hm : m = n
      · rw [hm, hrep.packet_eq, hheld]
      · rw [hrep.packet_ne m hm]

/-- nothing that is asked for is all there -/
theorem Stuck.assembly_pollTimers (h : Stuck S r) (hu : Underway S rc r) (now : Nat) :
    (r.pollTimers now).assembly S.key = r.assembly S.key := by
  have hmissing (m : UInt16) (hopen : ((r.assembly S.key).packet m).held = false) :
      ((r.assembly S.key).packet m).hasAll = false := by
    rw [Bool.eq_false_iff]
    intro hall
    have hcontents := hu.tuned.contents m
    obtain ⟨q, hq, -⟩ := Shipment.bytes_of_hasAll hcontents hall
    have hwhole := buffered_of_hasAll hcontents hq hall
    have hfull := h m q hq hopen
    have hle := hu.buffered_le
    omega
  have hall (ns : List UInt16) : ((r.assembly S.key).pursueAll ns).1 = r.assembly S.key := by
    induction ns with
    | nil => rfl
    | cons m ns ih =>
      have hpursue : ((r.assembly S.key).pursue m).1 = r.assembly S.key := by
        cases hheld : ((r.assembly S.key).packet m).held with
        | true => rw [pursue_of_not_hasAll (Or.inr hheld)]
        | false => rw [pursue_of_not_hasAll (Or.inl ⟨hheld, hmissing m hheld⟩)]
      rw [pursueAll]
      dsimp only
      rw [hpursue, ih]
  by_cases hasks : r.Asks S now
  · rw [(pollTimers_of_asks hu.tuned hasks).1, hall]
  · exact (pollTimers_of_not_asks hu.tuned hasks).1

/-- when no packet fits, none is rebuilt any more, whatever comes -/
theorem stuck_of_reaches (hl : S.limit ≤ rc.mostPayload)
    (hr : Reaches (S.sender sc t).drain.1 (new rc start) r) (h : Stuck S r)
    (hr' : Reaches (S.sender sc t).drain.1 r r') :
    Stuck S r' ∧
      ∀ m, ((r'.assembly S.key).packet m).held = ((r.assembly S.key).packet m).held := by
  have hu {r' : Receiver} (hr' : Reaches (S.sender sc t).drain.1 r r') : Underway S rc r' :=
    underway_of_reaches hl (hr.trans hr')
  induction hr' with
  | refl => exact ⟨h, fun _ => rfl⟩
  | @input r' w now hr' hw ih =>
    obtain ⟨n, k, hk, rfl⟩ := (Sender.mem_drain_new S sc t w).mp hw
    have hinput := handleInput_burst (hu hr').tuned (hu hr').limit_le hk now
    obtain ⟨hstuck, hheld⟩ := ih.1.handleBurst (hu hr') hk now (hinput ▸ hu (hr'.input now hw))
    rw [hinput]
    exact ⟨hstuck, fun m => (hheld m).trans (ih.2 m)⟩
  | @timers r' now hr' ih =>
    have ha := ih.1.assembly_pollTimers (hu hr') now
    exact ⟨ih.1.of_assembly (hu hr') (hu (hr'.timers now)) ha, fun m => by rw [ha, ih.2 m]⟩
  | @emit r' hr' ih =>
    have ha : r'.emit?.2.assembly S.key = r'.assembly S.key :=
      assembly_of_profiles (profiles_emit? r') S.key
    exact ⟨ih.1.of_assembly (hu hr') (hu hr'.emit) ha, fun m => by rw [ha, ih.2 m]⟩

end Shoreline.Receiver
