import Shoreline.Proofs.Stuck

/-!
# Jams

Pieces of several packets can fill a receiver until none of these packets fits beside them.  Which
pieces do that is a matter of their sizes alone (`Sender.Jams`).  Every such choice can come about, and
a transfer gets stuck in no other way.

* `jams_of_stuck`           what is there when no packet fits is a jam;
* `Sender.not_jams`         a limit that all packets keep together has no jam;
* `exists_stuck`            every jam can come about;
* `finishes_unless_jammed`  both directions, and what they mean for the packets;
* `two_pieces_stuck`        a jam of two pieces.
-/

namespace Shoreline

/-! ## Choices of pieces -/

namespace Framed
variable {f : Framed} {has : Nat → Bool}

/-- the indices of all bursts of the packet -/
def indices (f : Framed) : List Nat := List.range (f.terminalIndex + 1)

theorem mem_indices {i : Nat} : i ∈ f.indices ↔ i ≤ f.terminalIndex :=
  List.mem_range.trans Nat.lt_succ_iff

/-- the indices of these pieces -/
def chosen (f : Framed) (has : Nat → Bool) : List Nat := (List.range' 1 f.count).filter has

theorem mem_chosen {i : Nat} : i ∈ f.chosen has ↔ (1 ≤ i ∧ i ≤ f.count) ∧ has i = true := by
  rw [chosen, List.mem_filter, List.mem_range'_1, Nat.add_comm, Nat.lt_succ_iff]

theorem share_chosen (f : Framed) (has : Nat → Bool) :
    f.share (fun i => decide (i ∈ f.chosen has)) = f.share has := by
  refine share_congr fun i h₁ h₂ => ?_
  rw [Bool.eq_iff_iff, decide_eq_true_iff, mem_chosen]
  exact and_iff_right ⟨h₁, h₂⟩

end Framed

/-- open packets, and pieces of them that are there, so that none of these packets fits in the limit -/
structure Sender.Jams (s : Sender) (limit : Nat) (opened : Finset Nat) (has : Nat → Nat → Bool) :
    Prop where
  nonempty : opened.Nonempty
  known : ∀ n ∈ opened, n < s.packets.length
  within : ∑ n ∈ opened, s.share n (has n) ≤ limit
  full : ∀ n ∈ opened, limit < ∑ m ∈ opened, s.share m (has m) + s.share n fun i => !has n i

/-- a limit that all packets keep together has no jam -/
theorem Sender.not_jams {s : Sender} {limit : Nat}
    (h : (s.packets.map fun x => x.framed.packet.length).sum ≤ limit) (opened : Finset Nat)
    (has : Nat → Nat → Bool) : ¬ s.Jams limit opened has := by
  intro hjam
  obtain ⟨n, hn⟩ := hjam.nonempty
  have hsize (m : Nat) : s.share m (has m) + s.share m (fun i => !has m i) =
      s.packets[m]?.elim 0 fun x => x.framed.packet.length := by
    rw [share, share]
    cases s.packets[m]? with
    | none => rfl
    | some x => exact x.framed.share_add_not (has m)
  have hrest : s.share n (fun i => !has n i) ≤ ∑ m ∈ opened, s.share m fun i => !has m i :=
    Finset.single_le_sum (f := fun m => s.share m fun i => !has m i) (fun _ _ => Nat.zero_le _) hn
  have hopened : ∑ m ∈ opened, (s.packets[m]?.elim 0 fun x => x.framed.packet.length) ≤
      ∑ m ∈ Finset.range s.packets.length,
        (s.packets[m]?.elim 0 fun x => x.framed.packet.length) :=
    Finset.sum_le_sum_of_subset fun m hm => Finset.mem_range.mpr (hjam.known m hm)
  have htotal : ∑ m ∈ Finset.range s.packets.length,
      (s.packets[m]?.elim 0 fun x => x.framed.packet.length) =
        (s.packets.map fun x => x.framed.packet.length).sum :=
    congrArg List.sum
      (map_range_getElem? (fun o => o.elim 0 fun x => x.framed.packet.length) s.packets)
  have hfull := hjam.full n hn
  simp only [← hsize, Finset.sum_add_distrib] at hopened htotal
  omega

namespace Receiver
open ProfileAssembly PacketAssembly

variable {S : Shipment} {sc : SenderConfig} {t : Nat} {rc : ReceiverConfig} {start : Nat}
  {r r' : Receiver} {n : UInt16} {k : BurstKind} {q : Parcel}

/-! ## Stuck receivers are jammed -/

/-- the numbers of the open packets -/
def opened (r : Receiver) (S : Shipment) : Finset Nat :=
  (Finset.range S.parcels.length).filter fun n => r.holds S.key n = false

theorem buffered_eq_shares (hu : Underway S rc r) :
    r.buffered = ∑ n ∈ r.opened S, (S.sender sc t).share n (r.hasPiece S.key n) := by
  rw [hu.buffered_eq, opened, Finset.sum_filter]
  refine Finset.sum_congr rfl fun n hn => ?_
  have hq := List.getElem?_eq_getElem (Finset.mem_range.mp hn)
  have hnumber := (Shipment.toNat_lt hq).2
  split
  · rw [Shipment.share_sender hq]
    exact buffered_of_contents (hu.tuned.contents _) (hnumber.symm ▸ hq)
  · next hheld => exact hu.spent _ (by rwa [Bool.not_eq_false] at hheld)

theorem fits_iff (hu : Underway S rc r) {n : Nat} (hq : S.parcels[n]? = some q) :
    r.Fits (S.sender sc t) n ↔ r.holds S.key n = false ∧
      r.buffered + q.framed.packet.length ≤
        r.config.mostBuffered + ((r.assembly S.key).packet (UInt16.ofNat n)).buffered := by
  have hnumber := (Shipment.toNat_lt hq).2
  have hthere : ((r.assembly S.key).packet (UInt16.ofNat n)).buffered =
      q.framed.share (r.hasPiece S.key n) :=
    buffered_of_contents (hu.tuned.contents _) (hnumber.symm ▸ hq)
  have hrest : (S.sender sc t).share n (fun i => !r.hasPiece S.key n i) =
      q.framed.share fun i => !r.hasPiece S.key n i := Shipment.share_sender hq _
  have hsum := q.framed.share_add_not (r.hasPiece S.key n)
  refine and_congr_right fun _ => ?_
  show r.buffered + (S.sender sc t).share n (fun i => !r.hasPiece S.key n i) ≤ _ ↔ _
  rw [hrest, hthere]
  omega

theorem roomy_of_fits (hu : Underway S rc r) {n : Nat} (hq : S.parcels[n]? = some q)
    (h : r.Fits (S.sender sc t) n) : Roomy S (UInt16.ofNat n) q r :=
  fun _ => ((fits_iff hu hq).mp h).2

theorem length_packets : (S.sender sc t).packets.length = S.parcels.length := List.length_map _

theorem stuck_of_not_fits (hu : Underway S rc r)
    (h : ∀ n < (S.sender sc t).packets.length, ¬ r.Fits (S.sender sc t) n) : Stuck S r := by
  intro n q hq hopen
  have hlt := (List.getElem?_eq_some_iff.mp hq).1
  have hnot := h n.toNat (length_packets ▸ hlt)
  rw [fits_iff hu hq, holds, UInt16.ofNat_toNat] at hnot
  exact Nat.not_le.mp fun hle => hnot ⟨hopen, hle⟩

/-- what is there when no packet fits is a jam -/
theorem jams_of_stuck (hu : Underway S rc r)
    (hopen : ∃ n < (S.sender sc t).packets.length, r.holds S.key n = false)
    (h : ∀ n < (S.sender sc t).packets.length, ¬ r.Fits (S.sender sc t) n) :
    (S.sender sc t).Jams r.config.mostBuffered (r.opened S) (r.hasPiece S.key) := by
  rw [length_packets] at hopen h
  have hmem {n : Nat} : n ∈ r.opened S ↔ n < S.parcels.length ∧ r.holds S.key n = false := by
    rw [opened, Finset.mem_filter, Finset.mem_range]
  refine ⟨?_, fun n hn => ?_, ?_, fun n hn => ?_⟩
  · obtain ⟨n, hlt, hn⟩ := hopen
    exact ⟨n, hmem.mpr ⟨hlt, hn⟩⟩
  · rw [length_packets]
    exact (hmem.mp hn).1
  · rw [← buffered_eq_shares hu]
    exact hu.buffered_le
  · rw [← buffered_eq_shares hu]
    obtain ⟨hlt, hheld⟩ := hmem.mp hn
    exact Nat.not_le.mp fun hle => h n hlt ⟨hheld, hle⟩

/-! ## Every jam can come about -/

/-- bursts of the shipment have made this of a new receiver -/
def Came (S : Shipment) (sc : SenderConfig) (t : Nat) (rc : ReceiverConfig) (start : Nat)
    (r : Receiver) : Prop :=
  ∃ ws, (∀ w ∈ ws, w ∈ (S.sender sc t).drain.1) ∧ (new rc start).takeAll ws start = r

theorem Came.underway (h : Came S sc t rc start r) (hl : S.limit ≤ rc.mostPayload) :
    Underway S rc r := by
  obtain ⟨ws, hws, rfl⟩ := h
  exact underway_of_reaches hl (reaches_takeAll hws .refl start)

/-- these bursts of a packet, all at one time -/
def takeIndices (r : Receiver) (f : Framed) (is : List Nat) (now : Nat) : Receiver :=
  r.takeBursts f (is.map fun i => (i, now))

theorem Came.takeIndices (h : Came S sc t rc start r) (hq : S.parcels[n.toNat]? = some q)
    {is : List Nat} (his : ∀ i ∈ is, i ≤ q.framed.terminalIndex) :
    Came S sc t rc start (r.takeIndices q.framed is start) := by
  obtain ⟨ws, hws, rfl⟩ := h
  refine ⟨ws ++ is.map fun i => (q.framed.render? i).getD [], fun w hw => ?_, ?_⟩
  · rcases List.mem_append.mp hw with hw | hw
    · exact hws w hw
    · obtain ⟨i, hi, rfl⟩ := List.mem_map.mp hw
      obtain ⟨k, hk⟩ := Framed.exists_kind? (Nat.lt_succ_of_le (his i hi))
      rw [Framed.render?_eq hk, Shipment.key_of_parcel hq]
      exact (Sender.mem_drain_new S sc t _).mpr ⟨n, k, ⟨q, i, hq, hk⟩, rfl⟩
  · rw [takeAll_append, Receiver.takeIndices, takeBursts, List.foldl_map]
    exact List.foldl_map

/-- one of the data bursts of a packet comes, when there is room for all that are going to come -/
theorem gathered_handleBurst (ht : Tuned S.supply r) (hq : S.parcels[n.toNat]? = some q) {i : Nat}
    (hk : q.framed.kind? i = some k) (hi₁ : 1 ≤ i) (hi₂ : i ≤ q.framed.count) {js : List Nat}
    (hzero : 0 ∉ js) (h : Gathered q.framed js ((r.assembly S.key).packet n)) {has : Nat → Bool}
    (hhas : ∀ j, decide (j ∈ js ++ [i]) = true → has j = true)
    (hroom : r.buffered + q.framed.share has ≤
      r.config.mostBuffered + ((r.assembly S.key).packet n).buffered) (now : Nat) :
    let r' := Receiver.handleBurst now r ⟨⟨S.key, n⟩, k⟩
    Gathered q.framed (js ++ [i]) ((r'.assembly S.key).packet n) ∧
      r'.buffered + q.framed.share has ≤
        r'.config.mostBuffered + ((r'.assembly S.key).packet n).buffered ∧
      ∀ m, m ≠ n → (r'.assembly S.key).packet m = (r.assembly S.key).packet m := by
  intro r'
  have hcount := (S.sound _ _ hq).count_le
  have htake := h.take hcount hk
  cases hfull : r.lacksRoom k with
  | true =>
    have hr' : r' = { r with burstsReceived := r.burstsReceived + 1, lastBurst := now } :=
      handleBurst_of_lacksRoom now hfull
    have hmem : i ∈ js := by
      have hle : _ ≤ q.framed.share has :=
        Nat.le_trans (Nat.le_of_eq (htake.buffered_eq hcount)) (Framed.share_mono hhas)
      rcases Framed.kind?_cases hk with ⟨rfl, -⟩ | ⟨j, b, rfl, -, rfl⟩ | ⟨rfl, -⟩
      · exact absurd hi₁ (by decide)
      · obtain ⟨d, hd⟩ := (Keyed.contains_iff _ _).mp (contains_of_lacksRoom hle hroom hfull)
        have hcame := (h.get?_eq_some hd).1
        rwa [toNat_index hcount hi₂] at hcame
      · exact absurd hi₂ (Nat.not_succ_le_self _)
    have hsame : ∀ j, j ∈ js ++ [i] ↔ j ∈ js := by
      intro j
      rw [List.mem_append, List.mem_singleton, or_iff_left_of_imp fun hj => hj ▸ hmem]
    rw [hr']
    exact ⟨h.congr hsame, hroom, fun _ _ => rfl⟩
  | false =>
    obtain ⟨hrep, -⟩ := handleBurst_of_room ht ⟨q, i, hq, hk⟩ now hfull
    have hsum : r'.buffered + _ = _ := buffered_handleBurst ht ⟨q, i, hq, hk⟩ now hfull
    have hconfig : r'.config = r.config := (advances_handleBurst ht ⟨q, i, hq, hk⟩ now).config
    -- the announcement has not come, so that the packet is not rebuilt
    have hready : (((r.assembly S.key).packet n).take k).ready = false := by
      rw [Bool.eq_false_iff, Ne, htake.ready_iff hcount]
      intro hall
      have hfirst := hall 0 (Nat.zero_le _)
      rw [mem_concat_of_ne (by omega)] at hfirst
      exact hzero hfirst
    have hreceive : (((r.assembly S.key).packet n).receive n k).1 =
        ((r.assembly S.key).packet n).take k := by
      rw [receive, h.held, if_neg Bool.false_ne_true, hready, if_neg Bool.false_ne_true]
    have hpacket := hrep.packet_eq
    rw [hreceive] at hpacket hsum
    refine ⟨?_, ?_, hrep.packet_ne⟩
    · rw [hpacket]
      exact htake
    · rw [hconfig, hpacket]
      omega

/-- some of the data bursts of a packet come, when there is room for them -/
theorem gathered_takeIndices (ht : Tuned S.supply r) (hl : S.limit ≤ r.reader.mostPayload)
    (hq : S.parcels[n.toNat]? = some q) {is js : List Nat}
    (his : ∀ i ∈ is, 1 ≤ i ∧ i ≤ q.framed.count) (hzero : 0 ∉ js)
    (h : Gathered q.framed js ((r.assembly S.key).packet n))
    (hroom : r.buffered + q.framed.share (fun i => decide (i ∈ js ++ is)) ≤
      r.config.mostBuffered + ((r.assembly S.key).packet n).buffered) (now : Nat) :
    let r' := r.takeIndices q.framed is now
    Gathered q.framed (js ++ is) ((r'.assembly S.key).packet n) ∧
      ∀ m, m ≠ n → (r'.assembly S.key).packet m = (r.assembly S.key).packet m := by
  induction is generalizing r js with
  | nil =>
    rw [List.append_nil]
    exact ⟨h, fun _ _ => rfl⟩
  | cons i is ih =>
    rw [List.append_cons] at hroom ⊢
    obtain ⟨hi₁, hi₂⟩ := his i List.mem_cons_self
    obtain ⟨k, hk⟩ := Framed.exists_kind? (show i < q.framed.count + 2 by omega)
    have hhas (j : Nat) (hj : decide (j ∈ js ++ [i]) = true) :
        decide (j ∈ js ++ [i] ++ is) = true :=
      decide_eq_true (List.mem_append_left _ (of_decide_eq_true hj))
    obtain ⟨h', hroom', hne⟩ := gathered_handleBurst ht hq hk hi₁ hi₂ hzero h hhas hroom now
    have hreader := reader_handleBurst now r ⟨⟨S.key, n⟩, k⟩
    have hzero' : 0 ∉ js ++ [i] := by
      rw [mem_concat_of_ne (by omega)]
      exact hzero
    obtain ⟨hall, hne'⟩ := ih (tuned_handleBurst ht ⟨q, i, hq, hk⟩ now) (hreader ▸ hl)
      (fun j hj => his j (List.mem_cons_of_mem _ hj)) hzero' h' hroom'
    dsimp only
    rw [Receiver.takeIndices, takeBursts, List.map_cons, List.foldl_cons,
      handleInput_render ht hl hq hk]
    exact ⟨hall, fun m hm => (hne' m hm).trans (hne m hm)⟩

/-- these packets have been rebuilt, some pieces of those have come, and nothing of the others -/
def Composed (S : Shipment) (ns parts : Finset Nat) (has : Nat → Nat → Bool) (r : Receiver) : Prop :=
  ∀ m : UInt16,
    if m.toNat ∈ parts then ∀ q, S.parcels[m.toNat]? = some q →
      Gathered q.framed (q.framed.chosen (has m.toNat)) ((r.assembly S.key).packet m)
    else if m.toNat ∈ ns then ((r.assembly S.key).packet m).held = true
    else (r.assembly S.key).packet m = .new

section
variable {ns parts : Finset Nat} {has : Nat → Nat → Bool}

theorem Composed.buffered_eq (h : Composed S ns parts has r) (hu : Underway S rc r)
    (hparts : ∀ m ∈ parts, m < S.parcels.length) (sc : SenderConfig) (t : Nat) :
    r.buffered = ∑ m ∈ parts, (S.sender sc t).share m (has m) := by
  rw [hu.buffered_eq, ← Finset.sum_subset (fun m hm => Finset.mem_range.mpr (hparts m hm))
    fun m hm hnot => ?_]
  · refine Finset.sum_congr rfl fun m hm => ?_
    obtain ⟨m, q, rfl, hq⟩ := Shipment.exists_parcel_of_lt (hparts m hm)
    have hgathered := h m
    rw [if_pos hm] at hgathered
    rw [UInt16.ofNat_toNat, (hgathered q hq).buffered_eq (S.sound _ _ hq).count_le,
      Framed.share_chosen, Shipment.share_sender hq]
  · obtain ⟨m, q, rfl, hq⟩ := Shipment.exists_parcel_of_lt (Finset.mem_range.mp hm)
    have hother := h m
    rw [if_neg hnot] at hother
    rw [UInt16.ofNat_toNat]
    split at hother
    · exact hu.spent _ hother
    · rw [hother]
      rfl

/-- a burst of packet `n` concerns it alone -/
theorem Composed.insert_iff {n m : UInt16} (hne : m ≠ n) {ns : Finset Nat} :
    m.toNat ∈ insert n.toNat ns ↔ m.toNat ∈ ns := by
  rw [Finset.mem_insert, or_iff_right fun he => hne (UInt16.toNat_inj.mp he)]

variable (hl : S.limit ≤ rc.mostPayload)
  (hroom : ∀ (n : Nat) q, S.parcels[n]? = some q → q.framed.packet.length ≤ rc.mostBuffered)
include hl hroom

/-- any packets can have been rebuilt, with nothing there of the others -/
theorem exists_rebuilt (start : Nat) (has : Nat → Nat → Bool) (ns : Finset Nat)
    (hns : ∀ n ∈ ns, n < S.parcels.length) :
    ∃ r, Came S sc t rc start r ∧ Composed S ns ∅ has r := by
  induction ns using Finset.induction_on with
  | empty => exact ⟨new rc start, ⟨[], fun _ hw => absurd hw (by simp), rfl⟩, fun m => rfl⟩
  | @insert n ns hn ih =>
    obtain ⟨r, hr, h⟩ := ih fun m hm => hns m (Finset.mem_insert_of_mem hm)
    have hu := hr.underway hl
    obtain ⟨n, q, rfl, hq⟩ := Shipment.exists_parcel_of_lt (hns n (Finset.mem_insert_self n ns))
    have hroomy : Roomy S n q r := fun _ => by
      rw [h.buffered_eq hu (fun _ hm => absurd hm (by simp)) sc t, Finset.sum_empty, Nat.zero_add,
        hu.config_eq]
      exact Nat.le_add_right_of_le (hroom _ _ hq)
    have his : ∀ i ∈ q.framed.indices, i ≤ q.framed.terminalIndex := fun i => Framed.mem_indices.mp
    have hindices : ∀ x ∈ q.framed.indices.map fun i => (i, start),
        x.1 ≤ q.framed.terminalIndex := List.forall_mem_map.mpr his
    have hheld := hroomy.held hu.tuned hu.limit_le hq hindices fun i hi => by
      rw [List.map_map]
      exact Or.inr (List.mem_map.mpr ⟨i, Framed.mem_indices.mpr hi, rfl⟩)
    obtain ⟨-, -, -, hne⟩ := hroomy.takeBursts hu.tuned hu.limit_le hq hindices
    refine ⟨r.takeIndices q.framed q.framed.indices start, hr.takeIndices hq his, fun m => ?_⟩
    have hm := h m
    rw [if_neg (Finset.notMem_empty _)] at hm ⊢
    by_cases hmn : m = n
    · rw [hmn, if_pos (Finset.mem_insert_self _ _)]
      exact hheld
    · have hsame : ((r.takeIndices q.framed q.framed.indices start).assembly S.key).packet m = _ :=
        hne m hmn
      simp only [Composed.insert_iff hmn, hsame]
      exact hm

/-- and then any pieces of some of the others can have come, if there is room for them -/
theorem exists_composed (start : Nat) (hns : ∀ n ∈ ns, n < S.parcels.length) (parts : Finset Nat)
    (hparts : ∀ n ∈ parts, n < S.parcels.length ∧ n ∉ ns)
    (hwithin : ∑ n ∈ parts, (S.sender sc t).share n (has n) ≤ rc.mostBuffered) :
    ∃ r, Came S sc t rc start r ∧ Composed S ns parts has r := by
  induction parts using Finset.induction_on with
  | empty => exact exists_rebuilt hl hroom start has ns hns
  | @insert n parts hn ih =>
    rw [Finset.sum_insert hn] at hwithin
    have hparts' : ∀ m ∈ parts, m < S.parcels.length ∧ m ∉ ns := fun m hm =>
      hparts m (Finset.mem_insert_of_mem hm)
    obtain ⟨r, hr, h⟩ := ih hparts' (by omega)
    have hu := hr.underway hl
    obtain ⟨hlt, hnot⟩ := hparts n (Finset.mem_insert_self n parts)
    obtain ⟨n, q, rfl, hq⟩ := Shipment.exists_parcel_of_lt hlt
    have hnew := h n
    rw [if_neg hn, if_neg hnot] at hnew
    have his (i : Nat) (hi : i ∈ q.framed.chosen (has n.toNat)) : 1 ≤ i ∧ i ≤ q.framed.count :=
      (Framed.mem_chosen.mp hi).1
    have hfits : r.buffered + q.framed.share (fun i =>
          decide (i ∈ [] ++ q.framed.chosen (has n.toNat))) ≤
        r.config.mostBuffered + ((r.assembly S.key).packet n).buffered := by
      rw [List.nil_append, Framed.share_chosen, ← Shipment.share_sender hq,
        h.buffered_eq hu (fun m hm => (hparts' m hm).1) sc t, hu.config_eq, Nat.add_comm]
      exact Nat.le_add_right_of_le hwithin
    obtain ⟨hgathered, hne⟩ := gathered_takeIndices hu.tuned hu.limit_le hq his (by simp)
      (hnew ▸ gathered_new q.framed) hfits start
    refine ⟨r.takeIndices q.framed (q.framed.chosen (has n.toNat)) start,
      hr.takeIndices hq fun i hi => Nat.le_succ_of_le (his i hi).2, fun m => ?_⟩
    by_cases hmn : m = n
    · rw [hmn, if_pos (Finset.mem_insert_self _ _)]
      intro q' hq'
      obtain rfl := Option.some.inj (hq.symm.trans hq')
      exact hgathered
    · simp only [Composed.insert_iff hmn, hne m hmn]
      exact h m

/-- a jam comes about: what is open is the jam's, and none of it fits -/
theorem exists_stuck (start : Nat) {opened : Finset Nat}
    (h : (S.sender sc t).Jams rc.mostBuffered opened has) :
    ∃ r, Came S sc t rc start r ∧
      (∀ n < (S.sender sc t).packets.length, r.holds S.key n = false ↔ n ∈ opened) ∧
      ∀ n < (S.sender sc t).packets.length, ¬ r.Fits (S.sender sc t) n := by
  have hknown : ∀ n ∈ opened, n < S.parcels.length := fun n hn => length_packets ▸ h.known n hn
  have hothers : ∀ n ∈ Finset.range S.parcels.length \ opened, n < S.parcels.length :=
    fun n hn => Finset.mem_range.mp (Finset.mem_sdiff.mp hn).1
  obtain ⟨r, hr, hcomposed⟩ := exists_composed hl hroom start hothers opened
    (fun n hn => ⟨hknown n hn, fun hmem => (Finset.mem_sdiff.mp hmem).2 hn⟩) h.within
  have hu := hr.underway hl
  have hbuffered := hcomposed.buffered_eq hu hknown sc t
  have hholds (n : Nat) (hn : n < S.parcels.length) : r.holds S.key n = false ↔ n ∈ opened := by
    obtain ⟨n, q, rfl, hq⟩ := Shipment.exists_parcel_of_lt hn
    have hpacket := hcomposed n
    rw [holds, UInt16.ofNat_toNat]
    by_cases hmem : n.toNat ∈ opened
    · rw [if_pos hmem] at hpacket
      exact iff_of_true (hpacket q hq).held hmem
    · rw [if_neg hmem, if_pos (Finset.mem_sdiff.mpr ⟨Finset.mem_range.mpr hn, hmem⟩)] at hpacket
      refine iff_of_false ?_ hmem
      rw [hpacket]
      decide
  rw [length_packets]
  refine ⟨r, hr, hholds, fun n hn hfits => ?_⟩
  have hmem := (hholds n hn).mp hfits.1
  obtain ⟨n, q, rfl, hq⟩ := Shipment.exists_parcel_of_lt hn
  have hpacket := hcomposed n
  rw [if_pos hmem] at hpacket
  have hpart := (hpacket q hq).buffered_eq (S.sound _ _ hq).count_le
  have hsum := q.framed.share_add_not (has n.toNat)
  have hfull := h.full n.toNat hmem
  have hle := ((fits_iff hu hq).mp hfits).2
  rw [Framed.share_chosen] at hpart
  rw [UInt16.ofNat_toNat, hpart, hu.config_eq] at hle
  rw [Shipment.share_sender hq, ← hbuffered] at hfull
  omega

end

/-- a packet that fits is rebuilt when the rest of it comes, and when none fits none ever will be;
unless some choice of pieces is a jam, an open packet always fits, and every jam can come about -/
theorem finishes_unless_jammed [Deflate.Encoder] {p : Profile} {i : Instructions} {pkg : Package}
    {sc : SenderConfig} {t : Nat} {s : Sender} (hserial : p.serial.toNat ≤ 9999)
    (hpkg : p.package i = .ok pkg) (hs : Sender.new pkg sc t = .ok s) {rc : ReceiverConfig}
    (hsize : pkg.burstSize ≤ rc.mostPayload)
    (hroom : ∀ x ∈ s.packets, x.framed.packet.length ≤ rc.mostBuffered) (start : Nat) :
    (∀ r, Reaches s.drain.1 (new rc start) r →
      (∀ n x, s.packets[n]? = some x → r.Fits s n → ∀ is : List (Nat × Nat),
        (∀ y ∈ is, y.1 ≤ x.framed.terminalIndex) →
        (∀ i ≤ x.framed.terminalIndex, r.hasPiece s.key n i = true ∨ i ∈ is.map Prod.fst) →
          (r.takeBursts x.framed is).holds s.key n = true) ∧
      ((∀ n < s.packets.length, ¬ r.Fits s n) →
        ∀ r', Reaches s.drain.1 r r' → ∀ n, r'.holds s.key n = r.holds s.key n)) ∧
    ((∀ opened has, ¬ s.Jams rc.mostBuffered opened has) →
      ∀ r, Reaches s.drain.1 (new rc start) r →
        (∃ n < s.packets.length, r.holds s.key n = false) → ∃ n < s.packets.length, r.Fits s n) ∧
    ∀ opened has, s.Jams rc.mostBuffered opened has →
      ∃ ws, (∀ w ∈ ws, w ∈ s.drain.1) ∧
        let r := (new rc start).takeAll ws start
        (∀ n < s.packets.length, r.holds s.key n = false ↔ n ∈ opened) ∧
          ∀ n < s.packets.length, ¬ r.Fits s n := by
  obtain ⟨S, -, -, -, hlimit, rfl, -⟩ := exists_shipment hserial hpkg hs
  have hl : S.limit ≤ rc.mostPayload := hlimit ▸ hsize
  have hroom' (n : Nat) (q : Parcel) (hq : S.parcels[n]? = some q) :
      q.framed.packet.length ≤ rc.mostBuffered :=
    hroom (.new q.framed) (List.mem_of_getElem? (Shipment.packet_sender.mpr ⟨q, hq, rfl⟩))
  refine ⟨fun r hr => ⟨fun n x hx hfits is his hall => ?_, fun hnone r' hr' n => ?_⟩,
    fun hjams r hr hopen => ?_, fun opened has hjams => ?_⟩
  · have hu := underway_of_reaches hl hr
    obtain ⟨q, hq, rfl⟩ := Shipment.packet_sender.mp hx
    have hnumber := (Shipment.toNat_lt hq).2
    exact (roomy_of_fits hu hq hfits).held hu.tuned hu.limit_le (by rw [hnumber, hq]) his hall
  · have hu := underway_of_reaches hl hr
    exact (stuck_of_reaches hl hr (stuck_of_not_fits hu hnone) hr').2 (UInt16.ofNat n)
  · have hu := underway_of_reaches hl hr
    by_contra hnone
    have hjam := jams_of_stuck hu hopen fun n hn hfits => hnone ⟨n, hn, hfits⟩
    rw [hu.config_eq] at hjam
    exact hjams _ _ hjam
  · obtain ⟨r, ⟨ws, hws, rfl⟩, hopened, hnone⟩ := exists_stuck hl hroom' start hjams
    exact ⟨ws, hws, hopened, hnone⟩

/-- items of two classes, which make two Data Packets of two pieces each -/
def twoClasses : Profile :=
  ⟨770, 12345, .of fun s => .ofText s.name,
    .of fun s => if s = .mcoms then List.replicate 120 2
      else if s = .ocr then List.replicate 128 3 else []⟩

/-- a receiver with room for the largest packet of `twoClasses` -/
def tight : ReceiverConfig := { ReceiverConfig.standard with mostBuffered := 166 }

set_option maxRecDepth 2000 in
/-- the first piece of one Data Packet and the second piece of the other leave no room for anything -/
theorem exists_two_pieces :
    ∃ pkg s ws, twoClasses.package plainPlan = .ok pkg ∧ Sender.new pkg .standard 0 = .ok s ∧
      pkg.burstSize ≤ tight.mostPayload ∧
      (∀ x ∈ s.packets, x.framed.packet.length ≤ tight.mostBuffered) ∧ 0 < s.packets.length ∧
      Reaches s.drain.1 (new tight 0) ((new tight 0).takeAll ws 0) ∧
      ∀ n < s.packets.length, (new tight 0).Fits s n ∧
        ((new tight 0).takeAll ws 0).holds s.key n = false ∧
        ¬ ((new tight 0).takeAll ws 0).Fits s n := by
  have heval : (do
      let pkg ← (twoClasses.package plainPlan).toOption
      let s ← (Sender.new pkg .standard 0).toOption
      let first ← burst? s 2 1
      let second ← burst? s 1 2
      if (∀ x ∈ s.packets, x.framed.packet.length ≤ tight.mostBuffered) ∧
          ∀ n < s.packets.length, (new tight 0).Fits s n ∧
            ((new tight 0).takeAll [first, second] 0).holds s.key n = false ∧
              ¬ ((new tight 0).takeAll [first, second] 0).Fits s n
        then some () else none) = some () := by decide +kernel
  obtain ⟨pkg, hpkg, heval⟩ := Option.bind_eq_some_iff.mp heval
  obtain ⟨s, hs, heval⟩ := Option.bind_eq_some_iff.mp heval
  obtain ⟨first, hfirst, heval⟩ := Option.bind_eq_some_iff.mp heval
  obtain ⟨second, hsecond, heval⟩ := Option.bind_eq_some_iff.mp heval
  have hpkg := toOption_eq_some hpkg
  have hs := toOption_eq_some hs
  have hsize : pkg.burstSize ≤ tight.mostPayload := by
    rw [(Profile.package_eq_ok hpkg).2.2.1]
    decide
  have hpackets : 0 < s.packets.length := by
    obtain ⟨x, hx, -⟩ := Option.bind_eq_some_iff.mp hfirst
    exact Nat.zero_lt_of_lt (List.getElem?_eq_some_iff.mp hx).1
  have hws : ∀ w ∈ [first, second], w ∈ s.drain.1 := by
    intro w hw
    rcases List.mem_pair.mp hw with rfl | rfl
    · exact mem_drain_of_burst? (by decide) hpkg hs hfirst
    · exact mem_drain_of_burst? (by decide) hpkg hs hsecond
  split at heval
  · next h =>
    exact ⟨pkg, s, [first, second], hpkg, hs, hsize, h.1, hpackets, reaches_takeAll hws .refl 0, h.2⟩
  · exact absurd heval (by simp)

/-- each packet alone arrives, but not after two pieces have come: then none will ever be rebuilt -/
theorem two_pieces_for_good :
    ∃ pkg s r, twoClasses.package plainPlan = .ok pkg ∧ Sender.new pkg .standard 0 = .ok s ∧
      pkg.burstSize ≤ tight.mostPayload ∧
      (∀ x ∈ s.packets, x.framed.packet.length ≤ tight.mostBuffered) ∧
      (∀ n x, s.packets[n]? = some x →
        ((new tight 0).takeIndices x.framed x.framed.indices 0).holds s.key n = true) ∧
      Reaches s.drain.1 (new tight 0) r ∧
      (∀ r', Reaches s.drain.1 r r' → ∀ n < s.packets.length, r'.holds s.key n = false) ∧
      ∃ opened has, s.Jams tight.mostBuffered opened has := by
  obtain ⟨pkg, s, ws, hpkg, hs, hsize, hroom, hpackets, hr, hnone⟩ := exists_two_pieces
  obtain ⟨hreached, hjams, -⟩ := finishes_unless_jammed (by decide) hpkg hs hsize hroom 0
  refine ⟨pkg, s, _, hpkg, hs, hsize, hroom, fun n x hx => ?_, hr, fun r' hr' n hn => ?_, ?_⟩
  · have hfits := (hnone n (List.getElem?_eq_some_iff.mp hx).1).1
    refine (hreached _ .refl).1 n x hx hfits _
      (List.forall_mem_map.mpr fun i => Framed.mem_indices.mp) fun i hi => Or.inr ?_
    rw [List.map_map]
    exact List.mem_map.mpr ⟨i, Framed.mem_indices.mpr hi, rfl⟩
  · rw [(hreached _ hr).2 (fun n hn => (hnone n hn).2.2) r' hr' n]
    exact (hnone n hn).2.1
  · by_contra hnot
    obtain ⟨n, hn, hfits⟩ := hjams (fun opened has hjam => hnot ⟨opened, has, hjam⟩) _ hr
      ⟨0, hpackets, (hnone 0 hpackets).2.1⟩
    exact (hnone n hn).2.2 hfits

/-- there are open packets, and none of them fits -/
theorem two_pieces_stuck :
    ∃ pkg s r, twoClasses.package plainPlan = .ok pkg ∧ Sender.new pkg .standard 0 = .ok s ∧
      pkg.burstSize ≤ tight.mostPayload ∧
      (∀ x ∈ s.packets, x.framed.packet.length ≤ tight.mostBuffered) ∧
      Reaches s.drain.1 (new tight 0) r ∧ (∃ n < s.packets.length, r.holds s.key n = false) ∧
      ¬ ∃ n < s.packets.length, r.Fits s n := by
  obtain ⟨pkg, s, ws, hpkg, hs, hsize, hroom, hpackets, hr, hnone⟩ := exists_two_pieces
  refine ⟨pkg, s, _, hpkg, hs, hsize, hroom, hr, ⟨0, hpackets, (hnone 0 hpackets).2.1⟩, ?_⟩
  rintro ⟨n, hn, hfits⟩
  exact (hnone n hn).2.2 hfits

end Receiver

end Shoreline
