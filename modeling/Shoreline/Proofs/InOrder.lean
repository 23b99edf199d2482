import Shoreline.Proofs.Replies

/-!
# Bursts that come in order

When every burst of a shipment comes once and in order, at most one packet is open at a time: it has
its first bursts and nothing else (`HasFirst`), and those before it are held, with nothing kept for
them.  So room for the largest packet is enough, and all that is said is that each packet is held.

* `hasFirst_take`, `receive_terminal`   one more burst, and the last one;
* `filled_takeAll`   the first bursts of a packet;
* `takeAll_wires`    all bursts of a packet;
* `through_takeAll`  all bursts of the first packets, one packet after the other.
-/

namespace Shoreline

/-! ## The bursts of a packet -/

namespace Framed
variable {f : Framed} {i : Nat} {k : BurstKind}

theorem kind?_ne_terminal (h : i ≤ f.count) (hk : f.kind? i = some k) : k ≠ .terminal := by
  rcases kind?_cases hk with ⟨-, rfl⟩ | ⟨j, b, -, -, rfl⟩ | ⟨rfl, -⟩
  · simp
  · simp
  · exact absurd h (Nat.not_succ_le_self _)

/-- the bursts of the packet in order, from the announcing to the terminal one -/
def wires (f : Framed) : List Bytes := (List.range (f.count + 2)).filterMap f.render?

theorem map_render? (f : Framed) : (List.range (f.count + 2)).map f.render? = f.wires.map some := by
  rw [wires, List.map_filterMap, eq_comm, List.filterMap_eq_map_iff_forall_eq_some]
  intro i hi
  obtain ⟨k, hk⟩ := exists_kind? (List.mem_range.mp hi)
  rw [render?_eq hk]
  rfl

end Framed

/-! ## One packet -/

namespace PacketAssembly

/-- the first `j` bursts have come and nothing else, and the terminal one is not among them -/
structure HasFirst (f : Framed) (j : Nat) (p : PacketAssembly) : Prop where
  isOpen : p.held = false
  unseen : p.terminalSeen = false
  got : ∀ i k, i < j → f.kind? i = some k → p.Got k
  below : ∀ i, p.pieces.contains i = true → i.toNat < j

theorem hasFirst_new (f : Framed) : HasFirst f 0 .new :=
  ⟨rfl, rfl, fun i _ hi => absurd hi (Nat.not_lt_zero i), fun _ hi => absurd hi Bool.false_ne_true⟩

variable {S : Shipment} {n : UInt16} {p : PacketAssembly} {q : Parcel} {j : Nat} {k : BurstKind}

theorem toNat_of_data {i : UInt16} {b : Bytes} (hq : S.parcels[n.toNat]? = some q)
    (hk : q.framed.kind? j = some (.data i b)) : i.toNat = j :=
  (Framed.eq_indexOf (S.sound _ _ hq).count_le hk).symm

section
variable (hc : S.supply.Contents n p) (hq : S.parcels[n.toNat]? = some q)
include hc hq

theorem hasFirst_take (h : HasFirst q.framed j p) (hk : q.framed.kind? j = some k)
    (hterminal : k ≠ .terminal) : HasFirst q.framed (j + 1) (p.take k) := by
  have hhas : S.Has n k := ⟨q, j, hq, hk⟩
  have hopen : (p.take k).held = false := (held_take p k).trans h.isOpen
  refine ⟨hopen, ?_, fun i k' hi hk' => ?_, fun i hi => ?_⟩
  · cases k with
    | announce c =>
      rw [take, announce_eq hc hhas]
      exact h.unseen
    | data i b => exact h.unseen
    | terminal => exact absurd rfl hterminal
  · rcases Nat.lt_succ_iff_lt_or_eq.mp hi with hi | rfl
    · exact ((grows_take hc hhas).recorded k' (Or.inr (h.got i k' hi hk'))).got hopen
    · obtain rfl := Option.some.inj (hk.symm.trans hk')
      exact got_take hc hhas
  · cases k with
    | announce c =>
      rw [take, announce_eq hc hhas] at hi
      exact Nat.lt_succ_of_lt (h.below i hi)
    | data m b =>
      by_cases him : i = m
      · rw [him, toNat_of_data hq hk]
        exact Nat.lt_succ_self j
      · rw [take, Keyed.contains_insert_ne _ him] at hi
        exact Nat.lt_succ_of_lt (h.below i hi)
    | terminal => exact absurd rfl hterminal

theorem receive_first (h : HasFirst q.framed j p) (hk : q.framed.kind? j = some k)
    (hterminal : k ≠ .terminal) : p.receive n k = (p.take k, []) := by
  have hready : (p.take k).ready = false := by
    rw [ready, (hasFirst_take hc hq h hk hterminal).unseen, Bool.and_false, Bool.false_and]
  rw [receive, h.isOpen, if_neg Bool.false_ne_true, hready, if_neg Bool.false_ne_true,
    if_neg hterminal]

/-- the terminal burst completes the packet -/
theorem receive_terminal (h : HasFirst q.framed (q.framed.count + 1) p) :
    p.receive n .terminal = ((p.take .terminal).hold, [.rebuilt n]) := by
  have hall : p.hasAll = true := by
    refine hasAll_of_recorded hc h.isOpen hq fun i k hk hterminal => Or.inr (h.got i k ?_ hk)
    rcases Framed.kind?_cases hk with ⟨rfl, -⟩ | ⟨i', b, rfl, hb, -⟩ | ⟨-, he⟩
    · exact Nat.succ_pos _
    · exact Nat.succ_lt_succ (List.getElem?_eq_some_iff.mp hb).1
    · exact absurd he hterminal
  have hready : (p.take .terminal).ready = true := by
    rw [ready, held_take, h.isOpen, hasAll_terminal, hall]
    rfl
  rw [receive, h.isOpen, if_neg Bool.false_ne_true, if_pos hready]

/-- a packet that has its first bursts has room for the piece that comes next -/
theorem buffered_first (h : HasFirst q.framed j p) {i : UInt16} {b : Bytes}
    (hk : q.framed.kind? j = some (.data i b)) :
    p.buffered + b.length ≤ q.framed.packet.length := by
  have hhas : S.Has n (.data i b) := ⟨q, j, hq, hk⟩
  have hnot : p.pieces.contains i = false := by
    refine Bool.eq_false_iff.mpr fun hi => ?_
    have := h.below i hi
    rw [toNat_of_data hq hk] at this
    exact absurd this (Nat.lt_irrefl j)
  rw [← buffered_data b hnot]
  exact ProfileAssembly.buffered_le_of_contents
    (Supply.contents_take hc hhas (Shipment.not_refused hc hhas)) hq

end

end PacketAssembly

/-- nothing is kept but for one packet -/
theorem ProfileAssembly.buffered_eq {s : ProfileAssembly} {n : UInt16}
    (h : ∀ m, m ≠ n → (s.packet m).buffered = 0) : s.buffered = (s.packet n).buffered := by
  have hzero : (s.put n .new).buffered = 0 := by
    rw [buffered, List.sum_eq_zero_iff_forall_eq_nat]
    intro b hb
    obtain ⟨p, hp, rfl⟩ := List.mem_map.mp hb
    obtain ⟨⟨m, p'⟩, hmem, rfl⟩ := List.mem_map.mp hp
    have hpacket : (s.put n .new).packet m = p' := by
      rw [packet, (Keyed.mem_entries_iff _ _ _).mp hmem]
      rfl
    rw [← hpacket]
    by_cases hm : m = n
    · rw [hm, packet_put]
      rfl
    · rw [packet_put_ne s n hm]
      exact h m hm
  have hsum := s.buffered_put n .new
  rw [hzero, Nat.zero_add] at hsum
  exact hsum.symm

/-! ## A receiver -/

namespace Receiver
open ProfileAssembly PacketAssembly

variable {S : Shipment} {n : UInt16} {q : Parcel} {r r' : Receiver} {j : Nat} {k : BurstKind}

/-- the receiver still hears nothing but the shipment, through the same reader -/
structure Stays (S : Shipment) (r r' : Receiver) : Prop where
  tuned : Tuned S.supply r'
  reader : r'.reader = r.reader
  config : r'.config = r.config

/-- the receiver after the first `j` bursts of packet `n`, which say nothing yet -/
structure Filled (S : Shipment) (n : UInt16) (q : Parcel) (j : Nat) (r r' : Receiver) : Prop
    extends Stays S r r' where
  outbox : r'.outbox = r.outbox
  packet : ((r'.assembly S.key).packet n).HasFirst q.framed j
  others : ∀ m, m ≠ n → (r'.assembly S.key).packet m = (r.assembly S.key).packet m

theorem Filled.contents (h : Filled S n q j r r') :
    S.supply.Contents n ((r'.assembly S.key).packet n) := h.tuned.stocked.contents n

theorem takeAll_succ (hq : S.parcels[n.toNat]? = some q) (hk : q.framed.kind? j = some k)
    (r : Receiver) (now : Nat) :
    r.takeAll ((List.range (j + 1)).filterMap q.framed.render?) now =
      (r.takeAll ((List.range j).filterMap q.framed.render?) now).handleInput
        (Burst.wire ⟨⟨S.key, n⟩, k⟩) now := by
  rw [List.range_succ, List.filterMap_append, takeAll_append, List.filterMap_cons,
    Framed.render?_eq hk, Shipment.key_of_parcel hq]
  rfl

section
variable (hroom : q.framed.packet.length ≤ r.config.mostBuffered)
  (hq : S.parcels[n.toNat]? = some q)
  (hothers : ∀ m, m ≠ n → ((r.assembly S.key).packet m).buffered = 0)
include hroom hq hothers

theorem Filled.lacksRoom (h : Filled S n q j r r') (hk : q.framed.kind? j = some k) :
    r'.lacksRoom k = false := by
  cases k with
  | announce c => rfl
  | terminal => rfl
  | data i b =>
    have hbuffered := buffered_first h.contents hq h.packet hk
    have hsum := ProfileAssembly.buffered_eq (s := r'.assembly S.key) (n := n) fun m hm => by
      rw [h.others m hm]
      exact hothers m hm
    have htotal : r'.buffered = (r'.assembly S.key).buffered := buffered_of_tuned h.tuned
    rw [Receiver.lacksRoom, decide_eq_false_iff_not, Nat.not_lt, htotal, hsum, h.config]
    exact Nat.le_trans hbuffered hroom

variable (hl : S.limit ≤ r.reader.mostPayload)
include hl

/-- a burst that comes next is taken in as it is -/
theorem Filled.handleInput (h : Filled S n q j r r') (hk : q.framed.kind? j = some k)
    (now : Nat) :
    let r'' := r'.handleInput (Burst.wire ⟨⟨S.key, n⟩, k⟩) now
    Stays S r r'' ∧
      (r''.assembly S.key).packet n = (((r'.assembly S.key).packet n).receive n k).1 ∧
      (∀ m, m ≠ n → (r''.assembly S.key).packet m = (r.assembly S.key).packet m) ∧
      r''.outbox = r.outbox ++ (((r'.assembly S.key).packet n).receive n k).2.map
        fun a => .control (a.line S.key) := by
  have hhas : S.Has n k := ⟨q, j, hq, hk⟩
  have hwire := handleInput_burst h.tuned (h.reader ▸ hl) hhas now
  obtain ⟨hrep, hout⟩ := handleBurst_of_room h.tuned hhas now
    (h.lacksRoom hroom hq hothers hk)
  intro r''
  have hr'' : r'' = handleBurst now r' ⟨⟨S.key, n⟩, k⟩ := hwire
  rw [hr'']
  exact ⟨⟨tuned_handleBurst h.tuned hhas now, (reader_handleBurst _ _ _).trans h.reader,
    (advances_handleBurst h.tuned hhas now).config.trans h.config⟩, hrep.packet_eq,
    fun m hm => (hrep.packet_ne m hm).trans (h.others m hm), by rw [hout, h.outbox]⟩

theorem filled_takeAll (ht : Tuned S.supply r) (hnew : (r.assembly S.key).packet n = .new)
    (hj : j ≤ q.framed.count + 1) (now : Nat) :
    Filled S n q j r (r.takeAll ((List.range j).filterMap q.framed.render?) now) := by
  induction j with
  | zero => exact ⟨⟨ht, rfl, rfl⟩, rfl, hnew ▸ hasFirst_new q.framed, fun _ _ => rfl⟩
  | succ j ih =>
    have h := ih (Nat.le_of_succ_le hj)
    obtain ⟨k, hk⟩ := Framed.exists_kind? (Nat.lt_succ_of_le (Nat.le_of_succ_le hj))
    have hterminal := Framed.kind?_ne_terminal (Nat.le_of_succ_le_succ hj) hk
    obtain ⟨hstays, hpacket, hrest, hout⟩ := h.handleInput hroom hq hothers hl hk now
    rw [receive_first h.contents hq h.packet hk hterminal] at hpacket hout
    rw [takeAll_succ hq hk]
    exact ⟨hstays, hout.trans (List.append_nil _),
      hpacket ▸ hasFirst_take h.contents hq h.packet hk hterminal, hrest⟩

/-- all bursts of a packet leave it held, and say so once -/
theorem takeAll_wires (ht : Tuned S.supply r) (hnew : (r.assembly S.key).packet n = .new)
    (now : Nat) :
    let r' := r.takeAll q.framed.wires now
    Stays S r r' ∧ r'.outbox = r.outbox ++ [.control (.received ⟨S.key, n⟩)] ∧
      ((r'.assembly S.key).packet n).held = true ∧
      ((r'.assembly S.key).packet n).buffered = 0 ∧
      ∀ m, m ≠ n → (r'.assembly S.key).packet m = (r.assembly S.key).packet m := by
  have h := filled_takeAll hroom hq hothers hl ht hnew (Nat.le_refl _) now
  have hk := q.framed.kind?_terminal
  obtain ⟨hstays, hpacket, hrest, hout⟩ := h.handleInput hroom hq hothers hl hk now
  rw [receive_terminal h.contents hq h.packet] at hpacket hout
  intro r'
  have hr' : r' = _ := takeAll_succ hq hk r now
  rw [hr', hpacket]
  exact ⟨hstays, hout, rfl, rfl, hrest⟩

end

/-! ## Packet after packet -/

/-- the receiver after the first `m` packets: they are held and said to be, and of the others nothing
has come -/
structure Through (S : Shipment) (m : Nat) (r r' : Receiver) : Prop extends Stays S r r' where
  outbox : r'.outbox = r.outbox ++
    (List.range m).map fun n => .control (.received ⟨S.key, UInt16.ofNat n⟩)
  before : ∀ n : UInt16, n.toNat < m →
    ((r'.assembly S.key).packet n).held = true ∧ ((r'.assembly S.key).packet n).buffered = 0
  after : ∀ n : UInt16, m ≤ n.toNat → (r'.assembly S.key).packet n = .new

theorem through_new (S : Shipment) (rc : ReceiverConfig) (t : Nat) :
    Through S 0 (.new rc t) (.new rc t) where
  tuned := tuned_new S.supply rc t
  reader := rfl
  config := rfl
  outbox := rfl
  before _ hn := absurd hn (Nat.not_lt_zero _)
  after _ _ := rfl

theorem Through.next {m : Nat} (h : Through S m r r') (hl : S.limit ≤ r.reader.mostPayload)
    (hroom : q.framed.packet.length ≤ r.config.mostBuffered) (hq : S.parcels[m]? = some q)
    (now : Nat) : Through S (m + 1) r (r'.takeAll q.framed.wires now) := by
  have hm : (UInt16.ofNat m).toNat = m := (Shipment.toNat_lt hq).2
  have hothers : ∀ n, n ≠ UInt16.ofNat m → ((r'.assembly S.key).packet n).buffered = 0 := by
    intro n _
    rcases Nat.lt_or_ge n.toNat m with hlt | hge
    · exact (h.before n hlt).2
    · rw [h.after n hge]
      rfl
  obtain ⟨⟨htuned, hreader, hconfig⟩, hout, hheld, hbuffered, hrest⟩ :=
    takeAll_wires (h.config ▸ hroom) (hm.symm ▸ hq) hothers (h.reader ▸ hl) h.tuned
      (h.after _ (Nat.le_of_eq hm.symm)) now
  refine ⟨⟨htuned, hreader.trans h.reader, hconfig.trans h.config⟩, ?_, fun n hn => ?_,
    fun n hn => ?_⟩
  · rw [hout, h.outbox, List.range_succ, List.map_append, List.append_assoc]
    rfl
  · by_cases hne : n = UInt16.ofNat m
    · rw [hne]
      exact ⟨hheld, hbuffered⟩
    · rw [hrest n hne]
      refine h.before n (Nat.lt_of_le_of_ne (Nat.le_of_lt_succ hn) fun he => hne ?_)
      rw [← he, UInt16.ofNat_toNat]
  · rw [hrest n fun he => by rw [he, hm] at hn; exact Nat.not_succ_le_self m hn]
    exact h.after n (Nat.le_of_succ_le hn)

theorem through_takeAll (hl : S.limit ≤ r.reader.mostPayload)
    (hroom : ∀ q ∈ S.parcels, q.framed.packet.length ≤ r.config.mostBuffered)
    (h : Through S 0 r r) (now : Nat) {m : Nat} (hm : m ≤ S.parcels.length) :
    Through S m r (r.takeAll ((S.parcels.take m).flatMap fun q => q.framed.wires) now) := by
  induction m with
  | zero => exact h
  | succ m ih =>
    have hq : S.parcels[m]? = some S.parcels[m] := List.getElem?_eq_getElem hm
    have hnext := (ih (Nat.le_of_succ_le hm)).next hl (hroom _ (List.getElem_mem hm)) hq now
    have hwires : (S.parcels.take (m + 1)).flatMap (fun q => q.framed.wires) =
        (S.parcels.take m).flatMap (fun q => q.framed.wires) ++ S.parcels[m].framed.wires := by
      rw [List.take_add_one, hq, List.flatMap_append]
      exact congrArg _ (List.append_nil _)
    rw [hwires, takeAll_append]
    exact hnext

end Receiver

end Shoreline
