import Shoreline.Proofs.Slots

/-!
# Packets and profiles apart

As long as a receiver has room for all that comes, what it has of a packet and what it says about it
follow from the bursts of this packet (`handleBursts_eq`), one after the other
(`Slot.receiveAll`).  So the bursts of other packets and of other profiles can come between them in
any way (`packet_unaffected_by_others`).
-/

namespace Shoreline

/-- what bursts of one packet do to it, one after the other, and what is said -/
def Slot.receiveAll (x : Slot) (key : PacketKey) : List BurstKind → Slot × List Answer
  | [] => (x, [])
  | k :: ks =>
    (((x.receive key k).1.receiveAll key ks).1,
      (x.receive key k).2 ++ ((x.receive key k).1.receiveAll key ks).2)

/-- a line about the packet with this key -/
def Outgoing.names (key : PacketKey) : Outgoing → Bool
  | heartbeat => false
  | control line => line.key = key

/-- answers about a packet of another key do not name this one -/
theorem filter_names_lines (key key' : PacketKey) {as : List Answer}
    (h : ∀ a ∈ as, a.packet = key'.packet) :
    (as.map fun a => Outgoing.control (a.line key'.toProfileKey)).filter (·.names key) =
      if key' = key then as.map fun a => .control (a.line key.toProfileKey) else [] := by
  have hline : ∀ a ∈ as, (a.line key'.toProfileKey).key = key' := by
    intro a ha
    rw [Answer.key_line, h a ha]
  split
  · next he =>
    subst he
    refine List.filter_eq_self.mpr fun o ho => ?_
    obtain ⟨a, ha, rfl⟩ := List.mem_map.mp ho
    exact decide_eq_true (hline a ha)
  · next hne =>
    refine List.filter_eq_nil_iff.mpr fun o ho => ?_
    obtain ⟨a, ha, rfl⟩ := List.mem_map.mp ho
    rw [Outgoing.names, hline a ha, decide_eq_true_iff]
    exact hne

namespace Receiver

/-- takes in bursts, each with the time at which it arrived -/
def handleBursts (r : Receiver) (bs : List (Burst × Nat)) : Receiver :=
  bs.foldl (fun r x => handleBurst x.2 r x.1) r

/-- the payload bytes of all these bursts -/
def carried (bs : List (Burst × Nat)) : Nat := (bs.map fun x => x.1.payload.length).sum

/-- the bursts of one packet -/
def own (key : PacketKey) (bs : List (Burst × Nat)) : List (Burst × Nat) :=
  bs.filter fun x => x.1.key = key

/-- the lines about one packet that wait in the outbox -/
def linesNaming (r : Receiver) (key : PacketKey) : List Outgoing := r.outbox.filter (·.names key)

variable {r : Receiver} {bs bs' : List (Burst × Nat)}

theorem carried_cons (x : Burst × Nat) (bs : List (Burst × Nat)) :
    carried (x :: bs) = x.1.payload.length + carried bs := List.sum_cons

theorem carried_own_le (key : PacketKey) (bs : List (Burst × Nat)) :
    carried (own key bs) ≤ carried bs :=
  (List.filter_sublist.map _).sum_le_sum fun _ _ => Nat.zero_le _

theorem own_own (key : PacketKey) (bs : List (Burst × Nat)) :
    own key (own key bs) = own key bs := by
  rw [own, own, List.filter_filter]
  exact List.filter_congr fun _ _ => Bool.and_self _

theorem own_cons_self (b : Burst) (t : Nat) (bs : List (Burst × Nat)) :
    own b.key ((b, t) :: bs) = (b, t) :: own b.key bs :=
  List.filter_cons_of_pos (decide_eq_true rfl)

theorem own_cons_ne {key : PacketKey} {b : Burst} (h : b.key ≠ key) (t : Nat)
    (bs : List (Burst × Nat)) : own key ((b, t) :: bs) = own key bs :=
  List.filter_cons_of_neg (by simpa using h)

/-- with room for all of it, what comes does to a packet what its own bursts do -/
theorem handleBursts_eq (h : r.Orderly) (hroom : r.buffered + carried bs ≤ r.config.mostBuffered)
    (key : PacketKey) :
    (r.handleBursts bs).slot key =
        ((r.slot key).receiveAll key ((own key bs).map (·.1.kind))).1 ∧
      (r.handleBursts bs).linesNaming key = r.linesNaming key ++
        ((r.slot key).receiveAll key ((own key bs).map (·.1.kind))).2.map
          fun a => .control (a.line key.toProfileKey) := by
  induction bs generalizing r with
  | nil => exact ⟨rfl, (List.append_nil _).symm⟩
  | cons x bs ih =>
    obtain ⟨b, t⟩ := x
    rw [carried_cons] at hroom
    dsimp only at hroom
    have htakes := takes_handleBurst h (lacksRoom_of_le (b := b) (by omega)) t
    have hroom' : (handleBurst t r b).buffered + carried bs ≤
        (handleBurst t r b).config.mostBuffered := by
      have := htakes.buffered_le
      rw [htakes.config]
      omega
    obtain ⟨hslot, hlines⟩ := ih htakes.orderly hroom'
    have hline : (handleBurst t r b).linesNaming key = r.linesNaming key ++
        if b.key = key then ((r.slot b.key).receive b.key b.kind).2.map
          fun a => .control (a.line key.toProfileKey) else [] := by
      rw [linesNaming, htakes.outbox, List.filter_append,
        filter_names_lines key b.key fun a ha => Slot.packet_of_receive ha, linesNaming]
    rw [hline] at hlines
    rw [show r.handleBursts ((b, t) :: bs) = (handleBurst t r b).handleBursts bs from rfl, hslot,
      hlines]
    by_cases hkey : b.key = key
    · subst hkey
      rw [own_cons_self, htakes.slot_eq, if_pos rfl, List.map_cons, Slot.receiveAll,
        List.map_append, List.append_assoc]
      exact ⟨rfl, rfl⟩
    · rw [own_cons_ne hkey, htakes.slot_ne key (Ne.symm hkey), if_neg hkey, List.append_nil]
      exact ⟨rfl, rfl⟩

theorem handleBursts_new {config : ReceiverConfig} (start : Nat)
    (hroom : carried bs ≤ config.mostBuffered) (key : PacketKey) :
    ((new config start).handleBursts bs).slot key =
        (Slot.empty.receiveAll key ((own key bs).map (·.1.kind))).1 ∧
      ((new config start).handleBursts bs).linesNaming key =
        (Slot.empty.receiveAll key ((own key bs).map (·.1.kind))).2.map
          fun a => .control (a.line key.toProfileKey) := by
  have hbuffered : (new config start).buffered = 0 := rfl
  have hroom' : (new config start).buffered + carried bs ≤ config.mostBuffered := by
    rw [hbuffered, Nat.zero_add]
    exact hroom
  have heq := handleBursts_eq (orderly_new config start) hroom' key
  rwa [slot_new] at heq

/-- what a receiver has of a packet and says about it is the same as with its bursts alone, and as
with any others between them -/
theorem packet_unaffected_by_others (config : ReceiverConfig) (start start' : Nat)
    (bs : List (Burst × Nat)) (hroom : carried bs ≤ config.mostBuffered) (key : PacketKey) :
    (((new config start).handleBursts bs).slot key =
        ((new config start').handleBursts (own key bs)).slot key ∧
      ((new config start).handleBursts bs).linesNaming key =
        ((new config start').handleBursts (own key bs)).linesNaming key) ∧
    ∀ bs', carried bs' ≤ config.mostBuffered →
      (own key bs').map Prod.fst = (own key bs).map Prod.fst →
      ((new config start').handleBursts bs').slot key =
          ((new config start).handleBursts bs).slot key ∧
        ((new config start').handleBursts bs').linesNaming key =
          ((new config start).handleBursts bs).linesNaming key := by
  obtain ⟨hslot, hlines⟩ := handleBursts_new start hroom key
  have halike : ∀ bs', carried bs' ≤ config.mostBuffered →
      (own key bs').map Prod.fst = (own key bs).map Prod.fst →
      ((new config start').handleBursts bs').slot key =
          ((new config start).handleBursts bs).slot key ∧
        ((new config start').handleBursts bs').linesNaming key =
          ((new config start).handleBursts bs).linesNaming key := by
    intro bs' hroom' hown
    obtain ⟨hslot', hlines'⟩ := handleBursts_new start' hroom' key
    have hkinds : (own key bs').map (·.1.kind) = (own key bs).map (·.1.kind) := by
      have := congrArg (List.map Burst.kind) hown
      rwa [List.map_map, List.map_map] at this
    rw [hslot, hlines, hslot', hlines', hkinds]
    exact ⟨rfl, rfl⟩
  obtain ⟨hself, hself'⟩ := halike (own key bs)
    (Nat.le_trans (carried_own_le key bs) hroom) (by rw [own_own])
  exact ⟨⟨hself.symm, hself'.symm⟩, halike⟩

/-- the Info Packet of a profile with no items, in three bursts -/
def emptyInfo (serial : UInt16) : List Burst :=
  [.announce 1, .data 1 (InfoPacket.render ⟨serial, 12345, .empty⟩), .terminal].map
    (⟨⟨⟨serial, 12345⟩, 0⟩, ·⟩)

/-- two profiles, burst by burst in turns, and one after the other -/
theorem profiles_in_turns :
    let key : PacketKey := ⟨⟨770, 12345⟩, 0⟩
    let turns := ((emptyInfo 770).zip (emptyInfo 771)).flatMap fun x => [(x.1, 5), (x.2, 6)]
    let rows := (emptyInfo 771 ++ emptyInfo 770).map fun b => (b, 7)
    let r := (new .standard 0).handleBursts turns
    carried turns ≤ ReceiverConfig.standard.mostBuffered ∧ own key turns ≠ turns ∧
      r.slot key = ((new .standard 3).handleBursts (own key turns)).slot key ∧
      r.linesNaming key = ((new .standard 3).handleBursts (own key turns)).linesNaming key ∧
      ((new .standard 3).handleBursts rows).slot key = r.slot key ∧
      ((new .standard 3).handleBursts rows).linesNaming key = r.linesNaming key ∧
      (r.slot key).stored = some (.info ⟨770, 12345, .empty⟩) ∧
      r.linesNaming key = [.control (.received key)] := by
  intro key turns rows r
  have hroom : carried turns ≤ ReceiverConfig.standard.mostBuffered := by decide +kernel
  obtain ⟨⟨hslot, hlines⟩, halike⟩ := packet_unaffected_by_others .standard 0 3 turns hroom key
  obtain ⟨hslot', hlines'⟩ := halike rows (by decide +kernel) (by decide +kernel)
  exact ⟨hroom, by decide +kernel, hslot, hlines, hslot', hlines', by decide +kernel,
    by decide +kernel⟩

end Receiver

end Shoreline
