import Shoreline.Proofs.Rounds

/-!
# The lines of a round

A round of requests says one line about each piece that is absent, or one about the whole packet.
The lines wait as bytes, with three digits for the burst, and a burst announces up to 9999 pieces.  So
a line says what was meant as long as the piece is not behind the 998th: the line for piece 999 asks
for the whole packet, and the line for piece 1001 is the one for piece 1 once more.

* `queue_update`, `emit?_queue`      lines join the queue behind the others and leave it in front;
* `asksOnly_pollTimers`              what a poll does when it comes to a round;
* `Slot.Pursued.mem_of_lacks`, `Slot.Pursued.cases_of_mem`   the lines about one packet;
* `nodup_wires_iff`                  the rounds that say nothing twice;
* `round_asks_for_what_is_missing`   what a round says, and what it leaves.
-/

namespace Shoreline

/-! ## The lines about one packet -/

namespace Slot.Pursued
variable {x x' : Slot} {key : PacketKey} {said : List ControlLine}

/-- a piece that is lacking is asked for -/
theorem mem_of_lacks (h : x.Pursued key x' said) {i : UInt16} (hi : x.assembly.Lacks i) :
    .resendBurst key i ∈ said := by
  obtain ⟨c, hc, hpos, hle⟩ := hi.announced
  have hthere {count : UInt16} (hcount : x.assembly.announced = some count)
      (hall : ∀ i : UInt16, 1 ≤ i.toNat → i ≤ count → x.assembly.pieces.contains i = true) :
      False := by
    obtain rfl := Option.some.inj (hcount.symm.trans hc)
    exact Bool.false_ne_true (hi.pieces.symm.trans (hall i hpos hle))
  cases h with
  | unannounced hnone => exact absurd (hnone.symm.trans hc) (by simp)
  | absent count absent hcount hne hasc hmem =>
    obtain rfl := Option.some.inj (hcount.symm.trans hc)
    exact List.mem_map.mpr ⟨i, (hmem i).mpr ⟨hpos, hle, hi.pieces⟩, rfl⟩
  | rebuilt count q hcount hall hq => exact (hthere hcount hall).elim
  | restarted count hcount hall hq => exact (hthere hcount hall).elim

/-- a line about an open packet is the only one, or asks for a piece that is lacking -/
theorem cases_of_mem (h : x.Pursued key x' said) (hopen : x.assembly.held = false)
    {line : ControlLine} (hline : line ∈ said) :
    said = [line] ∨ ∃ i, x.assembly.Lacks i ∧ line = .resendBurst key i := by
  cases h with
  | unannounced | rebuilt | restarted => exact Or.inl (by rw [List.mem_singleton.mp hline])
  | absent count absent hcount hne hasc hmem =>
    obtain ⟨i, hi, rfl⟩ := List.mem_map.mp hline
    obtain ⟨hpos, hle, hnot⟩ := (hmem i).mp hi
    exact Or.inr ⟨i, ⟨hopen, ⟨count, hcount, hpos, hle⟩, hnot⟩, rfl⟩

end Slot.Pursued

namespace Receiver
open ProfileAssembly

variable {r : Receiver} {key : PacketKey}

/-! ## The queue -/

/-- an update puts its lines behind those that wait -/
theorem queue_update (r : Receiver) (key : ProfileKey) (x : ProfileAssembly × List Answer) :
    (r.update key x).queue = r.queue ++ x.2.map fun a => (a.line key).wire := by
  rw [queue, update, List.map_append, List.map_map]
  rfl

/-- the line that leaves is the first of those that wait -/
theorem emit?_queue (r : Receiver) : r.emit?.1 = r.queue.head? ∧ r.emit?.2.queue = r.queue.tail := by
  rw [emit?, queue]
  split
  · next h => rw [h]; exact ⟨rfl, by rw [queue, h]; rfl⟩
  · next h => rw [h]; exact ⟨rfl, rfl⟩

theorem AsksOnly.queue {r r' : Receiver} {keys : List PacketKey} (h : AsksOnly keys r r') :
    r'.queue = r.queue ++ (keys.flatMap r.asked).map ControlLine.wire := by
  rw [Receiver.queue, h.outbox, List.map_append, List.map_map]
  rfl

/-! ## The lines of a round -/

/-- a poll of a quiet receiver goes through what is outstanding by then -/
theorem asksOnly_pollTimers {r : Receiver} {now : Nat} (hquiet : r.isQuiet now = true)
    (hopen : ((r.pollHeartbeat now).skipStalled now).isComplete = false)
    (hsound : ((r.pollHeartbeat now).skipStalled now).Sound) :
    AsksOnly ((r.pollHeartbeat now).skipStalled now).wanted
      ((r.pollHeartbeat now).skipStalled now) (r.pollTimers now) := by
  obtain ⟨hout, hmem, hnot⟩ := asksOnly_requestOutstanding hsound
  rw [pollTimers_of_isQuiet hquiet]
  dsimp only
  rw [if_neg (Bool.eq_false_iff.mp hopen)]
  exact ⟨hout, hmem, hnot⟩

theorem pursued_asked (r : Receiver) (key : PacketKey) :
    (r.slot key).Pursued key ((r.slot key).pursue key).1 (r.asked key) := Slot.pursued _ _

/-- the packets that are asked for have numbers that fit into a line -/
theorem fits_of_wanted (hr : r.Legible) (hkey : key ∈ r.wanted) :
    key.serial.toNat ≤ 9999 ∧ key.packet.toNat ≤ 9999 := by
  obtain ⟨⟨profile, s⟩, he, hkey⟩ := List.mem_flatMap.mp hkey
  obtain ⟨rfl, -, hn⟩ := mem_wantedOf.mp hkey
  have hs := (r.profiles.mem_entries_iff _ s).mp he
  have hstocked := hr.stocked key.toProfileKey
  rw [assembly_of_get? hs] at hstocked
  refine ⟨hr.serial key.toProfileKey ?_, le_of_outstanding hstocked hn⟩
  rw [Keyed.contains, hs]
  rfl

/-- a line of a round is read as what it tells -/
theorem parse_asked (hr : r.Legible) (hkey : key ∈ r.wanted) {line : ControlLine}
    (hline : line ∈ r.asked key) : ControlLine.parse line.text = .ok line.told := by
  obtain ⟨hserial, hpacket⟩ := fits_of_wanted hr hkey
  rw [← (pursued_asked r key).key_eq hline] at hserial hpacket
  exact ControlLine.parse_told hserial hpacket

/-- in bytes a round says nothing twice when of no packet two pieces are lacking that have the same
last three digits -/
theorem nodup_wires_iff (hr : r.Legible) (hsound : r.Sound) :
    ((r.wanted.flatMap r.asked).map ControlLine.wire).Nodup ↔
      ∀ key ∈ r.wanted, ∀ i j, (r.slot key).assembly.Lacks i → (r.slot key).assembly.Lacks j →
        i.toNat % 1000 = j.toNat % 1000 → i = j := by
  have hwire {k k' : PacketKey} (hk : k ∈ r.wanted) (hk' : k' ∈ r.wanted) {c d : ControlLine}
      (hc : c ∈ r.asked k) (hd : d ∈ r.asked k') : c.wire = d.wire ↔ c.told = d.told := by
    have hfits := fits_of_wanted hr hk
    have hfits' := fits_of_wanted hr hk'
    rw [← (pursued_asked r k).key_eq hc] at hfits
    rw [← (pursued_asked r k').key_eq hd] at hfits'
    exact ControlLine.wire_eq_iff hfits hfits'
  rw [List.nodup_map_iff_inj_on (nodup_asked r)]
  constructor
  · intro hinj key hkey i j hi hj hmod
    have hmem {i : UInt16} (hi : (r.slot key).assembly.Lacks i) : .resendBurst key i ∈ r.asked key :=
      (pursued_asked r key).mem_of_lacks hi
    have htold : (ControlLine.resendBurst key i).told = (ControlLine.resendBurst key j).told :=
      congrArg (fun n => ControlLine.resendBurst key (UInt16.ofNat n)) hmod
    have hsame := hinj _ (List.mem_flatMap.mpr ⟨key, hkey, hmem hi⟩)
      _ (List.mem_flatMap.mpr ⟨key, hkey, hmem hj⟩) ((hwire hkey hkey (hmem hi) (hmem hj)).mpr htold)
    exact congrArg ControlLine.burst hsame
  · intro hall c hc d hd h
    obtain ⟨key, hkey, hc⟩ := List.mem_flatMap.mp hc
    obtain ⟨key', hkey', hd⟩ := List.mem_flatMap.mp hd
    have htold := (hwire hkey hkey' hc hd).mp h
    obtain rfl : key = key' := by
      rw [← (pursued_asked r key).key_eq hc, ← (pursued_asked r key').key_eq hd]
      show c.told.key = d.told.key
      rw [htold]
    have hopen := held_of_wanted hsound hkey
    rcases (pursued_asked r key).cases_of_mem hopen hc with honly | ⟨i, hi, rfl⟩
    · rw [honly] at hd
      exact (List.mem_singleton.mp hd).symm
    · rcases (pursued_asked r key).cases_of_mem hopen hd with honly | ⟨j, hj, rfl⟩
      · rw [honly] at hc
        exact List.mem_singleton.mp hc
      · have hmod := congrArg (fun c => c.burst.toNat) htold
        simp only [ControlLine.toNat_told] at hmod
        rw [hall key hkey i j hi hj hmod]

/-! ## A round -/

/-- A round goes through the packets that are outstanding when it begins, and does to each what it
would do to it alone; no other line is queued and no other packet changes.  When all that came could be
read from bytes, the lines are read back with the last three digits of their bursts: one for piece `i`
says so exactly when `i` is at most 998, and no line is there twice exactly when no two pieces of one
packet are lacking that have these digits in common. -/
theorem round_asks_for_what_is_missing (config : ReceiverConfig) (start : Nat) (acts : List Act)
    (now : Nat) :
    let r := (new config start).run acts
    let before := (r.pollHeartbeat now).skipStalled now
    let after := r.pollTimers now
    r.isQuiet now = true → before.isComplete = false →
    ∃ (keys : List PacketKey) (said : PacketKey → List ControlLine),
      keys.Nodup ∧ (∀ key, key ∈ keys ↔ before.Outstanding key) ∧
      after.queue = before.queue ++ (keys.flatMap said).map ControlLine.wire ∧
      (∀ key ∈ keys, (before.slot key).assembly.held = false ∧
        (before.slot key).Pursued key (after.slot key) (said key)) ∧
      (∀ key, key ∉ keys → after.slot key = before.slot key) ∧
      ((∀ a ∈ acts, a.Meets Burst.Fits) →
        (∀ key ∈ keys, ∀ line ∈ said key, ControlLine.parse line.text = .ok line.told) ∧
        (∀ key ∈ keys, ∀ i, (before.slot key).assembly.Lacks i →
          let line := ControlLine.resendBurst key i
          line ∈ said key ∧
            ((ControlLine.parse line.text = .ok line ∧ line.isWholePacket = false) ↔
              i.toNat ≤ 998)) ∧
        (((keys.flatMap said).map ControlLine.wire).Nodup ↔
          ∀ key ∈ keys, ∀ i j, (before.slot key).assembly.Lacks i →
            (before.slot key).assembly.Lacks j → i.toNat % 1000 = j.toNat % 1000 → i = j)) := by
  intro r before after hquiet hcomplete
  have hsound : before.Sound := by
    obtain ⟨us, -, haccount⟩ : Tells (fun b => b.kind.Numbered) r before :=
      tells_before_round (fun hp => (Burst.of_parse hp).1.numbered) r now
    exact (haccount.course fun _ => id).sound (sound_run config start acts)
  have hasks : AsksOnly before.wanted before after := asksOnly_pollTimers hquiet hcomplete hsound
  refine ⟨before.wanted, before.asked, nodup_wanted before, fun key => mem_wanted_iff hsound,
    hasks.queue, fun key hkey => ⟨held_of_wanted hsound hkey, ?_⟩, hasks.slot_not_mem,
    fun hacts => ?_⟩
  · rw [hasks.slot_mem key hkey]
    exact pursued_asked before key
  · have hlegible : before.Legible := by
      have hfits {m n : Nat} {b : Bytes} {x : Burst} (hp : Burst.parse m b = .ok (some (x, n))) :
          x.Fits := (Burst.of_parse hp).1
      obtain ⟨us, -, hrun⟩ := account_run hfits (new config start) hacts
      obtain ⟨us', -, hround⟩ : Tells Burst.Fits r before := tells_before_round hfits r now
      exact ((hrun.trans hround).founded (legible_new config start)).1
    refine ⟨fun key hkey line => parse_asked hlegible hkey, fun key hkey i hi => ?_,
      nodup_wires_iff hlegible hsound⟩
    obtain ⟨hserial, hpacket⟩ := fits_of_wanted hlegible hkey
    exact ⟨(pursued_asked before key).mem_of_lacks hi,
      ControlLine.parse_resendBurst_iff key hserial hpacket i⟩

/-- Of one profile the Info Packet was not seen, packet 1 is all there and does not decode, packet 2
lacks two of three pieces, and packet 3 was not announced; of the other profile the Info Packet lacks
its terminal burst only. -/
theorem two_profiles_asked_for :
    let key (n : UInt16) : PacketKey := ⟨⟨770, 12345⟩, n⟩
    let info : PacketKey := ⟨⟨771, 12345⟩, 0⟩
    let acts : List Act := [
      .burst ⟨key 1, .announce 1⟩ trivial 1, .burst ⟨key 1, .data 1 [7]⟩ (by decide) 2,
      .burst ⟨key 2, .announce 3⟩ trivial 3, .burst ⟨key 2, .data 2 [8]⟩ (by decide) 4,
      .burst ⟨key 3, .data 1 [9]⟩ (by decide) 5, .burst ⟨info, .announce 1⟩ trivial 6,
      .burst ⟨info, .data 1 (InfoPacket.render ⟨771, 12345, .empty⟩)⟩ (by decide) 7]
    let r := (new .standard 0).run acts
    let before := (r.pollHeartbeat 20000).skipStalled 20000
    let asked : List ControlLine := [.resendPacket (key 0), .resendPacket (key 1),
      .resendBurst (key 2) 1, .resendBurst (key 2) 3, .resendPacket (key 3), .received info]
    r.isQuiet 20000 = true ∧ before.isComplete = false ∧ (∀ a ∈ acts, a.Meets Burst.Fits) ∧
      (∃ (keys : List PacketKey) (said : PacketKey → List ControlLine),
        keys.Nodup ∧ (∀ key, key ∈ keys ↔ before.Outstanding key) ∧
        (r.pollTimers 20000).queue = before.queue ++ (keys.flatMap said).map ControlLine.wire ∧
        .resendBurst (key 2) 3 ∈ said (key 2)) ∧
      (r.pollTimers 20000).queue = Outgoing.heartbeat.wire :: asked.map ControlLine.wire := by
  intro key info acts r before asked
  have hquiet : r.isQuiet 20000 = true := by decide +kernel
  have hcomplete : before.isComplete = false := by decide +kernel
  have hacts : ∀ a ∈ acts, a.Meets Burst.Fits := by
    intro a ha
    simp only [acts, List.mem_cons, List.not_mem_nil, or_false] at ha
    obtain rfl | rfl | rfl | rfl | rfl | rfl | rfl := ha <;>
      exact ⟨by decide, by decide, by decide +kernel⟩
  have hlacks : (before.slot (key 2)).assembly.Lacks 3 :=
    ⟨by decide +kernel, ⟨3, by decide +kernel, by decide, by decide⟩, by decide +kernel⟩
  have hseen : before.Outstanding (key 2) := by
    have hget : (before.profiles.get? (key 2).toProfileKey).isSome = true := by decide +kernel
    obtain ⟨s, hs⟩ := Option.isSome_iff_exists.mp hget
    refine ⟨s, hs, ?_⟩
    rw [← assembly_of_get? hs]
    exact ⟨by decide +kernel, by decide +kernel, Or.inr (Or.inl (by decide +kernel))⟩
  obtain ⟨keys, said, hkeys, hmem, hqueue, -, -, hread⟩ :=
    round_asks_for_what_is_missing .standard 0 acts 20000 hquiet hcomplete
  obtain ⟨-, hsingle, -⟩ := hread hacts
  obtain ⟨hsaid, -⟩ := hsingle (key 2) ((hmem _).mpr hseen) 3 hlacks
  have hout : (r.pollTimers 20000).outbox = .heartbeat :: asked.map .control := by decide +kernel
  refine ⟨hquiet, hcomplete, hacts, ⟨keys, said, hkeys, hmem, hqueue, hsaid⟩, ?_⟩
  rw [queue, hout]
  rfl

/-- After an announcement of 1001 pieces a round says the line for piece 1 twice, the second time for
piece 1001; the line for piece 999 asks for the whole packet, and that for piece 1000 for burst 0. -/
theorem first_of_1001_asked_for_twice :
    let key : PacketKey := ⟨⟨770, 12345⟩, 1⟩
    let r := (new .standard 0).run [.input (Burst.wire ⟨key, .announce 1001⟩) 0]
    let before := (r.pollHeartbeat 15000).skipStalled 15000
    let round := (r.pollTimers 15000).queue.drop before.queue.length
    r.isQuiet 15000 = true ∧ before.isComplete = false ∧
      (∀ i : UInt16, (before.slot key).assembly.Lacks i ↔ 1 ≤ i.toNat ∧ i.toNat ≤ 1001) ∧
      round = (ControlLine.resendPacket { key with packet := 0 }).wire ::
        (numbersTo 1001).map (fun i => (ControlLine.resendBurst key i).wire) ∧
      (ControlLine.resendBurst key 1001).wire = (ControlLine.resendBurst key 1).wire ∧
      ¬ round.Nodup ∧ (ControlLine.resendPacket key).wire ∈ round ∧
      ControlLine.parse (ControlLine.resendBurst key 1000).text = .ok (.resendBurst key 0) := by
  intro key r before round
  have hlacks (i : UInt16) :
      (before.slot key).assembly.Lacks i ↔ 1 ≤ i.toNat ∧ i.toNat ≤ 1001 := by
    have hopen : (before.slot key).assembly.held = false := by decide +kernel
    have hcount : (before.slot key).assembly.announced = some 1001 := by decide +kernel
    have hnone : (before.slot key).assembly.pieces.entries = [] := by decide +kernel
    constructor
    · rintro ⟨-, ⟨c, hc, hpos, hle⟩, -⟩
      obtain rfl := Option.some.inj (hcount.symm.trans hc)
      exact ⟨hpos, UInt16.le_iff_toNat_le.mp hle⟩
    · rintro ⟨hpos, hle⟩
      refine ⟨hopen, ⟨1001, hcount, hpos, UInt16.le_iff_toNat_le.mpr hle⟩, ?_⟩
      rw [Keyed.contains, Keyed.get?, hnone]
      rfl
  have hbefore : before.outbox = [.heartbeat] := by decide +kernel
  have hout : (r.pollTimers 15000).outbox = .heartbeat ::
      .control (.resendPacket { key with packet := 0 }) ::
        (numbersTo 1001).map (fun i => .control (.resendBurst key i)) := by
    decide +kernel
  have hround : round = (ControlLine.resendPacket { key with packet := 0 }).wire ::
      (numbersTo 1001).map (fun i => (ControlLine.resendBurst key i).wire) := by
    show List.drop (before.outbox.map _).length ((r.pollTimers 15000).outbox.map _) = _
    rw [hbefore, hout]
    simp only [List.map_cons, List.map_nil, List.length_singleton, List.drop_one, List.tail_cons,
      List.map_map]
    rfl
  have hmem {i : UInt16} (h : 1 ≤ i.toNat ∧ i.toNat ≤ 1001) : i ∈ numbersTo 1001 :=
    mem_numbersTo.mpr h
  have hfits : key.serial.toNat ≤ 9999 ∧ key.packet.toNat ≤ 9999 := by decide
  have hsame : (ControlLine.resendBurst key 1001).wire = (ControlLine.resendBurst key 1).wire :=
    (ControlLine.wire_eq_iff hfits hfits).mpr (by decide)
  refine ⟨by decide +kernel, by decide +kernel, hlacks, hround, hsame, ?_, ?_,
    ControlLine.parse_resendBurst key hfits.1 hfits.2 1000⟩
  · rw [hround]
    intro h
    have hinj := List.inj_on_of_nodup_map (List.nodup_cons.mp h).2
    exact absurd (hinj (hmem (by decide)) (hmem (by decide)) hsame) (by decide)
  · rw [hround]
    exact List.mem_cons_of_mem _ (List.mem_map.mpr ⟨999, hmem (by decide), rfl⟩)

end Receiver

end Shoreline
