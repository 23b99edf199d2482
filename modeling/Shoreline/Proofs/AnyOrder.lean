import Shoreline.Proofs.Gathering

/-!
# One packet in any order

A new receiver takes in the bursts of one framed packet, in any order and any number of times.  The
burst that completes them rebuilds the packet, whichever it is (`Slot.Collected`), and a burst for
which there is no room has come before, so that it is not missed.

* `Slot.Collected.receive`, `Slot.Collected.acknowledged`   what a burst does and what is said;
* `Receiver.Gathers.handleInput`         one burst comes to the receiver;
* `Receiver.packet_held_iff_all_came`    a whole sequence.
-/

namespace Shoreline

/-! ## What the receiver has of the packet -/

/-- the framed packet is `q`, and a receiver with these settings can take in all of it -/
structure Framed.Suits (config : ReceiverConfig) (q : Packet) (f : Framed) : Prop where
  decode_eq : Packet.decode f.packet = .ok q
  key_eq : q.key = f.key
  count_le : f.count ≤ mostBursts
  fits : ∀ {i k}, f.kind? i = some k → Burst.Fits ⟨f.key, k⟩
  payload_le : ∀ {i k}, f.kind? i = some k → (Burst.payload ⟨f.key, k⟩).length ≤ config.mostPayload
  room : f.packet.length ≤ config.mostBuffered

theorem Framed.suits_of_frame {key : PacketKey} {bytes : Bytes} {size : Nat} {f : Framed}
    {q : Packet} {config : ReceiverConfig} (hframe : frame key bytes size = .ok f)
    (hdecode : Packet.decode bytes = .ok q) (hkey : q.key = key) (hserial : key.serial.toNat ≤ 9999)
    (hpacket : key.packet.toNat ≤ 9999) (hsize : size ≤ config.mostPayload)
    (hroom : bytes.length ≤ config.mostBuffered) : f.Suits config q ∧ f.key = key := by
  obtain ⟨hfkey, hbytes, hcount, hpieces⟩ := of_frame hframe
  have hfits {i : Nat} {k : BurstKind} (hk : f.kind? i = some k) :=
    fits hcount hpieces (mem_burstSizes (frame_eq_ok_iff.mp hframe).1).2 hserial hpacket hk
  rw [← hfkey] at hfits hkey
  exact ⟨⟨by rw [hbytes, hdecode], hkey, hcount, fun hk => (hfits hk).1,
    fun hk => Nat.le_trans (hfits hk).2 hsize, by rw [hbytes]; exact hroom⟩, hfkey⟩

/-- how often the packet is acknowledged when burst `i` comes after these -/
def Framed.due (f : Framed) (is : List Nat) (i : Nat) : Nat :=
  if f.Complete is then if i = f.terminalIndex then 1 else 0
  else if f.Complete (is ++ [i]) then 1 else 0

theorem Framed.due_of_mem {f : Framed} {is : List Nat} {i : Nat} (hmem : i ∈ is)
    (hne : i ≠ f.terminalIndex) : f.due is i = 0 := by
  rw [due, if_neg hne]
  split
  · rfl
  · next hnot => exact if_neg (mt (complete_append_of_mem hmem).mp hnot)

/-- a line that says that a packet is held -/
def Outgoing.acknowledges : Outgoing → Bool
  | heartbeat => false
  | control line => line.kind = .received

theorem PacketAssembly.acknowledges_request {p : PacketAssembly} {n : UInt16} {a : Answer}
    (h : a ∈ p.request n) (key : ProfileKey) :
    Outgoing.acknowledges (.control (a.line key)) = false := by
  rcases mem_request h with rfl | ⟨i, rfl⟩ <;> rfl

namespace Slot
open PacketAssembly

/-- what there is of the packet when these bursts have come, and the packet once all have -/
structure Collected (f : Framed) (q : Packet) (is : List Nat) (x : Slot) : Prop where
  gathered : ¬ f.Complete is → Gathered f is x.assembly
  held : f.Complete is → x.assembly.held = true ∧ x.assembly.buffered = 0
  stored : x.stored = if f.Complete is then some q else none

variable {config : ReceiverConfig} {f : Framed} {q : Packet} {is js : List Nat} {i : Nat}
  {k : BurstKind} {x : Slot}

theorem collected_empty (f : Framed) (q : Packet) : Collected f q [] .empty := by
  have hnot : ¬ f.Complete [] := fun h => absurd (h 0 (Nat.zero_le _)) (by simp)
  exact ⟨fun _ => gathered_new f, fun h => absurd h hnot, (if_neg hnot).symm⟩

theorem Collected.congr (h : Collected f q is x) (hmem : ∀ i, i ∈ js ↔ i ∈ is) :
    Collected f q js x := by
  have hcomplete : f.Complete js ↔ f.Complete is := by
    simp only [Framed.Complete, hmem]
  refine ⟨fun hnot => (h.gathered (mt hcomplete.mpr hnot)).congr hmem,
    fun hall => h.held (hcomplete.mp hall), ?_⟩
  simp only [hcomplete, h.stored]

theorem Collected.receive_eq (h : Collected f q is x) (hf : f.Suits config q)
    (hk : f.kind? i = some k) :
    x.receive f.key k =
      if f.Complete is then (x, if k = .terminal then [.stillHeld f.key.packet] else [])
      else if f.Complete (is ++ [i]) then
        (⟨some (x.assembly.take k).hold, some q⟩, [.rebuilt f.key.packet])
      else
        (⟨some (x.assembly.take k), x.stored⟩,
          if k = .terminal then (x.assembly.take k).request f.key.packet else []) := by
  rw [Slot.receive]
  split
  · next hheld =>
    have hall : f.Complete is := by
      by_contra hnot
      rw [(h.gathered hnot).held] at hheld
      exact absurd hheld Bool.false_ne_true
    rw [if_pos hall]
  next hopen =>
  have hnot : ¬ f.Complete is := fun hall => hopen (h.held hall).1
  have hgathered := h.gathered hnot
  have htaken := hgathered.take hf.count_le hk
  rw [if_neg (by rw [hgathered.refuses_eq hf.count_le hk]; exact Bool.false_ne_true), if_neg hnot]
  split
  · next hready =>
    have hall := (htaken.ready_iff hf.count_le).mp hready
    have hdecoded : (x.assembly.take k).decoded? f.key = some q := by
      rw [decoded?, htaken.bytes_eq hf.count_le hall, hf.decode_eq]
      exact if_pos hf.key_eq
    rw [if_pos hall, rebuild_of_some hdecoded]
  · next hready => rw [if_neg (mt (htaken.ready_iff hf.count_le).mpr hready)]

/-- one more burst -/
theorem Collected.receive (h : Collected f q is x) (hf : f.Suits config q)
    (hk : f.kind? i = some k) : Collected f q (is ++ [i]) (x.receive f.key k).1 := by
  rw [h.receive_eq hf hk]
  split
  · next hall =>
    have hall' := hall.append [i]
    exact ⟨fun hnot => absurd hall' hnot, fun _ => h.held hall, by
      rw [h.stored, if_pos hall, if_pos hall']⟩
  next hnot =>
  split
  · next hall => exact ⟨fun hnot' => absurd hall hnot', fun _ => ⟨rfl, rfl⟩, (if_pos hall).symm⟩
  · next hnot' =>
    refine ⟨fun _ => (h.gathered hnot).take hf.count_le hk, fun hall => absurd hall hnot', ?_⟩
    rw [if_neg hnot']
    exact h.stored.trans (if_neg hnot)

/-- the packet is acknowledged when it is complete, and once more for each terminal burst from then
on -/
theorem Collected.acknowledged (h : Collected f q is x) (hf : f.Suits config q)
    (hk : f.kind? i = some k) :
    ((x.receive f.key k).2.map fun a => Outgoing.control (a.line f.key.toProfileKey)).filter
        Outgoing.acknowledges = List.replicate (f.due is i) (.control (.received f.key)) := by
  rw [h.receive_eq hf hk, Framed.due]
  split
  · by_cases hi : i = f.terminalIndex
    · rw [if_pos ((Framed.kind?_eq_terminal hk).mpr hi), if_pos hi]
      rfl
    · rw [if_neg (mt (Framed.kind?_eq_terminal hk).mp hi), if_neg hi]
      rfl
  split
  · rfl
  · refine List.filter_eq_nil_iff.mpr fun o ho => ?_
    obtain ⟨a, ha, rfl⟩ := List.mem_map.mp ho
    split at ha
    · rw [acknowledges_request ha]
      exact Bool.false_ne_true
    · exact absurd ha (by simp)

end Slot

/-! ## A receiver -/

namespace Receiver

/-- the packet as it was rebuilt -/
def packet? (r : Receiver) (key : PacketKey) : Option Packet :=
  (r.profile? key.toProfileKey).bind (·.packet? key.packet)

/-- takes in bursts of a framed packet, each with its index and the time at which it arrived -/
def takeBursts (r : Receiver) (f : Framed) (is : List (Nat × Nat)) : Receiver :=
  is.foldl (fun r x => r.handleInput ((f.render? x.1).getD []) x.2) r

/-- the lines in the outbox that say that a packet is held -/
def receipts (r : Receiver) : List Outgoing := r.outbox.filter Outgoing.acknowledges

theorem stored_slot (r : Receiver) (key : PacketKey) : (r.slot key).stored = r.packet? key := by
  rw [packet?, profile?, slot, assembly]
  cases r.profiles.get? key.toProfileKey with
  | some s => rfl
  | none =>
    show (ReceivedProfile.packet? _ _) = none
    rw [ReceivedProfile.packet?]
    split <;> rfl

/-- nothing but these bursts of one packet has come -/
structure Gathers (config : ReceiverConfig) (f : Framed) (q : Packet) (is : List Nat)
    (r : Receiver) : Prop where
  config_eq : r.config = config
  reader_eq : r.reader = .new config.mostPayload
  orderly : r.Orderly
  alone : r.buffered = (r.slot f.key).assembly.buffered
  collected : Slot.Collected f q is (r.slot f.key)

variable {config : ReceiverConfig} {f : Framed} {q : Packet} {is : List Nat} {i : Nat}
  {k : BurstKind} {r : Receiver}

theorem gathers_new (config : ReceiverConfig) (f : Framed) (q : Packet) (start : Nat) :
    Gathers config f q [] (.new config start) where
  config_eq := rfl
  reader_eq := rfl
  orderly := orderly_new config start
  alone := rfl
  collected := by
    rw [slot_new]
    exact Slot.collected_empty f q

/-- when there is no room for a burst, it has come before -/
theorem Gathers.mem_of_lacksRoom (h : Gathers config f q is r) (hf : f.Suits config q)
    (hk : f.kind? i = some k) (hroom : r.lacksRoom k = true) : i ∈ is := by
  by_cases hall : f.Complete is
  · exact hall i (Framed.le_of_kind? hk)
  have hfull : f.packet.length <
      (r.slot f.key).assembly.buffered + (Burst.payload ⟨f.key, k⟩).length := by
    by_contra hnot
    have hle : r.buffered + (Burst.payload ⟨f.key, k⟩).length ≤ r.config.mostBuffered := by
      rw [h.alone, h.config_eq]
      exact Nat.le_trans (Nat.not_lt.mp hnot) hf.room
    rw [lacksRoom_of_le (b := ⟨f.key, k⟩) hle] at hroom
    exact Bool.false_ne_true hroom
  exact (h.collected.gathered hall).mem_of_full hf.count_le hk hfull

/-- one more burst -/
theorem Gathers.handleInput (h : Gathers config f q is r) (hf : f.Suits config q)
    (hi : i ≤ f.terminalIndex) (now : Nat) :
    Gathers config f q (is ++ [i]) (r.handleInput ((f.render? i).getD []) now) ∧
      (r.handleInput ((f.render? i).getD []) now).receipts =
        r.receipts ++ List.replicate (f.due is i) (.control (.received f.key)) := by
  obtain ⟨k, hk⟩ := Framed.exists_kind? (Nat.lt_succ_of_le hi)
  have hrender : (f.render? i).getD [] = Burst.wire ⟨f.key, k⟩ := by
    rw [Framed.render?_eq hk]
    rfl
  have hparse : Burst.parse r.reader.mostPayload (Burst.wire ⟨f.key, k⟩) =
      .ok (some (⟨f.key, k⟩, (Burst.wire ⟨f.key, k⟩).length)) := by
    rw [h.reader_eq]
    exact Burst.parse_whole _ _ (hf.fits hk) (hf.payload_le hk)
  rw [hrender, handleInput_whole now hparse (by rw [h.reader_eq]; rfl)]
  have hreader := reader_handleBurst now r ⟨f.key, k⟩
  cases hroom : r.lacksRoom k with
  | true =>
    have hmem := h.mem_of_lacksRoom hf hk hroom
    have hsame : ∀ j, j ∈ is ++ [i] ↔ j ∈ is := by
      intro j
      rw [List.mem_append, List.mem_singleton, or_iff_left_of_imp fun hj => hj ▸ hmem]
    have hne : i ≠ f.terminalIndex := by
      intro hterminal
      rw [(Framed.kind?_eq_terminal hk).mpr hterminal] at hroom
      exact absurd hroom Bool.false_ne_true
    rw [Framed.due_of_mem hmem hne, handleBurst_of_lacksRoom now hroom, List.replicate_zero,
      List.append_nil]
    exact ⟨⟨h.config_eq, h.reader_eq, ⟨h.orderly.key, h.orderly.idle⟩, h.alone,
      h.collected.congr hsame⟩, rfl⟩
  | false =>
    have htakes := takes_handleBurst (b := ⟨f.key, k⟩) h.orderly hroom now
    have hslot := htakes.slot_eq
    have hbuffered := htakes.buffered
    have halone := h.alone
    dsimp only at hslot hbuffered
    refine ⟨⟨htakes.config.trans h.config_eq, hreader.trans h.reader_eq, htakes.orderly, by omega,
      ?_⟩, ?_⟩
    · rw [hslot]
      exact h.collected.receive hf hk
    · rw [receipts, htakes.outbox, List.filter_append, receipts]
      exact congrArg _ (h.collected.acknowledged hf hk)

theorem Gathers.takeBursts (h : Gathers config f q is r) (hf : f.Suits config q)
    {js : List (Nat × Nat)} (hjs : ∀ x ∈ js, x.1 ≤ f.terminalIndex) :
    Gathers config f q (is ++ js.map Prod.fst) (r.takeBursts f js) := by
  induction js generalizing r is with
  | nil => rwa [List.map_nil, List.append_nil]
  | cons x js ih =>
    obtain ⟨h', -⟩ := h.handleInput hf (hjs x List.mem_cons_self) x.2
    have := ih h' fun y hy => hjs y (List.mem_cons_of_mem _ hy)
    rwa [List.append_assoc] at this

/-- nothing is acknowledged while a burst is missing -/
theorem Gathers.receipts_open (h : Gathers config f q is r) (hf : f.Suits config q)
    {js : List (Nat × Nat)} (hjs : ∀ x ∈ js, x.1 ≤ f.terminalIndex)
    (hopen : ¬ f.Complete (is ++ js.map Prod.fst)) :
    (r.takeBursts f js).receipts = r.receipts := by
  induction js generalizing r is with
  | nil => rfl
  | cons x js ih =>
    rw [List.map_cons, List.append_cons] at hopen
    have hnot : ¬ f.Complete (is ++ [x.1]) := fun hall => hopen (hall.append _)
    have hdue : f.due is x.1 = 0 := by
      rw [Framed.due, if_neg fun hall => hnot (hall.append _), if_neg hnot]
    obtain ⟨h', hreceipts⟩ := h.handleInput hf (hjs x List.mem_cons_self) x.2
    rw [hdue, List.replicate_zero, List.append_nil] at hreceipts
    exact (ih h' (fun y hy => hjs y (List.mem_cons_of_mem _ hy)) hopen).trans hreceipts

/-- a packet that is complete is acknowledged again for each terminal burst -/
theorem Gathers.receipts_complete (h : Gathers config f q is r) (hf : f.Suits config q)
    {js : List (Nat × Nat)} (hjs : ∀ x ∈ js, x.1 ≤ f.terminalIndex) (hall : f.Complete is) :
    (r.takeBursts f js).receipts = r.receipts ++
      List.replicate ((js.map Prod.fst).count f.terminalIndex) (.control (.received f.key)) := by
  induction js generalizing r is with
  | nil => exact (List.append_nil _).symm
  | cons x js ih =>
    obtain ⟨h', hreceipts⟩ := h.handleInput hf (hjs x List.mem_cons_self) x.2
    have hdue : f.due is x.1 = if x.1 == f.terminalIndex then 1 else 0 := by
      rw [Framed.due, if_pos hall]
      simp only [beq_iff_eq]
    refine (ih h' (fun y hy => hjs y (List.mem_cons_of_mem _ hy)) (hall.append _)).trans ?_
    rw [hreceipts, hdue, List.append_assoc, List.replicate_append_replicate, List.map_cons,
      List.count_cons, Nat.add_comm]

/-- the packet is held when each of its bursts has come, in whatever order and however often; it is
acknowledged then, and once more for each terminal burst behind -/
theorem packet_held_iff_all_came {key : PacketKey} {bytes : Bytes} {size : Nat} {f : Framed}
    {q : Packet} {config : ReceiverConfig} (hframe : Framed.frame key bytes size = .ok f)
    (hdecode : Packet.decode bytes = .ok q) (hkey : q.key = key) (hserial : key.serial.toNat ≤ 9999)
    (hpacket : key.packet.toNat ≤ 9999) (hsize : size ≤ config.mostPayload)
    (hroom : bytes.length ≤ config.mostBuffered) (start : Nat) {is : List (Nat × Nat)}
    (his : ∀ x ∈ is, x.1 ≤ f.terminalIndex) :
    let r := (new config start).takeBursts f is
    ((r.slot key).assembly.held = true ↔ f.Complete (is.map Prod.fst)) ∧
    (r.packet? key = if f.Complete (is.map Prod.fst) then some q else none) ∧
    (¬ f.Complete (is.map Prod.fst) → r.receipts = []) ∧
    -- from the burst on that completes it
    (f.Complete (is.map Prod.fst) → ∃ before x after, is = before ++ x :: after ∧
      ¬ f.Complete (before.map Prod.fst) ∧ f.Complete ((before ++ [x]).map Prod.fst) ∧
      r.receipts = List.replicate (1 + (after.map Prod.fst).count f.terminalIndex)
        (.control (.received key))) := by
  obtain ⟨hf, rfl⟩ := Framed.suits_of_frame hframe hdecode hkey hserial hpacket hsize hroom
  have hnew := gathers_new config f q start
  have hrun := hnew.takeBursts hf his
  rw [List.nil_append] at hrun
  dsimp only
  refine ⟨⟨fun hheld => ?_, fun hall => (hrun.collected.held hall).1⟩, ?_, fun hnot => ?_,
    fun hall => ?_⟩
  · by_contra hnot
    rw [(hrun.collected.gathered hnot).held] at hheld
    exact Bool.false_ne_true hheld
  · rw [← stored_slot, hrun.collected.stored]
  · exact hnew.receipts_open hf his hnot
  · obtain ⟨before, x, after, rfl, hnot, hall⟩ := Framed.exists_completing hall
    have hbefore := fun y hy => his y (List.mem_append_left _ hy)
    have hx := his x (List.mem_append_right _ List.mem_cons_self)
    have hafter := fun y hy => his y (List.mem_append_right _ (List.mem_cons_of_mem _ hy))
    refine ⟨before, x, after, rfl, hnot, hall, ?_⟩
    rw [List.map_append, List.map_singleton] at hall
    obtain ⟨hx', hreceipts⟩ := (hnew.takeBursts hf hbefore).handleInput hf hx x.2
    rw [List.nil_append, Framed.due, if_neg hnot, if_pos hall,
      hnew.receipts_open hf hbefore hnot] at hreceipts
    have hrest := hx'.receipts_complete hf hafter hall
    rw [hreceipts] at hrest
    rw [Receiver.takeBursts, List.foldl_append]
    exact hrest.trans List.replicate_append_replicate

/-- three items of one class, as they are -/
def threeItems : DataPacket where
  header := {
    serial := 770, profile := 12345, packet := 1, sensor := .mcoms, sensorId := .ofText "MCOMS"
    itemCount := 3, stages := .identity, compressedSize := 120, encodedSize := 120 }
  payload := List.replicate 120 2

set_option maxRecDepth 2000 in
/-- in two pieces: the terminal burst first, the second piece twice, and the first piece last -/
theorem three_items_held :
    let bytes := threeItems.header.render ++ threeItems.payload
    let key : PacketKey := ⟨⟨770, 12345⟩, 1⟩
    let f : Framed := ⟨key, chunks 128 bytes⟩
    let is := [(3, 5), (2, 6), (0, 6), (2, 7)]
    let r := (new .standard 0).takeBursts f (is ++ [(1, 9), (0, 9), (3, 10)])
    Framed.frame key bytes 128 = .ok f ∧ f.terminalIndex = 3 ∧
      ((new .standard 0).takeBursts f is).packet? key = none ∧
      ((new .standard 0).takeBursts f is).receipts = [] ∧
      r.packet? key = some (.data threeItems) ∧
      r.receipts = List.replicate 2 (.control (.received key)) := by
  intro bytes key f is r
  have hframe : Framed.frame key bytes 128 = .ok f := toOption_eq_some (by decide +kernel)
  have hdecode : Packet.decode bytes = .ok (.data threeItems) :=
    toOption_eq_some (by decide +kernel)
  have hterminal : f.terminalIndex = 3 := by decide +kernel
  have hopen : ¬ f.Complete (is.map Prod.fst) := by decide +kernel
  have hall : f.Complete ((is ++ [(1, 9), (0, 9), (3, 10)]).map Prod.fst) := by decide +kernel
  have hsize : 128 ≤ ReceiverConfig.standard.mostPayload := by decide
  have hroom : bytes.length ≤ ReceiverConfig.standard.mostBuffered := by decide +kernel
  have his : ∀ x ∈ is, x.1 ≤ f.terminalIndex := by decide +kernel
  have his' : ∀ x ∈ is ++ [(1, 9), (0, 9), (3, 10)], x.1 ≤ f.terminalIndex := by decide +kernel
  obtain ⟨-, hnone, hempty, -⟩ :=
    packet_held_iff_all_came hframe hdecode rfl (by decide) (by decide) hsize hroom 0 his
  obtain ⟨-, hsome, -, -⟩ :=
    packet_held_iff_all_came hframe hdecode rfl (by decide) (by decide) hsize hroom 0 his'
  rw [if_neg hopen] at hnone
  rw [if_pos hall] at hsome
  exact ⟨hframe, hterminal, hnone, hempty hopen, hsome, by decide +kernel⟩

end Receiver

end Shoreline
