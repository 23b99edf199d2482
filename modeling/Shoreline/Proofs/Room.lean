import Shoreline.Proofs.Courses

/-!
# Bounded memory

However hostile the bytes, a receiver keeps no more than it was configured for.  The bytes held for
incomplete packets grow only by a data burst, and only when there is room for it; of the bytes that
were read, what is left has not been found to begin no burst, so that it is shorter than the longest
one (`bounded_run`).

* `length_le_of_parse_none`   what is too short to be judged;
* `bounded_drain`             what a search for all bursts leaves behind;
* `Course.room`               what is done with a receiver keeps its limit.
-/

namespace Shoreline

/-! ## Bytes that were read -/

/-- bytes that may be the beginning of a burst are shorter than the longest one -/
theorem Burst.length_le_of_parse_none {m : Nat} {b : Bytes} (h : parse m b = .ok none) :
    b.length ≤ 31 + m := by
  have hover : overhead = 32 := rfl
  have hsome {x : Except Fault Unit} {burst : Burst} {n : Nat}
      (hx : (x >>= fun _ => (.ok (some (burst, n)) : Except Fault (Option (Burst × Nat)))) =
        .ok none) : False := by
    obtain ⟨_, -, hx⟩ := bind_eq_ok hx
    exact absurd hx (by simp)
  rw [parse] at h
  split at h
  · next h4 =>
    rw [List.length_take] at h4
    omega
  split at h
  · exact absurd h (by simp)
  split at h
  · next h32 =>
    rw [List.length_take] at h32
    omega
  obtain ⟨key, -, h⟩ := bind_eq_ok h
  obtain ⟨found, -, h⟩ := bind_eq_ok h
  split at h
  · exact absurd h hsome
  obtain ⟨index, -, h⟩ := bind_eq_ok h
  obtain ⟨size, -, h⟩ := bind_eq_ok h
  split at h
  · exact absurd h hsome
  rw [parseData] at h
  split at h
  · exact absurd h (by simp)
  next hsize =>
  dsimp only at h
  split at h
  · next hshort =>
    rw [slice, List.length_take, List.length_drop] at hshort
    omega
  · exact absurd h hsome

namespace BurstReader

/-- a reader of payloads of at most `m` bytes holds less than the longest burst -/
structure Bounded (m : Nat) (r : BurstReader) : Prop where
  mostPayload : r.mostPayload = m
  buffer : r.buffer.length ≤ 31 + m

variable {m : Nat} {r r' : BurstReader}

theorem bounded_scan {b : Bytes} (hm : r.mostPayload = m) (h : r.scan b = (none, r')) :
    Bounded m r' := by
  fun_induction scan r b with
  | case1 r b hs =>
    obtain ⟨-, rfl⟩ := Prod.mk.inj h
    refine ⟨hm, ?_⟩
    show (lastPart b).length ≤ _
    rw [lastPart, List.length_drop]
    omega
  | case2 r b t hs found used hp => exact absurd h (by simp)
  | case3 r b t hs hp =>
    obtain ⟨-, rfl⟩ := Prod.mk.inj h
    exact ⟨hm, hm ▸ Burst.length_le_of_parse_none hp⟩
  | case4 r b t hs e hp hl ih => exact ih ((mostPayload_reject r e).trans hm) h

theorem bounded_drainOnto (acc : List Burst) (r : BurstReader) (hm : r.mostPayload = m) :
    Bounded m (drainOnto acc r).2 := by
  fun_induction drainOnto acc r with
  | case1 acc r r' h => exact bounded_scan hm h
  | case2 acc r burst r' h hlt ih => exact ih ((scan_some h).1.trans hm)

theorem bounded_drain (hm : r.mostPayload = m) : Bounded m r.drain.2 := bounded_drainOnto [] r hm

end BurstReader

/-! ## Bytes that are kept -/

namespace Slot
variable {x : Slot} {key : PacketKey}

theorem buffered_rebuild (x : Slot) (key : PacketKey) (p : PacketAssembly) :
    (x.rebuild key p).1.assembly.buffered = 0 := by
  rw [rebuild]
  split <;> rfl

end Slot

namespace ProfileAssembly
variable {s : ProfileAssembly}

theorem buffered_apply_le (hi : Idle s) (n : UInt16) (k : BurstKind) :
    (s.apply n k).1.buffered ≤ s.buffered + (Burst.payload ⟨⟨s.received.key, n⟩, k⟩).length := by
  obtain ⟨htouches, hslot⟩ := apply_slot hi n k
  have hle := Slot.buffered_receive_le (s.slot n) ⟨s.received.key, n⟩ k
  rw [← congrArg Prod.fst hslot] at hle
  have hold : (s.slot n).assembly = s.packet n := rfl
  have hnew : ((s.apply n k).1.slot n).assembly = (s.apply n k).1.packet n := rfl
  have hsum := htouches.buffered
  rw [hold, hnew] at hle
  omega

theorem buffered_pursue_le (hi : Idle s) (n : UInt16) : (s.pursue n).1.buffered ≤ s.buffered := by
  cases hheld : (s.packet n).held with
  | true =>
    rw [pursue_of_not_hasAll (Or.inr hheld)]
  | false =>
    cases hall : (s.packet n).hasAll with
    | false =>
      rw [pursue_of_not_hasAll (Or.inl ⟨hheld, hall⟩)]
    | true =>
      rw [pursue_of_hasAll hi hheld hall]
      obtain ⟨htouches, hslot⟩ := rebuild_slot s n
      have hzero := Slot.buffered_rebuild (s.slot n) ⟨s.received.key, n⟩ (s.packet n)
      rw [← congrArg Prod.fst hslot] at hzero
      have hnew : ((s.rebuild n).1.slot n).assembly = (s.rebuild n).1.packet n := rfl
      have hsum := htouches.buffered
      rw [hnew] at hzero
      dsimp only
      omega

theorem buffered_requestOutstanding_le {u : Supply} (h : Stocked u s) (hi : Idle s) :
    s.requestOutstanding.1.buffered ≤ s.buffered := by
  have hall (ns : List UInt16) {s : ProfileAssembly} (h : Stocked u s) (hi : Idle s) :
      (s.pursueAll ns).1.buffered ≤ s.buffered := by
    induction ns generalizing s with
    | nil => exact Nat.le_refl _
    | cons n ns ih =>
      obtain ⟨h', hi'⟩ := stocked_pursue h hi n
      exact Nat.le_trans (ih h' hi') (buffered_pursue_le hi n)
  rw [requestOutstanding_eq]
  exact hall _ h hi

end ProfileAssembly

/-! ## A receiver -/

namespace Receiver
open ProfileAssembly BurstReader

variable {r r' : Receiver} {ls : List Outgoing}

theorem buffered_update_le {profile : ProfileKey} {x : ProfileAssembly × List Answer} {n : Nat}
    (hx : x.1.buffered ≤ (r.assembly profile).buffered + n) :
    (r.update profile x).buffered ≤ r.buffered + n := by
  have hsum := buffered_update r profile x
  omega

/-- where there is room for a burst, its bytes keep the limit -/
theorem payload_le_of_lacksRoom {key : PacketKey} {k : BurstKind}
    (h : r.buffered ≤ r.config.mostBuffered) (hroom : r.lacksRoom k = false) :
    r.buffered + (Burst.payload ⟨key, k⟩).length ≤ r.config.mostBuffered := by
  cases k with
  | announce c => exact h
  | terminal => exact h
  | data i b => exact Nat.not_lt.mp (of_decide_eq_false hroom)

/-- what is kept keeps its limit in every course -/
theorem Course.room (hc : Course r ls r') (h : r.Sound)
    (hr : r.buffered ≤ r.config.mostBuffered) : r'.buffered ≤ r'.config.mostBuffered := by
  induction hc with
  | refl => exact hr
  | burst hc profile n hk hroom ih =>
    obtain ⟨hstocked, hidle⟩ := hc.sound h profile
    exact Nat.le_trans (buffered_update_le (buffered_apply_le hidle n _))
      (payload_le_of_lacksRoom ih hroom)
  | request hc profile ih =>
    obtain ⟨hstocked, hidle⟩ := hc.sound h profile
    exact Nat.le_trans (buffered_update_le (n := 0) (buffered_requestOutstanding_le hstocked hidle))
      ih
  | aside _ _ hconfig hprofiles _ _ ih =>
    rw [buffered, hprofiles, hconfig]
    exact ih

theorem bounded_act {m : Nat} (h : r.reader.Bounded m) (a : Act) : (r.act a).reader.Bounded m := by
  cases a with
  | input b now =>
    rw [act, handleInput_of_feed now rfl, reader_foldl_handleBurst]
    exact bounded_drain h.mostPayload
  | burst b hb now =>
    rw [act, reader_handleBurst]
    exact h
  | transmit =>
    rw [act, reader_emit?]
    exact h
  | timers now =>
    have hskip (r : Receiver) (h : r.reader.Bounded m) : (r.skipStalled now).reader.Bounded m := by
      rw [skipStalled]
      rcases skipStalled_cases r.reader with ⟨-, he⟩ | ⟨-, he⟩
      · rw [he]
        dsimp only
        rw [reader_foldl_handleBurst]
        exact bounded_drain h.mostPayload
      · rw [he]
        exact h
    have hheart : (r.pollHeartbeat now).reader.Bounded m := by
      rw [reader_pollHeartbeat]
      exact h
    rw [act, pollTimers]
    dsimp only
    split
    · exact hheart
    split
    · exact hskip _ hheart
    · show (requestOutstanding _).reader.Bounded m
      rw [reader_requestOutstanding]
      exact hskip _ hheart

theorem bounded_reader_run {m : Nat} (h : r.reader.Bounded m) (acts : List Act) :
    (r.run acts).reader.Bounded m := by
  induction acts generalizing r with
  | nil => exact h
  | cons a acts ih => exact ih (bounded_act h a)

/-- whatever is done with a receiver, the bytes that it keeps and those that it has not consumed keep
their limits; a data burst that would pass the limit leaves the profiles and the outbox as they are -/
theorem bounded_run (config : ReceiverConfig) (start : Nat) (acts : List Act) :
    ((new config start).run acts).buffered ≤ config.mostBuffered ∧
    ((new config start).run acts).reader.buffer.length ≤ 31 + config.mostPayload ∧
    ∀ (r : Receiver) (key : PacketKey) (index : UInt16) (payload : Bytes) (now : Nat),
      r.config.mostBuffered < r.buffered + payload.length →
        (handleBurst now r ⟨key, .data index payload⟩).profiles = r.profiles ∧
        (handleBurst now r ⟨key, .data index payload⟩).outbox = r.outbox := by
  refine ⟨?_, ?_, fun r key index payload now hfull => ?_⟩
  · have hroom := (course_run (new config start) acts).room (sound_new config start) (Nat.zero_le _)
    rwa [config_run] at hroom
  · have hnew : (new config start).reader.Bounded config.mostPayload := ⟨rfl, Nat.zero_le _⟩
    exact (bounded_reader_run hnew acts).buffer
  · have hlacks : r.lacksRoom (.data index payload) = true := decide_eq_true hfull
    rw [handleBurst_of_lacksRoom now hlacks]
    exact ⟨rfl, rfl⟩

/-- two bytes of three are kept, so that there is no room for two more -/
theorem full_receiver_unchanged :
    let key : PacketKey := ⟨⟨770, 12345⟩, 1⟩
    let config : ReceiverConfig := { ReceiverConfig.standard with mostBuffered := 3 }
    let r := (new config 0).run [.burst ⟨key, .data 1 [1, 2]⟩ (by decide) 5]
    let r' := handleBurst 6 r ⟨⟨⟨771, 12345⟩, 1⟩, .data 1 [3, 4]⟩
    r.buffered = 2 ∧ r.buffered ≤ 3 ∧ r.reader.buffer.length ≤ 31 + config.mostPayload ∧
      r'.profiles = r.profiles ∧ r'.outbox = r.outbox := by
  intro key config r r'
  have hkept : r.buffered = 2 := by decide +kernel
  obtain ⟨hbuffered, hreader, hfull⟩ := bounded_run config 0
    [.burst ⟨key, .data 1 [1, 2]⟩ (by decide) 5]
  have hpassed : r.config.mostBuffered < r.buffered + [3, 4].length := by decide +kernel
  obtain ⟨hprofiles, hout⟩ := hfull r ⟨⟨771, 12345⟩, 1⟩ 1 [3, 4] 6 hpassed
  exact ⟨hkept, hbuffered, hreader, hprofiles, hout⟩

end Receiver

end Shoreline
