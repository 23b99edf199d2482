import Shoreline.Proofs.AnyOrder
import Shoreline.Proofs.Finality

/-!
# Assemblies are consistent

Whatever bytes a receiver is given and however its timers run, what it has of a profile fits together
(`ProfileAssembly.Consistent`): the packets that are held are those that were rebuilt, each under its
own key, and their pieces are gone; the pieces of the others are numbered as was announced; and none
of them is all there.  So a receiver that is complete has the Info Packet of each profile, and every
Data Packet that it counts (`consistent_run`).
-/

namespace Shoreline

namespace ProfileAssembly

/-- what an assembly has of the packets of its profile fits together -/
structure Consistent (key : ProfileKey) (s : ProfileAssembly) : Prop where
  named : s.received.key = key
  /-- a held packet has no pieces any more, and was rebuilt -/
  held : ∀ n, (s.packet n).held = true →
    (s.packet n).pieces.entries = [] ∧ ∃ q, s.Stores n q
  /-- what was rebuilt is held, under the key that it states; number 0 is the Info Packet -/
  stores : ∀ n q, s.Stores n q →
    (s.packet n).held = true ∧ q.key = ⟨key, n⟩ ∧ (n = 0 ↔ ∃ p, q = .info p)
  /-- there is no piece behind the announced ones -/
  within : ∀ n c i, (s.packet n).announced = some c → (s.packet n).held = false →
    (s.packet n).pieces.contains i = true → 1 ≤ i.toNat ∧ i ≤ c
  /-- pieces are counted from 1 -/
  numbered : ∀ n i, (s.packet n).pieces.contains i = true → 1 ≤ i.toNat
  /-- an open packet whose terminal burst was seen lacks a piece -/
  lacking : ∀ n c, (s.packet n).held = false → (s.packet n).terminalSeen = true →
    (s.packet n).announced = some c →
      ∃ i, 1 ≤ i.toNat ∧ i ≤ c ∧ (s.packet n).pieces.contains i = false

variable {key : ProfileKey} {s : ProfileAssembly}

theorem consistent (h : Stocked (.numbered key) s) (hi : Idle s)
    (hpieces : ∀ n, (s.packet n).held = true → (s.packet n).pieces = .empty) :
    Consistent key s := by
  have hnumbered : ∀ n i, (s.packet n).pieces.contains i = true → 1 ≤ i.toNat := by
    intro n i hc
    obtain ⟨b, hb⟩ := (Keyed.contains_iff _ _).mp hc
    have hne : i ≠ 0 := (h.contents n).piece i b hb
    exact Nat.one_le_iff_ne_zero.mpr fun hz => hne (UInt16.toNat_inj.mp hz)
  refine ⟨h.key_eq, fun n hn => ⟨?_, (h.held_iff n).mp hn⟩, fun n q hq => ?_,
    fun n c i hc _ hp => ⟨hnumbered n i hp, ?_⟩, hnumbered, fun n c hopen hseen hc => ?_⟩
  · rw [hpieces n hn]
    rfl
  · obtain ⟨_, -, -, -, -, hkey⟩ := h.stores n q hq
    refine ⟨(h.held_iff n).mpr ⟨q, hq⟩, hkey, ?_⟩
    cases q with
    | info p => exact ⟨fun _ => ⟨p, rfl⟩, fun _ => hq.1⟩
    | data d =>
      refine ⟨fun hn => ?_, fun ⟨p, hp⟩ => absurd hp (by simp)⟩
      exact absurd (hn ▸ h.stores n _ hq) Supply.Yields.not_data_zero
  · obtain ⟨b, hb⟩ := (Keyed.contains_iff _ _).mp hp
    exact (h.contents n).within c i b hc hb
  · by_contra hall
    have hhas : (s.packet n).hasAll = true := by
      refine (PacketAssembly.hasAll_iff hc).mpr fun i h₁ h₂ => ?_
      by_contra hnot
      exact hall ⟨i, h₁, h₂, Bool.eq_false_iff.mpr hnot⟩
    have hready := hi n
    rw [PacketAssembly.ready, hopen, hseen, hhas] at hready
    exact absurd hready (by decide)

/-- a complete assembly has the Info Packet and each Data Packet that it counts -/
theorem present_of_isComplete (h : Stocked (.numbered key) s) (hc : s.isComplete = true) :
    ∃ info, s.received.info = some info ∧
      ∀ n, 1 ≤ n → n ≤ info.definition.total →
        ∃ d, s.received.data.get? (UInt16.ofNat n) = some d ∧ d.header.packet.toNat = n := by
  rw [isComplete, ReceivedProfile.isComplete, Bool.and_eq_true, List.isEmpty_iff,
    List.eq_nil_iff_forall_not_mem] at hc
  obtain ⟨hsome, hmissing⟩ := hc
  obtain ⟨info, hinfo⟩ := Option.isSome_iff_exists.mp hsome
  refine ⟨info, hinfo, fun n h₁ h₂ => ?_⟩
  -- the numbers of the packets are 16-bit words, and few packets can be counted
  have htotal : info.definition.total ≤ 290 := by
    obtain ⟨_, -, -, -, hdecode, -⟩ := h.stores 0 (.info info) ⟨rfl, hinfo⟩
    exact Definition.total_le (Packet.fits_of_decode hdecode)
  have hword : (UInt16.ofNat n).toNat = n := by
    rw [UInt16.toNat_ofNat']
    omega
  have hcontains : s.received.data.contains (UInt16.ofNat n) = true := by
    by_contra hnot
    refine hmissing (UInt16.ofNat n) (List.mem_filter.mpr ⟨mem_numbersTo.mpr ?_, ?_⟩)
    · rw [hword, ReceivedProfile.expected?, hinfo]
      exact ⟨h₁, h₂⟩
    · rw [Bool.eq_false_iff.mpr hnot]
      rfl
  obtain ⟨d, hd⟩ := (Keyed.contains_iff _ _).mp hcontains
  obtain ⟨_, -, -, -, -, hkey⟩ := h.stores (UInt16.ofNat n) (.data d) hd
  have hpacket : d.header.packet = UInt16.ofNat n := congrArg PacketKey.packet hkey
  exact ⟨d, hd, by rw [hpacket, hword]⟩

end ProfileAssembly

namespace Receiver

/-- whatever is done with a receiver, its assemblies are consistent, and complete when it says so -/
theorem consistent_run (config : ReceiverConfig) (start : Nat) (acts : List Act) :
    let r := (new config start).run acts
    (∀ key s, r.profiles.get? key = some s → s.Consistent key) ∧
    (r.isComplete = true → ∀ key s, r.profiles.get? key = some s →
      ∃ info, s.received.info = some info ∧
        ∀ n, 1 ≤ n → n ≤ info.definition.total →
          ∃ d, s.received.data.get? (UInt16.ofNat n) = some d ∧ d.header.packet.toNat = n) := by
  intro r
  have hassembly {key : ProfileKey} {s : ProfileAssembly} (hs : r.profiles.get? key = some s) :
      r.assembly key = s := by
    rw [assembly, hs]
    rfl
  refine ⟨fun key s hs => ?_, fun hcomplete key s hs => ?_⟩
  · obtain ⟨hstocked, hidle⟩ := sound_run config start acts key
    rw [← hassembly hs]
    refine ProfileAssembly.consistent hstocked hidle fun n hheld => ?_
    obtain ⟨as, htold, -⟩ := told_run config start acts ⟨key, n⟩
    exact htold.pieces hheld
  · obtain ⟨hstocked, -⟩ := sound_run config start acts key
    rw [isComplete, Bool.and_eq_true] at hcomplete
    have hall := List.all_eq_true.mp hcomplete.2 s
      (List.mem_map.mpr ⟨(key, s), (r.profiles.mem_entries_iff key s).mpr hs, rfl⟩)
    rw [← hassembly hs] at hall ⊢
    exact ProfileAssembly.present_of_isComplete hstocked hall

/-- a profile of one Data Packet of two pieces, and one of three pieces of a packet that it does not
count -/
def threeItemsActs : List Act :=
  let info : PacketKey := ⟨⟨770, 12345⟩, 0⟩
  let data : PacketKey := ⟨⟨770, 12345⟩, 1⟩
  let stray : PacketKey := ⟨⟨770, 12345⟩, 2⟩
  let bytes := threeItems.header.render ++ threeItems.payload
  [.burst ⟨info, .announce 1⟩ trivial 5,
    .burst ⟨info, .data 1 (InfoPacket.render ⟨770, 12345, ⟨⟨0, 0, 0, 3⟩⟩⟩)⟩ (by decide) 6,
    .burst ⟨info, .terminal⟩ trivial 7, .burst ⟨data, .data 2 (bytes.drop 128)⟩ (by decide) 8,
    .burst ⟨data, .announce 2⟩ trivial 9, .burst ⟨data, .terminal⟩ trivial 10,
    .burst ⟨stray, .data 2 [7]⟩ (by decide) 11, .burst ⟨stray, .announce 3⟩ trivial 12,
    .burst ⟨stray, .terminal⟩ trivial 13, .timers 20000,
    .burst ⟨data, .data 1 (bytes.take 128)⟩ (by decide) 20001]

set_option maxRecDepth 2000 in
theorem three_items_consistent :
    let key : ProfileKey := ⟨770, 12345⟩
    let r := (new .standard 0).run threeItemsActs
    r.isComplete = true ∧ ((r.assembly key).packet 2).pieces.contains 2 = true ∧
      ∃ s d, r.profiles.get? key = some s ∧ s.Consistent key ∧
        s.received.data.get? 1 = some d ∧ d.header.packet.toNat = 1 := by
  intro key r
  have hcomplete : r.isComplete = true := by decide +kernel
  have htotal : ((r.profiles.get? key).bind (·.received.info)).map (·.definition.total) = some 1 := by
    decide +kernel
  obtain ⟨info, hinfo, hone⟩ := Option.map_eq_some_iff.mp htotal
  obtain ⟨s, hs, hinfo⟩ := Option.bind_eq_some_iff.mp hinfo
  obtain ⟨hall, hpresent⟩ := consistent_run .standard 0 threeItemsActs
  obtain ⟨info', hinfo', hdata⟩ := hpresent hcomplete key s hs
  obtain rfl : info = info' := Option.some.inj (hinfo.symm.trans hinfo')
  obtain ⟨d, hd, hn⟩ := hdata 1 (Nat.le_refl 1) (Nat.le_of_eq hone.symm)
  exact ⟨hcomplete, by decide +kernel, s, d, hs, hall key s hs, hd, hn⟩

end Receiver

end Shoreline
