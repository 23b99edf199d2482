import Mathlib.Algebra.BigOperators.Group.Finset.Piecewise
import Shoreline.Proofs.Attempts
import Shoreline.Proofs.Confirmation
import Shoreline.Proofs.Identity

/-!
# Every burst that is sent is called for

A sender hands out a burst when it is new, when it was asked for, and when it is a terminal burst
with which the sender asks for an answer.  Each time is counted, for the burst itself (`attempts`)
and for the sender (`Tally`).  The burst's own counter has 32 bits, and whether a burst counts as a
repeat is read off it: a sender that sends one burst more often than that misses some (`repeats`).

* `counted_run`, `bytesSent_run`   the counters after a whole run;
* `render?_inj`                    different bursts of a packaged profile differ on the wire;
* `sends_accounted`                all of it together.
-/

namespace Shoreline

namespace Sender
open Outbound ControlLine

/-! ## Repeats -/

/-- how many of the first `k` sends of a burst count as repeats: those that bring its counter above
one -/
def repeats (k : Nat) : Nat := (List.range k).countP fun j => 1 < UInt32.ofNat (j + 1)

theorem repeats_succ (k : Nat) :
    repeats (k + 1) = repeats k + if 1 < UInt32.ofNat (k + 1) then 1 else 0 := by
  rw [repeats, List.range_succ, List.countP_append, ← repeats, List.countP_singleton]
  simp only [decide_eq_true_iff]

/-- all sends but the first, until the counter of the burst starts again -/
theorem repeats_of_lt {k : Nat} (h : k < UInt32.size) : repeats k = k - 1 := by
  induction k with
  | zero => rfl
  | succ k ih =>
    have hcounter : (UInt32.ofNat (k + 1)).toNat = k + 1 := UInt32.toNat_ofNat_of_lt' h
    have hlt : 1 < UInt32.ofNat (k + 1) ↔ 0 < k := by
      rw [UInt32.lt_iff_toNat_lt, hcounter]
      exact Nat.lt_add_left_iff_pos
    rw [repeats_succ, ih (Nat.lt_of_succ_lt h)]
    simp only [hlt]
    split <;> omega

/-- what one send of `b` more adds up to, where the `k + 1`st send of a burst adds `d k` -/
theorem sum_send {α : Type} [DecidableEq α] {B : Finset α} {b : α} (hb : b ∈ B) {F d : Nat → Nat}
    (hF : ∀ k, F (k + 1) = F k + d k) (k : α → Nat) :
    ∑ x ∈ B, F (k x + if b = x then 1 else 0) = ∑ x ∈ B, F (k x) + d (k b) := by
  have hone (x : α) : F (k x + if b = x then 1 else 0) = F (k x) + if b = x then d (k x) else 0 := by
    split
    · exact hF (k x)
    · rfl
  simp only [hone, Finset.sum_add_distrib, Finset.sum_ite_eq, if_pos hb]

/-! ## Counters -/

/-- the bursts of all packets, each with the number of its packet before its own -/
def positions (s : Sender) : Finset (Nat × Nat) :=
  (Finset.range s.packets.length).biUnion fun n =>
    (Finset.range ((s.burstCount? n).getD 0 + 2)).image (n, ·)

theorem mem_positions {s : Sender} {n i : Nat} : (n, i) ∈ s.positions ↔ s.HasBurst n i := by
  rw [positions, Finset.mem_biUnion]
  constructor
  · rintro ⟨m, hm, hi⟩
    obtain ⟨j, hj, he⟩ := Finset.mem_image.mp hi
    obtain ⟨rfl, rfl⟩ := Prod.mk.inj he
    have hx := List.getElem?_eq_getElem (Finset.mem_range.mp hm)
    rw [burstCount?, hx, Finset.mem_range] at hj
    exact ⟨_, by rw [burstCount?, hx]; rfl, Nat.le_of_lt_succ hj⟩
  · rintro ⟨c, hc, hi⟩
    obtain ⟨x, hx, -⟩ := Option.map_eq_some_iff.mp hc
    refine ⟨n, Finset.mem_range.mpr (List.getElem?_eq_some_iff.mp hx).1,
      Finset.mem_image.mpr ⟨i, Finset.mem_range.mpr ?_, rfl⟩⟩
    rw [hc]
    exact Nat.lt_succ_of_le hi

/-- each burst was sent as often as `k` says, and this is what is counted of it -/
structure Counted (B : Finset (Nat × Nat)) (k : Nat × Nat → Nat) (s : Sender) : Prop where
  attempts : ∀ n i, s.attempts n i = UInt32.ofNat (k (n, i))
  sent : s.burstsSent = ∑ x ∈ B, k x
  resent : s.burstsResent = ∑ x ∈ B, repeats (k x)

section
variable {B : Finset (Nat × Nat)} {k : Nat × Nat → Nat} {s s' : Sender} {cs : List ControlLine}
  {sent : Option (Nat × Nat)} {wire : Option Bytes} {asked : Option Nat}

theorem Counted.of_tally (h : Counted B k s) (htally : s'.tally = s.tally)
    (hattempts : ∀ n i, s'.attempts n i = s.attempts n i) : Counted B k s' := by
  obtain ⟨hsent, hresent, -⟩ := Tally.mk.inj htally
  exact ⟨fun n i => (hattempts n i).trans (h.attempts n i), hsent.trans h.sent,
    hresent.trans h.resent⟩

theorem Outcome.counted (h : Outcome s s' cs sent wire asked) (hB : ∀ x ∈ sent, x ∈ B)
    (hc : Counted B k s) : Counted B (fun x => k x + sent.toList.count x) s' := by
  have hattempts := h.attempts_eq
  have hnothing (h : ∀ n i, s'.attempts n i = s.attempts n i + 0) (n i : Nat) :
      s'.attempts n i = s.attempts n i := (h n i).trans (UInt32.add_zero _)
  cases h with
  | hears _ htally => exact hc.of_tally htally (hnothing hattempts)
  | settles _ htally => exact hc.of_tally htally (hnothing hattempts)
  | solicits _ htally => exact hc.of_tally htally (hnothing hattempts)
  | @sends e n i x he htally =>
    obtain ⟨hsent, hresent, -⟩ := Tally.mk.inj htally
    have hmem : (n, i) ∈ B := hB _ rfl
    have hone (y : Nat × Nat) : (some (n, i)).toList.count y = if (n, i) = y then 1 else 0 := by
      rw [Option.toList_some, List.count_singleton]
      simp only [beq_iff_eq]
    have hrepeat : e.isRepeat.toNat = if 1 < UInt32.ofNat (k (n, i) + 1) then 1 else 0 := by
      have hcounter : x.bursts.attempts i = UInt32.ofNat (k (n, i)) := by
        rw [← hc.attempts, attempts, he.packet, Option.map_some, Option.getD_some]
      rw [he.isRepeat, hcounter, UInt32.ofNat_add]
      exact Bool.cond_decide _ 1 0
    refine ⟨fun m j => ?_, ?_, ?_⟩
    · rw [hattempts, hc.attempts, UInt32.ofNat_add]
    · simp only [hone]
      rw [sum_send hmem (F := fun k => k) (fun _ => rfl), ← hc.sent]
      exact hsent
    · simp only [hone]
      rw [sum_send hmem repeats_succ, ← hc.resent, ← hrepeat]
      exact hresent

theorem Outcome.bytesSent_eq (h : Outcome s s' cs sent wire asked) :
    s'.bytesSent = s.bytesSent + (wire.toList.map List.length).sum := by
  cases h with
  | hears _ htally => exact congrArg Tally.bytes htally
  | sends _ htally => exact congrArg Tally.bytes htally
  | settles _ htally => exact congrArg Tally.bytes htally
  | solicits _ htally => exact congrArg Tally.bytes htally

end

section
variable {fs : List Framed} {s : Sender}

theorem hasBurst_of_sends? (ht : Each (Tables fs) s.packets) {a : Act} {n i : Nat}
    (h : s.sends? a = some (n, i)) : s.HasBurst n i := by
  cases a with
  | transmit =>
    obtain ⟨x, hx, hu⟩ := burstStatus?_eq_unsent.mp (mem_pending.mp (List.mem_of_head? h))
    obtain ⟨f, -, hf⟩ := ht n x hx
    exact (hasBurst_iff hx hf).mpr (BurstTable.lt_of_unsent hu)
  | input _ _ => exact absurd h (by simp [sends?])
  | control _ _ => exact absurd h (by simp [sends?])
  | status _ => exact absurd h (by simp [sends?])

theorem counted_run {B : Finset (Nat × Nat)} {k : Nat × Nat → Nat}
    (ht : Each (Tables fs) s.packets) (hB : ∀ n i, s.HasBurst n i → (n, i) ∈ B)
    (hc : Counted B k s) (acts : List Act) :
    Counted B (fun x => k x + (s.sent acts).count x) (s.run acts) := by
  induction acts generalizing s k with
  | nil => exact hc
  | cons a acts ih =>
    have hact := (outcome_act ht a).counted (fun x hx => hB x.1 x.2 (hasBurst_of_sends? ht hx)) hc
    have hrest := ih (tables_act ht a)
      (fun n i h => hB n i ((hasBurst_congr (framed?_act ht a n)).mp h)) hact
    simp only [Nat.add_assoc] at hrest
    simp only [sent, trace, List.count_append]
    exact hrest

theorem bytesSent_run (ht : Each (Tables fs) s.packets) (acts : List Act) :
    (s.run acts).bytesSent = s.bytesSent + ((s.returned acts).map List.length).sum := by
  induction acts generalizing s with
  | nil => rfl
  | cons a acts ih =>
    have hrest := ih (tables_act ht a)
    rw [(outcome_act ht a).bytesSent_eq, Nat.add_assoc, ← List.sum_append, ← List.map_append] at hrest
    exact hrest

end

/-! ## Bursts on the wire -/

section
variable [Deflate.Encoder] {pkg : Package} {config : SenderConfig} {start : Nat} {s₀ : Sender}

/-- different bursts of a packaged profile differ on the wire -/
theorem render?_inj {p : Profile} {plan : Instructions} (hpkg : p.package plan = .ok pkg)
    (hnew : Sender.new pkg config start = .ok s₀) {n m i j : Nat} {w : Bytes}
    (h : s₀.render? n i = some w) (h' : s₀.render? m j = some w) : (n, i) = (m, j) := by
  obtain ⟨-, -, -, hpackaged⟩ := Profile.package_eq_ok hpkg
  obtain ⟨parcels, -, hle, rfl, hall⟩ := parcels_of_new hpkg hnew
  have hlimit : pkg.burstSize ≤ Burst.mostPayload := (Framed.mem_burstSizes hpackaged.burstSize).2
  -- the wire tells the packet and the burst
  have hread {n i : Nat} (h : Sender.render? ⟨config, ⟨p.serial, p.profile⟩,
      parcels.map fun q => .new q.framed, .new, start, start, 0, 0, 0, 0⟩ n i = some w) :
      ∃ q k, n < 10000 ∧ parcels[n]? = some q ∧ i = q.framed.indexOf k ∧
        Burst.parse pkg.burstSize w =
          .ok (some (⟨⟨ProfileKey.shown ⟨p.serial, p.profile⟩, UInt16.ofNat n⟩, k⟩, w.length)) := by
    obtain ⟨x, hx, hw⟩ := Option.bind_eq_some_iff.mp h
    obtain ⟨q, hq, rfl⟩ := Option.map_eq_some_iff.mp (List.getElem?_map.symm.trans hx)
    obtain ⟨b, hb, rfl⟩ := Option.map_eq_some_iff.mp hw
    obtain ⟨k, hk, rfl⟩ := Option.map_eq_some_iff.mp hb
    have hn : n < 10000 := Nat.lt_of_lt_of_le (List.getElem?_eq_some_iff.mp hq).1 hle
    obtain ⟨hsound, -⟩ := hall n q hq
    exact ⟨q, k, hn, hq, Framed.eq_indexOf hsound.count_le hk,
      hsound.parse hlimit hn (Nat.le_refl _) hk⟩
  obtain ⟨q, k, hn, hq, rfl, hp⟩ := hread h
  obtain ⟨q', k', hm, hq', rfl, hp'⟩ := hread h'
  have hsame := (Prod.mk.inj (Option.some.inj (Except.ok.inj (hp.symm.trans hp')))).1
  obtain ⟨hkey, rfl⟩ := Burst.mk.inj hsame
  have hnumber := congrArg UInt16.toNat (PacketKey.mk.inj hkey).2
  rw [UInt16.toNat_ofNat', UInt16.toNat_ofNat'] at hnumber
  obtain rfl : n = m := by omega
  rw [Option.some.inj (hq.symm.trans hq')]

theorem count_returned {p : Profile} {plan : Instructions} (hpkg : p.package plan = .ok pkg)
    (hnew : Sender.new pkg config start = .ok s₀) {n i : Nat} {w : Bytes}
    (hw : s₀.render? n i = some w) (acts : List Act) :
    (s₀.returned acts).count w = (s₀.sent acts).count (n, i) := by
  obtain ⟨⟨fs, ht⟩, -⟩ := each_of_new hnew .refl
  have honly (x : Nat × Nat) : s₀.render? x.1 x.2 = some w ↔ x = (n, i) := by
    constructor
    · exact fun hx => render?_inj hpkg hnew hx hw
    · rintro rfl
      exact hw
  rw [← List.count_map_of_injective _ some (Option.some_injective _), returned_run ht,
    List.count_eq_countP, List.countP_map, List.count_eq_countP]
  refine List.countP_congr fun x _ => ?_
  rw [Function.comp_apply, beq_iff_eq, beq_iff_eq]
  exact honly x

end

/-! ## All together -/

section
variable [Deflate.Encoder] {pkg : Package} {config : SenderConfig} {start : Nat} {s₀ : Sender}

/-- a new sender has sent and counted nothing -/
theorem fresh_of_new (hnew : Sender.new pkg config start = .ok s₀) :
    s₀.key = ⟨pkg.info.serial, pkg.info.profile⟩ ∧ s₀.tally = ⟨0, 0, 0⟩ ∧
      ∀ n i, s₀.attempts n i = 0 := by
  obtain ⟨info, data, -, -, -, rfl⟩ := of_new hnew
  refine ⟨rfl, rfl, fun n i => ?_⟩
  rw [attempts, List.getElem?_map]
  cases (info :: data)[n]? with
  | none => rfl
  | some f => exact attempts_new f i

/-- What was handed out is what was sent, each burst no more often than it was called for, and the
counters say how often.  The burst's own counter does so modulo `2 ^ 32`, and exactly in a run that
sends no burst that often. -/
theorem sends_accounted (hnew : Sender.new pkg config start = .ok s₀) (acts : List Act) :
    let key : ProfileKey := ⟨pkg.info.serial, pkg.info.profile⟩
    let s := s₀.run acts
    let sends (n i : Nat) : Nat := (s₀.sent acts).count (n, i)
    let grown := s.counters.since s₀.counters
    -- what was handed out
    ((s₀.returned acts).map some = (s₀.sent acts).map (fun x => s₀.render? x.1 x.2) ∧
      (∀ n i, s.attempts n i = UInt32.ofNat (sends n i)) ∧
      ∀ (p : Profile) (plan : Instructions), p.package plan = .ok pkg →
        ∀ n i w, s₀.render? n i = some w → (s₀.returned acts).count w = sends n i) ∧
    -- what called for it
    (∀ n i, sends n i ≤
      1 + (s₀.heard acts).countP (·.AsksPacket key n) + (s₀.heard acts).countP (·.AsksBurst key n i) +
        if s₀.IsTerminal n i then (s₀.solicitations acts).length else 0) ∧
    -- what was counted
    (grown.burstsSent = ∑ x ∈ s₀.positions, sends x.1 x.2 ∧
      grown.burstsResent = ∑ x ∈ s₀.positions, repeats (sends x.1 x.2) ∧
      grown.bytesSent = ((s₀.returned acts).map List.length).sum) ∧
    -- and while no counter has started again
    ((∀ n i, sends n i < UInt32.size) →
      (∀ n i, (s.attempts n i).toNat = sends n i) ∧
      grown.burstsSent = ∑ x ∈ s₀.positions, (s.attempts x.1 x.2).toNat ∧
      grown.burstsResent = ∑ x ∈ s₀.positions, ((s.attempts x.1 x.2).toNat - 1)) := by
  intro key s sends grown
  obtain ⟨⟨fs, ht⟩, -⟩ := each_of_new hnew .refl
  obtain ⟨hkey, htally, hfresh⟩ := fresh_of_new hnew
  obtain ⟨hsent, hresent, hbytes⟩ := Tally.mk.inj htally
  have hcounted : Counted s₀.positions (fun x => 0 + (s₀.sent acts).count x) s := by
    refine counted_run ht (fun n i => mem_positions.mpr) ⟨hfresh, ?_, ?_⟩ acts
    · rw [hsent, Finset.sum_const_zero]
    · rw [hresent]
      exact Finset.sum_const_zero.symm
  simp only [Nat.zero_add] at hcounted
  have hburstsSent : grown.burstsSent = ∑ x ∈ s₀.positions, sends x.1 x.2 := by
    rw [← hcounted.sent]
    show s.burstsSent - s₀.burstsSent = _
    rw [hsent, Nat.sub_zero]
  have hburstsResent : grown.burstsResent = ∑ x ∈ s₀.positions, repeats (sends x.1 x.2) := by
    rw [← hcounted.resent]
    show s.burstsResent - s₀.burstsResent = _
    rw [hresent, Nat.sub_zero]
  refine ⟨⟨returned_run ht acts, hcounted.attempts, fun p plan hpkg n i w hw => ?_⟩, fun n i => ?_,
    ⟨hburstsSent, hburstsResent, ?_⟩, fun hbound => ?_⟩
  · exact count_returned hpkg hnew hw acts
  · have hle : sends n i ≤ s₀.waits n i + requests s₀.key n i (s₀.heard acts) + _ :=
      count_sent_le ht acts n i
    have hone := s₀.waits_le_one n i
    rw [show s₀.key = key from hkey, requests] at hle
    omega
  · show s.bytesSent - s₀.bytesSent = _
    rw [bytesSent_run ht acts, hbytes, Nat.zero_add, Nat.sub_zero]
  · have hexact (n i : Nat) : (s.attempts n i).toNat = sends n i := by
      rw [hcounted.attempts]
      exact UInt32.toNat_ofNat_of_lt' (hbound n i)
    refine ⟨hexact, ?_, ?_⟩
    · simp only [hexact, hburstsSent]
    · simp only [hexact, hburstsResent]
      exact Finset.sum_congr rfl fun x _ => repeats_of_lt (hbound x.1 x.2)

end

/-- everything is sent, and after half a minute an answer is asked for; then comes a request for burst
1 of packet 1, and one for the whole packet on the link -/
def requestingActs : List Act :=
  List.replicate 7 .transmit ++ [.status 30000, .transmit, .transmit,
    .control (.resendBurst (smallKey 1) 1) 30001, .transmit,
    .input (ControlLine.resendPacket (smallKey 1)).wire 30002] ++ List.replicate 5 .transmit

set_option maxRecDepth 2000 in
/-- the terminal burst of packet 1 is sent as often as it can be, and 7 of the 14 bursts are repeats -/
theorem requests_accounted :
    ∃ pkg s₀ w, Exchange.smallCast.package Exchange.smallPlan = .ok pkg ∧
      Sender.new pkg .standard 0 = .ok s₀ ∧ s₀.render? 1 3 = some w ∧
      (∀ n i, (s₀.sent requestingActs).count (n, i) < UInt32.size) ∧
      (s₀.returned requestingActs).count w = 3 ∧
      (s₀.sent requestingActs).count (1, 3) ≤ 3 ∧ (s₀.sent requestingActs).count (1, 2) ≤ 2 ∧
      ((s₀.run requestingActs).attempts 1 3).toNat = 3 ∧
      ∑ x ∈ s₀.positions, ((s₀.run requestingActs).attempts x.1 x.2).toNat = 14 ∧
      ∑ x ∈ s₀.positions, (((s₀.run requestingActs).attempts x.1 x.2).toNat - 1) = 7 := by
  have heval : Exchange.passes Exchange.smallCast Exchange.smallPlan (fun _ s =>
      let grown := (s.run requestingActs).counters.since s.counters
      decide ((s.render? 1 3).isSome = true ∧ s.IsTerminal 1 3 ∧ ¬ s.IsTerminal 1 2 ∧
        (s.sent requestingActs).length = 14 ∧ (s.sent requestingActs).count (1, 3) = 3 ∧
        s.heard requestingActs = [.resendBurst (smallKey 1) 1, .resendPacket (smallKey 1)] ∧
        s.solicitations requestingActs = [30000] ∧
        grown.burstsSent = 14 ∧ grown.burstsResent = 7)) = true := by
    decide +kernel
  obtain ⟨pkg, s₀, hpkg, hs, heval⟩ := Exchange.exists_of_passes heval
  obtain ⟨hsome, hlast, hother, hall, hthree, hheard, hasked, hsent, hresent⟩ :=
    of_decide_eq_true heval
  obtain ⟨w, hw⟩ := Option.isSome_iff_exists.mp hsome
  have hfew (n i : Nat) : (s₀.sent requestingActs).count (n, i) < UInt32.size :=
    Nat.lt_of_le_of_lt List.count_le_length (hall ▸ by decide)
  obtain ⟨⟨-, -, hreturned⟩, hbound, -, hexact⟩ := sends_accounted hs requestingActs
  obtain ⟨hattempts, hburstsSent, hburstsResent⟩ := hexact hfew
  have hkey : (⟨pkg.info.serial, pkg.info.profile⟩ : ProfileKey) = ⟨770, 12345⟩ := by
    rw [(Profile.package_eq_ok hpkg).1]
    rfl
  rw [hkey, hheard, hasked] at hbound
  have hterminal := hbound 1 3
  have hdata := hbound 1 2
  rw [if_pos hlast] at hterminal
  rw [if_neg hother] at hdata
  exact ⟨pkg, s₀, w, hpkg, hs, hw, hfew, (hreturned _ _ hpkg 1 3 w hw).trans hthree, hterminal, hdata,
    (hattempts 1 3).trans hthree, hburstsSent.symm.trans hsent, hburstsResent.symm.trans hresent⟩

end Sender

end Shoreline
