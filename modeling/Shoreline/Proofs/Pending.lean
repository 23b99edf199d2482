import Shoreline.Proofs.Agreement
import Shoreline.Proofs.Dispatch

/-!
# A sender sends what is pending

Whatever was done with a sender, the statuses of a packet and of its bursts agree, and the bursts
handed out until none is left are those that wait.  Requests of a sender that has nothing to send
are answered by the bursts that they name.

* `mem_pending`, `pairwise_pending`, `map_pending`   the bursts that wait, in the order in which they
  are handed out;
* `unsent_hearAll`        what waits after requests;
* `drain_sends_pending`   all of it together.
-/

namespace Shoreline

/-! ## One request -/

/-- the line is about burst `i` of packet `n` of this profile, or about the whole packet -/
def ControlLine.Names (key : ProfileKey) (n i : Nat) (c : ControlLine) : Prop :=
  c.key.toProfileKey = key ∧ c.key.packet.toNat = n ∧ (c.isWholePacket = true ∨ c.burst.toNat = i)

namespace Outbound
variable {x : Outbound} {i : Nat}

theorem framed_apply (x : Outbound) (c : ControlLine) : (x.apply c).framed = x.framed := by
  rw [apply]
  split
  · split <;> rfl
  · split
    · rfl
    · split <;> rfl

/-- a request makes exactly the bursts wait that it names -/
theorem unsent_apply {c : ControlLine} (hk : c.kind = .resend) :
    (x.apply c).bursts.Unsent i ↔ x.bursts.Unsent i ∨
      ((c.isWholePacket = true ∨ c.burst.toNat = i) ∧ i < x.bursts.size) := by
  rw [apply, hk]
  dsimp only
  split
  · next hwhole =>
    rw [BurstTable.unsent_reset]
    exact ⟨fun hi => Or.inr ⟨Or.inl hwhole, hi⟩, fun h => h.elim BurstTable.lt_of_unsent And.right⟩
  next hwhole =>
  rw [or_iff_right hwhole]
  split
  · rw [BurstTable.unsent_markUnsent]
    constructor
    · rintro (⟨rfl, hlt⟩ | hi)
      · exact Or.inr ⟨rfl, hlt⟩
      · exact Or.inl hi
    · rintro (hi | ⟨rfl, hlt⟩)
      · exact Or.inr hi
      · exact Or.inl ⟨rfl, hlt⟩
  · next hbig =>
    constructor
    · exact Or.inl
    · rintro (hi | ⟨rfl, hlt⟩)
      · exact hi
      · exact absurd hlt hbig

end Outbound

namespace Sender
open Outbound

/-! ## What is pending -/

/-- the bursts that wait, each with the number of its packet before its own -/
def pending (s : Sender) : List (Nat × Nat) :=
  (List.range s.packets.length).flatMap fun n =>
    ((s.packets[n]?.map (·.bursts.unsent)).getD []).map (n, ·)

/-- burst `i` of packet `n` on the wire -/
def render? (s : Sender) (n i : Nat) : Option Bytes := s.packets[n]?.bind (·.framed.render? i)

section
variable {s : Sender} {n i : Nat}

theorem mem_pending : (n, i) ∈ s.pending ↔ s.burstStatus? n i = some .unsent := by
  rw [pending, List.mem_flatMap, burstStatus?_eq_unsent]
  constructor
  · rintro ⟨m, -, hm⟩
    obtain ⟨j, hj, he⟩ := List.mem_map.mp hm
    obtain ⟨rfl, rfl⟩ := Prod.mk.inj he
    cases hx : s.packets[m]? with
    | none =>
      rw [hx] at hj
      exact absurd hj (by simp)
    | some x =>
      rw [hx] at hj
      exact ⟨x, rfl, of_decide_eq_true (List.mem_filter.mp hj).2⟩
  · rintro ⟨x, hx, hi⟩
    refine ⟨n, List.mem_range.mpr (List.getElem?_eq_some_iff.mp hx).1,
      List.mem_map.mpr ⟨i, ?_, rfl⟩⟩
    rw [hx]
    exact List.mem_filter.mpr
      ⟨List.mem_range.mpr (BurstTable.lt_of_unsent hi), decide_eq_true hi⟩

/-- lower packets come first, and lower bursts of a packet -/
theorem pairwise_pending (s : Sender) : s.pending.Pairwise (Prod.Lex (· < ·) (· < ·)) := by
  rw [pending, List.pairwise_flatMap]
  refine ⟨fun n _ => ?_, ?_⟩
  · rw [List.pairwise_map]
    cases s.packets[n]? with
    | none => exact List.Pairwise.nil
    | some x => exact (List.pairwise_lt_range.filter _).imp fun h => Prod.Lex.right _ h
  · refine List.pairwise_lt_range.imp fun {m n} hmn a ha b hb => ?_
    obtain ⟨_, -, rfl⟩ := List.mem_map.mp ha
    obtain ⟨_, -, rfl⟩ := List.mem_map.mp hb
    exact Prod.Lex.left _ _ hmn

/-- on the wire, they are the queues of the packets one after the other -/
theorem map_pending (s : Sender) :
    (s.pending.map fun x => s.render? x.1 x.2) = s.packets.flatMap queue := by
  let wires (o : Option Outbound) : List (Option Bytes) :=
    ((o.map (·.bursts.unsent)).getD []).map fun i => o.bind (·.framed.render? i)
  rw [pending, List.map_flatMap, List.flatMap_def, List.flatMap_def]
  refine congrArg List.flatten (Eq.trans ?_ (map_range_getElem? wires s.packets))
  refine List.map_congr_left fun n _ => ?_
  rw [List.map_map]
  rfl

theorem drain_eq_pending (ht : ∀ p ∈ s.packets, ∃ f, Tabled f p) :
    s.drain.1.map some = s.pending.map fun x => s.render? x.1 x.2 := by
  rw [drain_eq_queue s ht, map_pending]

end

/-! ## Requests -/

/-- hears lines, each at its time -/
def hearAll (s : Sender) (ls : List (ControlLine × Nat)) : Sender :=
  ls.foldl (fun s x => s.handleControl x.1 x.2) s

section
variable {s s' : Sender} {n i : Nat} {c : ControlLine} {ls : List (ControlLine × Nat)}

theorem reaches_hearAll (h : s'.Reaches s) (ls : List (ControlLine × Nat)) :
    s'.Reaches (s.hearAll ls) := by
  induction ls generalizing s with
  | nil => exact h
  | cons x ls ih => exact ih (h.control x.1 x.2)

theorem framed?_handleControl (s : Sender) (c : ControlLine) (t n : Nat) :
    (s.handleControl c t).packets[n]?.map (·.framed) = s.packets[n]?.map (·.framed) := by
  rw [getElem?_handleControl, Option.map_map]
  congr 1
  funext x
  show Outbound.framed (if _ then _ else _) = _
  split
  · exact framed_apply x c
  · rfl

theorem framed?_hearAll (s : Sender) (ls : List (ControlLine × Nat)) (n : Nat) :
    (s.hearAll ls).packets[n]?.map (·.framed) = s.packets[n]?.map (·.framed) := by
  induction ls generalizing s with
  | nil => rfl
  | cons x ls ih => exact (ih _).trans (framed?_handleControl s x.1 x.2 n)

/-- the packet has a burst of this number -/
def HasBurst (s : Sender) (n i : Nat) : Prop := ∃ c, s.burstCount? n = some c ∧ i ≤ c + 1

theorem hasBurst_iff {x : Outbound} {f : Framed} (hx : s.packets[n]? = some x) (hf : Tabled f x) :
    s.HasBurst n i ↔ i < x.bursts.size := by
  rw [HasBurst, burstCount?, hx, hf.size_eq, ← hf.framed_eq]
  constructor
  · rintro ⟨c, hc, hi⟩
    obtain rfl := Option.some.inj hc
    exact Nat.lt_succ_of_le hi
  · exact fun hi => ⟨x.framed.count, rfl, Nat.le_of_lt_succ hi⟩

theorem hasBurst_congr (h : s'.packets[n]?.map (·.framed) = s.packets[n]?.map (·.framed)) :
    s'.HasBurst n i ↔ s.HasBurst n i := by
  have hcount (s : Sender) : s.burstCount? n = (s.packets[n]?.map (·.framed)).map (·.count) := by
    rw [burstCount?, Option.map_map]
    rfl
  rw [HasBurst, HasBurst, hcount, hcount, h]

theorem unsent_handleControl (ht : ∀ p ∈ s.packets, ∃ f, Tabled f p) (hk : c.kind = .resend)
    (t : Nat) :
    (s.handleControl c t).burstStatus? n i = some .unsent ↔
      s.burstStatus? n i = some .unsent ∨ (c.Names s.key n i ∧ s.HasBurst n i) := by
  rw [burstStatus?_eq_unsent, burstStatus?_eq_unsent, getElem?_handleControl]
  cases hx : s.packets[n]? with
  | none =>
    have hnone : ¬ s.HasBurst n i := by
      rintro ⟨_, hc, -⟩
      rw [burstCount?, hx] at hc
      exact absurd hc (by simp)
    simp [hnone]
  | some x =>
    obtain ⟨f, hf⟩ := ht x (List.mem_of_getElem? hx)
    rw [hasBurst_iff hx hf]
    simp only [Option.map_some, Option.some.injEq, exists_eq_left']
    split
    · next hnamed =>
      rw [unsent_apply hk, ControlLine.Names]
      simp only [hnamed.1, hnamed.2, true_and]
    · next hnamed =>
      have hnot : ¬ c.Names s.key n i := fun h => hnamed ⟨h.1, h.2.1⟩
      simp only [hnot, false_and, or_false]

theorem unsent_hearAll {fs : List Framed} (ht : Each (Tables fs) s.packets)
    (hk : ∀ x ∈ ls, x.1.kind = .resend) :
    (s.hearAll ls).burstStatus? n i = some .unsent ↔
      s.burstStatus? n i = some .unsent ∨ ((∃ x ∈ ls, x.1.Names s.key n i) ∧ s.HasBurst n i) := by
  induction ls generalizing s with
  | nil => simp [hearAll]
  | cons x ls ih =>
    have ht' := (keeps_tables fs).handleControl ht x.1 x.2
    rw [show s.hearAll (x :: ls) = (s.handleControl x.1 x.2).hearAll ls from rfl,
      ih ht' fun y hy => hk y (List.mem_cons_of_mem _ hy),
      unsent_handleControl (exists_tabled ht) (hk x List.mem_cons_self), key_handleControl,
      hasBurst_congr (framed?_handleControl s x.1 x.2 n), List.exists_mem_cons_iff, or_assoc,
      or_and_right]

end

/-! ## All together -/

section
variable {fs : List Framed} {s : Sender}

theorem each_of_new [Deflate.Encoder] {pkg : Package} {config : SenderConfig} {now : Nat}
    {s₀ : Sender} (hnew : Sender.new pkg config now = .ok s₀) (hr : s₀.Reaches s) :
    (∃ fs, Each (Tables fs) s.packets) ∧ Each Steady s.packets := by
  obtain ⟨info, data, -, -, -, rfl⟩ := of_new hnew
  refine ⟨⟨info :: data, tables_of_reaches (tables_new _) hr⟩, each_of_reaches keeps_steady ?_ hr⟩
  intro n x hx
  obtain ⟨f, -, rfl⟩ := Option.map_eq_some_iff.mp (List.getElem?_map.symm.trans hx)
  exact ⟨fun hc => absurd hc (by simp [Outbound.new]), fun _ => by simp [Outbound.new]⟩

/-- whatever was done with a sender, what it hands out is what is pending, and requests are answered
by what they name -/
theorem drain_sends_pending [Deflate.Encoder] {pkg : Package} {config : SenderConfig} {now : Nat}
    {s₀ : Sender} (hnew : Sender.new pkg config now = .ok s₀) (hr : s₀.Reaches s) :
    -- packets and bursts agree
    ((∀ n, s.packetStatus? n = some .confirmed →
        ∀ i p, s.burstStatus? n i = some p → p = .confirmed) ∧
      ∀ n i, s.burstStatus? n i = some .unsent → s.packetStatus? n = some .unsent) ∧
    -- what waits is handed out, in order
    (s.drain.1.map some = (s.pending.map fun x => s.render? x.1 x.2) ∧
      s.pending.Pairwise (Prod.Lex (· < ·) (· < ·)) ∧
      ∀ n i, (n, i) ∈ s.pending ↔ s.burstStatus? n i = some .unsent) ∧
    -- afterwards
    ((∀ n i, s.drain.2.burstStatus? n i =
        (s.burstStatus? n i).map fun p => if p = .unsent then .sent else p) ∧
      (∀ n i, s.drain.2.attempts n i =
        s.attempts n i + if s.burstStatus? n i = some .unsent then 1 else 0) ∧
      s.drain.2.isIdle = true ∧
      ∀ n p, s.drain.2.packetStatus? n = some p →
        p = .confirmed ∨ p = if n = 0 then .unsent else .sent) ∧
    -- requests of a sender with nothing to send
    (s.isIdle = true → ∀ ls : List (ControlLine × Nat), (∀ x ∈ ls, x.1.kind = .resend) →
      (s.hearAll ls).drain.1.map some =
          ((s.hearAll ls).pending.map fun x => s.render? x.1 x.2) ∧
        (s.hearAll ls).pending.Pairwise (Prod.Lex (· < ·) (· < ·)) ∧
        ∀ n i, (n, i) ∈ (s.hearAll ls).pending ↔
          (∃ x ∈ ls, x.1.Names s.key n i) ∧ s.HasBurst n i) := by
  obtain ⟨⟨fs, ht⟩, hs⟩ := each_of_new hnew hr
  refine ⟨⟨fun n hn i p hp => ?_, fun n i hi => ?_⟩,
    ⟨drain_eq_pending (exists_tabled ht), pairwise_pending s, fun n i => mem_pending⟩,
    ⟨burstStatus?_drain ht, attempts_drain ht, isIdle_drain ht,
      fun n p => packetStatus?_drain ht hs⟩,
    fun hidle ls hk => ⟨?_, pairwise_pending _, fun n i => ?_⟩⟩
  · obtain ⟨x, hx, hc⟩ := Option.map_eq_some_iff.mp hn
    rw [burstStatus?, hx] at hp
    exact (hs n x hx).confirmed hc i p hp
  · obtain ⟨x, hx, hu⟩ := burstStatus?_eq_unsent.mp hi
    obtain ⟨f, -, hf⟩ := ht n x hx
    rw [packetStatus?, hx]
    by_contra hne
    exact BurstTable.allSent_iff.mp (hf.settled fun he => hne (congrArg some he)) i hu
  · have hrender : ∀ n i, (s.hearAll ls).render? n i = s.render? n i := by
      intro n i
      have hsame (s : Sender) :
          s.render? n i = (s.packets[n]?.map (·.framed)).bind (·.render? i) := by
        rw [Option.bind_map]
        rfl
      rw [hsame, hsame, framed?_hearAll]
    obtain ⟨⟨fs', ht'⟩, -⟩ := each_of_new hnew (reaches_hearAll hr ls)
    rw [drain_eq_pending (exists_tabled ht')]
    simp only [hrender]
  · rw [mem_pending, unsent_hearAll ht hk, or_iff_right (isIdle_iff.mp hidle n i)]

/-- to hand out all that waits is something a sender does -/
theorem reaches_drain {s' : Sender} (h : s'.Reaches s) : s'.Reaches s.drain.2 := by
  have honto (s : Sender) (acc : List Bytes) (h : s'.Reaches s) :
      s'.Reaches (drainOnto acc s).2 := by
    induction hn : s.waiting using Nat.strongRecOn generalizing s acc with
    | ind n ih =>
      have hone := h.transmit
      match he : s.emit? with
      | (none, s'') =>
        rw [he] at hone
        rwa [drainOnto_none acc he]
      | (some e, s'') =>
        rw [he] at hone
        rw [drainOnto_some acc he]
        exact ih _ (hn ▸ waiting_emit? he) s'' _ hone rfl
  exact honto s [] h

end

/-- a burst of packet 1, all of packet 0, and two bursts that there are not -/
def someRequests : List (ControlLine × Nat) :=
  [.resendBurst ⟨⟨770, 12345⟩, 1⟩ 1, .resendBurst ⟨⟨770, 12345⟩, 1⟩ 500,
    .resendPacket ⟨⟨770, 12345⟩, 0⟩, .resendBurst ⟨⟨771, 12345⟩, 1⟩ 0].map fun c => (c, 5)

set_option maxRecDepth 2000 in
theorem requests_answered :
    ∃ pkg s₀, Exchange.smallCast.package Exchange.smallPlan = .ok pkg ∧
      Sender.new pkg .standard 0 = .ok s₀ ∧ s₀.Reaches s₀.drain.2 ∧ s₀.drain.2.isIdle = true ∧
      (s₀.drain.2.hearAll someRequests).drain.1.map some =
        [(0, 0), (0, 1), (0, 2), (1, 1)].map fun x => s₀.drain.2.render? x.1 x.2 := by
  have heval : Exchange.passes Exchange.smallCast Exchange.smallPlan (fun _ s =>
      decide ((s.drain.2.hearAll someRequests).pending = [(0, 0), (0, 1), (0, 2), (1, 1)])) =
      true := by decide +kernel
  obtain ⟨pkg, s₀, hpkg, hs, heval⟩ := Exchange.exists_of_passes heval
  have hreaches := reaches_drain (s := s₀) .refl
  obtain ⟨-, -, ⟨-, -, hidle, -⟩, -⟩ := drain_sends_pending hs .refl
  obtain ⟨-, -, -, hrequests⟩ := drain_sends_pending hs hreaches
  obtain ⟨hwires, -, -⟩ := hrequests hidle someRequests (by decide)
  rw [of_decide_eq_true heval] at hwires
  exact ⟨pkg, s₀, hpkg, hs, hreaches, hidle, hwires⟩

end Sender

end Shoreline
