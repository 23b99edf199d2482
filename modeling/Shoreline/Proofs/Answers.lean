import Shoreline.Proofs.Delivery
import Shoreline.Proofs.Hearing

/-!
# What a receiver says

A receiver never gives up a packet that it holds, and it says that it holds a packet only when it
does (`Fair`).  Both are shown of each operation at once (`Advances`), first of one packet, then of an
assembly and of the receiver.

* `PacketAssembly.says_receive`, `PacketAssembly.says_pursue`   about one packet;
* `ProfileAssembly.advances_apply`, `ProfileAssembly.advances_requestOutstanding`   about a profile;
* `Receiver.advances_handleBurst`, `Receiver.advances_pollTimers`   about the receiver.
-/

namespace Shoreline

/-! ## One packet -/

namespace PacketAssembly

/-- what may be said of packet `n` when `p` is there of it -/
def Says (p : PacketAssembly) (n : UInt16) : Answer → Prop
  | .rebuilt m | .stillHeld m => m = n ∧ p.held = true
  | .wantsBurst m i => m = n ∧ i ∈ p.missing
  | .wantsAll m => m = n

variable {p : PacketAssembly} {n : UInt16}

theorem says_request {a : Answer} (h : a ∈ p.request n) : p.Says n a := by
  rw [request] at h
  split at h
  · obtain ⟨i, hi, rfl⟩ := List.mem_map.mp h
    exact ⟨rfl, hi⟩
  · rw [List.mem_singleton.mp h]
    exact rfl

theorem says_receive {k : BurstKind} {a : Answer} (h : a ∈ (p.receive n k).2) :
    (p.receive n k).1.Says n a := by
  rw [receive] at h ⊢
  split at h
  · next hheld =>
    rw [if_pos hheld]
    split at h
    · rw [List.mem_singleton.mp h]
      exact ⟨rfl, hheld⟩
    · exact absurd h (by simp)
  next hopen =>
  rw [if_neg hopen]
  split at h
  · next hready =>
    rw [if_pos hready, List.mem_singleton.mp h]
    exact ⟨rfl, rfl⟩
  next hready =>
  rw [if_neg hready]
  split at h
  · exact says_request h
  · exact absurd h (by simp)

theorem says_pursue {a : Answer} (h : a ∈ (p.pursue n).2) : (p.pursue n).1.Says n a := by
  rw [pursue] at h ⊢
  split at h
  · exact absurd h (by simp)
  next hopen =>
  rw [if_neg hopen]
  split at h
  · next hall =>
    rw [if_pos hall, List.mem_singleton.mp h]
    exact ⟨rfl, rfl⟩
  · next hall =>
    rw [if_neg hall]
    exact says_request h

theorem held_receive {k : BurstKind} (h : p.held = true) : (p.receive n k).1.held = true := by
  rw [receive, if_pos h]
  exact h

theorem held_pursue (h : p.held = true) : (p.pursue n).1.held = true := by
  rw [pursue, if_pos h]
  exact h

end PacketAssembly

/-! ## One profile -/

section
variable {S : Shipment}

/-- a line about the shipment that says of no packet that it is held when it is not -/
def Outgoing.Fair (S : Shipment) (s : ProfileAssembly) : Outgoing → Prop
  | .heartbeat => True
  | .control c => (c.Fits ∧ c.key.toProfileKey = S.key) ∧
      (c.kind = .received → (s.packet c.key.packet).held = true)

theorem Outgoing.Fair.suits {s : ProfileAssembly} {o : Outgoing} (h : o.Fair S s) :
    o.Suits S.key := by
  cases o with
  | heartbeat => exact trivial
  | control c => exact h.1

namespace ProfileAssembly
variable {s s' s'' : ProfileAssembly} {n : UInt16} {as bs : List Answer}

/-- what is held stays held, and the answers are fair -/
structure Advances (S : Shipment) (s s' : ProfileAssembly) (as : List Answer) : Prop where
  held : ∀ n, (s.packet n).held = true → (s'.packet n).held = true
  fair : ∀ a ∈ as, Outgoing.Fair S s' (.control (a.line S.key))

theorem fair_of_held {o : Outgoing} (h : o.Fair S s)
    (hheld : ∀ n, (s.packet n).held = true → (s'.packet n).held = true) : o.Fair S s' := by
  cases o with
  | heartbeat => exact trivial
  | control c => exact ⟨h.1, fun hk => hheld _ (h.2 hk)⟩

theorem Advances.refl (S : Shipment) (s : ProfileAssembly) : Advances S s s [] :=
  ⟨fun _ => id, fun a ha => absurd ha (by simp)⟩

theorem Advances.append (h : Advances S s s' as) (h' : Advances S s' s'' bs) :
    Advances S s s'' (as ++ bs) := by
  refine ⟨fun n hn => h'.held n (h.held n hn), fun a ha => ?_⟩
  rcases List.mem_append.mp ha with ha | ha
  · exact fair_of_held (h.fair a ha) h'.held
  · exact h'.fair a ha

/-- what may be said of a packet of the shipment is fair -/
theorem fair_of_says (h : Stocked S.supply s) {q : Parcel} (hq : S.parcels[n.toNat]? = some q)
    {a : Answer} (ha : (s.packet n).Says n a) : Outgoing.Fair S s (.control (a.line S.key)) := by
  have hserial := S.serial_le
  have hwhole : ControlLine.wholePacket.toNat ≤ 999 := by decide
  have hn : n.toNat ≤ 9999 := by
    have := (List.getElem?_eq_some_iff.mp hq).1
    have := S.length_le
    omega
  cases a with
  | rebuilt m =>
    obtain ⟨rfl, hheld⟩ := ha
    exact ⟨⟨⟨hserial, hn, hwhole⟩, rfl⟩, fun _ => hheld⟩
  | stillHeld m =>
    obtain ⟨rfl, hheld⟩ := ha
    exact ⟨⟨⟨hserial, hn, hwhole⟩, rfl⟩, fun _ => hheld⟩
  | wantsAll m =>
    obtain rfl := ha
    exact ⟨⟨⟨hserial, hn, hwhole⟩, rfl⟩, fun hk => absurd hk (by simp [Answer.line,
      ControlLine.resendPacket])⟩
  | wantsBurst m i =>
    obtain ⟨rfl, hi⟩ := ha
    refine ⟨⟨⟨hserial, hn, ?_⟩, rfl⟩, fun hk => absurd hk (by simp [Answer.line,
      ControlLine.resendBurst])⟩
    show i.toNat ≤ 999
    have hcount : q.framed.count ≤ 998 := (S.sound _ _ hq).count_le
    have hi' := mem_numbersTo.mp (List.mem_filter.mp hi).1
    cases hc : (s.packet m).announced with
    | none =>
      rw [hc] at hi'
      exact absurd (Nat.le_trans hi'.1 hi'.2) (by decide)
    | some c =>
      have := Shipment.announce_of_has ((h.contents m).announced c hc) hq
      rw [hc, Option.getD_some] at hi'
      omega

theorem advances_replaces (hs' : Stocked S.supply s') {p : PacketAssembly} {q : Parcel}
    (hq : S.parcels[n.toNat]? = some q) (h : Replaces s s' n p)
    (hheld : (s.packet n).held = true → p.held = true) (hsaid : ∀ a ∈ as, p.Says n a) :
    Advances S s s' as := by
  refine ⟨?_, fun a ha => fair_of_says hs' hq ?_⟩
  · intro m hm
    by_cases hmn : m = n
    · rw [hmn, h.packet_eq]
      exact hheld (hmn ▸ hm)
    · rwa [h.packet_ne m hmn]
  · rw [h.packet_eq]
    exact hsaid a ha

theorem advances_apply (h : Stocked S.supply s) (hi : Idle s) {k : BurstKind} (hk : S.Has n k) :
    Advances S s (s.apply n k).1 (s.apply n k).2 := by
  obtain ⟨q, hq⟩ := S.exists_parcel hk
  obtain ⟨hrep, hanswers⟩ := apply_eq h hi hk
  rw [hanswers]
  exact advances_replaces (stocked_apply h hi hk).1 hq hrep PacketAssembly.held_receive
    fun a ha => PacketAssembly.says_receive ha

theorem advances_pursueAll (h : Stocked S.supply s) (hi : Idle s) {ns : List UInt16}
    (hns : ∀ n ∈ ns, ∃ q, S.parcels[n.toNat]? = some q) :
    Advances S s (s.pursueAll ns).1 (s.pursueAll ns).2 := by
  induction ns generalizing s with
  | nil => exact Advances.refl S s
  | cons n ns ih =>
    obtain ⟨q, hq⟩ := hns n List.mem_cons_self
    obtain ⟨hs', hi'⟩ := stocked_pursue h hi n
    obtain ⟨hrep, hanswers⟩ := pursue_eq h hi n
    have hone : Advances S s (s.pursue n).1 (s.pursue n).2 := by
      rw [hanswers]
      exact advances_replaces hs' hq hrep PacketAssembly.held_pursue
        fun a ha => PacketAssembly.says_pursue ha
    rw [pursueAll]
    exact hone.append (ih hs' hi' fun m hm => hns m (List.mem_cons_of_mem _ hm))

theorem advances_requestOutstanding (h : Stocked S.supply s) (hi : Idle s) :
    Advances S s s.requestOutstanding.1 s.requestOutstanding.2 := by
  rw [requestOutstanding_eq]
  exact advances_pursueAll h hi fun n hn => parcel_of_outstanding h hn

end ProfileAssembly

/-! ## A receiver -/

namespace Receiver
open ProfileAssembly

variable {r r' : Receiver} {now : Nat}

/-- what is held stays held, what is put into the outbox is fair, and the timers that are set are set
to the time `now` -/
structure Advances (S : Shipment) (now : Nat) (r r' : Receiver) : Prop where
  config : r'.config = r.config
  held : ∀ n, ((r.assembly S.key).packet n).held = true →
    ((r'.assembly S.key).packet n).held = true
  outbox : ∀ o ∈ r'.outbox, o ∈ r.outbox ∨ o.Fair S (r'.assembly S.key)
  lastBurst : r'.lastBurst = r.lastBurst ∨ r'.lastBurst = now
  lastResend : r'.lastResend = r.lastResend ∨ r'.lastResend = now
  lastHeartbeat : r'.lastHeartbeat = r.lastHeartbeat ∨ r'.lastHeartbeat = now

theorem Advances.refl (S : Shipment) (now : Nat) (r : Receiver) : Advances S now r r :=
  ⟨rfl, fun _ => id, fun _ ho => Or.inl ho, Or.inl rfl, Or.inl rfl, Or.inl rfl⟩

theorem Advances.trans {r'' : Receiver} (h : Advances S now r r') (h' : Advances S now r' r'') :
    Advances S now r r'' where
  config := h'.config.trans h.config
  held n hn := h'.held n (h.held n hn)
  outbox o ho := by
    rcases h'.outbox o ho with ho | ho
    · exact (h.outbox o ho).imp_right fun ho => fair_of_held ho h'.held
    · exact Or.inr ho
  lastBurst := by
    rcases h'.lastBurst with he | he
    · exact he ▸ h.lastBurst
    · exact Or.inr he
  lastResend := by
    rcases h'.lastResend with he | he
    · exact he ▸ h.lastResend
    · exact Or.inr he
  lastHeartbeat := by
    rcases h'.lastHeartbeat with he | he
    · exact he ▸ h.lastHeartbeat
    · exact Or.inr he

theorem assembly_pollHeartbeat (r : Receiver) (now : Nat) (key : ProfileKey) :
    (r.pollHeartbeat now).assembly key = r.assembly key := by
  rw [assembly, profiles_pollHeartbeat, assembly]

theorem mem_outbox_update {x : ProfileAssembly × List Answer}
    (h : ProfileAssembly.Advances S (r.assembly S.key) x.1 x.2) {o : Outgoing}
    (ho : o ∈ (r.update S.key x).outbox) : o ∈ r.outbox ∨ o.Fair S x.1 := by
  rcases List.mem_append.mp ho with ho | ho
  · exact Or.inl ho
  · obtain ⟨a, ha, rfl⟩ := List.mem_map.mp ho
    exact Or.inr (h.fair a ha)

theorem advances_handleBurst (h : Tuned S.supply r) {n : UInt16} {k : BurstKind}
    (hk : S.Has n k) (now : Nat) : Advances S now r (handleBurst now r ⟨⟨S.key, n⟩, k⟩) := by
  rw [handleBurst_eq]
  split
  · exact ⟨rfl, fun _ => id, fun o ho => Or.inl ho, Or.inr rfl, Or.inl rfl, Or.inl rfl⟩
  · have hadv := advances_apply h.stocked h.idle hk
    refine ⟨rfl, ?_, ?_, Or.inr rfl, Or.inl rfl, Or.inl rfl⟩
    · intro m hm
      show (((update _ S.key _).assembly S.key).packet m).held = true
      rw [assembly_update]
      exact hadv.held m hm
    · intro o ho
      show o ∈ r.outbox ∨ o.Fair S ((update _ S.key _).assembly S.key)
      rw [assembly_update]
      exact mem_outbox_update hadv ho

theorem advances_pollHeartbeat (S : Shipment) (r : Receiver) (now : Nat) :
    Advances S now r (r.pollHeartbeat now) := by
  rw [pollHeartbeat]
  split
  · refine ⟨rfl, fun _ => id, fun o ho => ?_, Or.inl rfl, Or.inl rfl, Or.inr rfl⟩
    rcases List.mem_append.mp ho with ho | ho
    · exact Or.inl ho
    · rw [List.mem_singleton.mp ho]
      exact Or.inr trivial
  · exact ⟨rfl, fun _ => id, fun o ho => Or.inl ho, Or.inl rfl, Or.inl rfl, Or.inl rfl⟩

theorem advances_pollTimers (h : Tuned S.supply r) (now : Nat) :
    Advances S now r (r.pollTimers now) := by
  have hheart := advances_pollHeartbeat S r now
  rcases pollTimers_cases h now with ⟨he, -⟩ | ⟨-, -, he⟩ | ⟨-, -, -, he⟩
  · rw [he]
    exact hheart
  · rw [he]
    exact ⟨hheart.config, hheart.held, hheart.outbox, hheart.lastBurst, Or.inr rfl,
      hheart.lastHeartbeat⟩
  · have hadv := advances_requestOutstanding h.stocked h.idle
    have ha : (r.pollTimers now).assembly S.key =
        (r.assembly S.key).requestOutstanding.1 := by
      rw [he]
      exact assembly_update _ _ _
    refine ⟨by rw [he]; exact hheart.config, fun m hm => by rw [ha]; exact hadv.held m hm,
      fun o ho => ?_, by rw [he]; exact hheart.lastBurst, Or.inr (by rw [he]),
      by rw [he]; exact hheart.lastHeartbeat⟩
    rw [ha]
    rw [he] at ho
    have hadv' : ProfileAssembly.Advances S ((r.pollHeartbeat now).assembly S.key)
        (r.assembly S.key).requestOutstanding.1 (r.assembly S.key).requestOutstanding.2 := by
      rw [assembly_pollHeartbeat]
      exact hadv
    rcases mem_outbox_update hadv' ho with ho | ho
    · rcases hheart.outbox o ho with ho | ho
      · exact Or.inl ho
      · rw [assembly_pollHeartbeat] at ho
        exact Or.inr (fair_of_held ho hadv.held)
    · exact Or.inr ho

end Receiver

end

end Shoreline
