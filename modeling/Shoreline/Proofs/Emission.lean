import Mathlib.Data.List.Forall2
import Shoreline.Proofs.Outbound

/-!
# Bursts that a sender hands out

A sender whose packets are tabled hands out a burst that waits, and goes on until none waits.

* `emitFrom_some`, `emitFrom_none`   one burst, and what becomes of the packets (`Emits`);
* `mem_drain`      the bursts handed out are those that wait;
* `drain_spec`     afterwards none waits, and no packet was confirmed or opened.
-/

namespace Shoreline

section
variable {α β : Type} {R : α → β → Prop} {xs : List α} {ys : List β}

theorem exists_right (h : List.Forall₂ R xs ys) {n : Nat} {x : α} (hx : xs[n]? = some x) :
    ∃ y, ys[n]? = some y ∧ R x y := by
  induction h generalizing n with
  | nil => exact absurd hx (by simp)
  | cons hr _ ih =>
    cases n with
    | zero =>
      obtain rfl := Option.some.inj hx
      exact ⟨_, rfl, hr⟩
    | succ n => exact ih hx

theorem exists_left (h : List.Forall₂ R xs ys) {n : Nat} {y : β} (hy : ys[n]? = some y) :
    ∃ x, xs[n]? = some x ∧ R x y := by
  obtain ⟨x, hx, hr⟩ := exists_right h.flip hy
  exact ⟨x, hx, hr⟩

end

namespace Sender
open Outbound

/-! ## One burst -/

theorem forall₂_settles_refl (ps : List Outbound) : List.Forall₂ Settles ps ps :=
  List.forall₂_same.mpr fun x _ => settles_refl x

section
variable {isFirst : Bool} {ps ps' : List Outbound} {e : Emission}

/-- what the search does with a packet that has no burst to send -/
theorem emitFrom_cons (isFirst : Bool) (p : Outbound) (ps : List Outbound) {f : Framed}
    (ht : Tabled f p) :
    (∃ p', Settles p p' ∧ p.bursts.allSent = true ∧
      emitFrom isFirst (p :: ps) = ((emitFrom false ps).1, p' :: (emitFrom false ps).2)) ∨
    (∃ i k e p', p.status = .unsent ∧ p.bursts.nextUnsent? = some i ∧ p.framed.kind? i = some k ∧
      e.wire = Burst.wire ⟨p.framed.key, k⟩ ∧ e.isRepeat = decide (1 < p.bursts.attempts i + 1) ∧
      Settles (p.send i) p' ∧ emitFrom isFirst (p :: ps) = (some e, p' :: ps)) := by
  rw [emitFrom]
  dsimp only
  split
  · next hs => exact Or.inl ⟨p, settles_refl p, ht.settled hs, rfl⟩
  · next hs =>
    have hs' : p.status = .unsent := Decidable.not_not.mp hs
    cases hn : p.bursts.nextUnsent? with
    | none =>
      exact Or.inl ⟨p.settle isFirst, settles_settle isFirst hs',
        BurstTable.allSent_of_nextUnsent? hn, rfl⟩
    | some i =>
      have hu := BurstTable.unsent_of_nextUnsent? hn
      obtain ⟨k, hk⟩ := ht.kind?_isSome (BurstTable.lt_of_unsent hu)
      rw [← ht.framed_eq] at hk
      dsimp only
      rw [Framed.render?_eq hk]
      refine Or.inr ⟨i, k, _, _, hs', rfl, hk, rfl, ?_, settles_settle isFirst hs', rfl⟩
      dsimp only
      rw [BurstTable.attempts_markSent (BurstTable.lt_of_unsent hu), if_pos rfl]

theorem emitFrom_none (h : emitFrom isFirst ps = (none, ps')) (ht : ∀ p ∈ ps, ∃ f, Tabled f p) :
    List.Forall₂ Settles ps ps' ∧ ∀ p ∈ ps, p.bursts.allSent = true := by
  induction ps generalizing isFirst ps' with
  | nil =>
    obtain ⟨-, rfl⟩ := Prod.mk.inj h
    exact ⟨List.Forall₂.nil, fun p hp => absurd hp (by simp)⟩
  | cons p ps ih =>
    obtain ⟨f, hf⟩ := ht p List.mem_cons_self
    rcases emitFrom_cons isFirst p ps hf with
      ⟨p', hp', hall, he⟩ | ⟨i, k, e, p', -, -, -, -, -, -, he⟩
    · rw [he] at h
      obtain ⟨hnone, rfl⟩ := Prod.mk.inj h
      obtain ⟨h₁, h₂⟩ := ih (Prod.ext hnone rfl) fun q hq => ht q (List.mem_cons_of_mem _ hq)
      refine ⟨List.Forall₂.cons hp' h₁, fun q hq => ?_⟩
      rcases List.mem_cons.mp hq with rfl | hq
      · exact hall
      · exact h₂ q hq
    · rw [he] at h
      exact absurd (Prod.mk.inj h).1 (by simp)

/-- burst `i` of packet `n`, which is `x`, is handed out as `e`: no packet before it has a burst to
send, and it has none before this one -/
structure Emits (ps ps' : List Outbound) (e : Emission) (n i : Nat) (x : Outbound) : Prop where
  packet : ps[n]? = some x
  status : x.status = .unsent
  next : x.bursts.nextUnsent? = some i
  before : ∀ (m : Nat) y, m < n → ps[m]? = some y → y.bursts.allSent = true
  wire : ∃ k, x.framed.kind? i = some k ∧ e.wire = Burst.wire ⟨x.framed.key, k⟩
  isRepeat : e.isRepeat = decide (1 < x.bursts.attempts i + 1)
  settles : List.Forall₂ Settles (ps.set n (x.send i)) ps'

theorem emitFrom_some (h : emitFrom isFirst ps = (some e, ps')) (ht : ∀ p ∈ ps, ∃ f, Tabled f p) :
    ∃ n i x, Emits ps ps' e n i x := by
  induction ps generalizing isFirst ps' with
  | nil => exact absurd (Prod.mk.inj h).1 (by simp)
  | cons p ps ih =>
    obtain ⟨f, hf⟩ := ht p List.mem_cons_self
    rcases emitFrom_cons isFirst p ps hf with
      ⟨p', hp', hall, he⟩ | ⟨i, k, e', p', hs, hn, hk, hw, hr, hp', he⟩
    · rw [he] at h
      obtain ⟨hsome, rfl⟩ := Prod.mk.inj h
      obtain ⟨n, i, x, hx⟩ := ih (Prod.ext hsome rfl) fun q hq => ht q (List.mem_cons_of_mem _ hq)
      refine ⟨n + 1, i, x, hx.packet, hx.status, hx.next, fun m y hm hy => ?_, hx.wire,
        hx.isRepeat, List.Forall₂.cons hp' hx.settles⟩
      cases m with
      | zero =>
        obtain rfl := Option.some.inj hy
        exact hall
      | succ m => exact hx.before m y (Nat.lt_of_succ_lt_succ hm) hy
    · rw [he] at h
      obtain ⟨hsome, rfl⟩ := Prod.mk.inj h
      obtain rfl := Option.some.inj hsome
      exact ⟨0, i, p, rfl, hs, hn, fun m y hm => absurd hm (Nat.not_lt_zero m), ⟨k, hk, hw⟩, hr,
        List.Forall₂.cons hp' (forall₂_settles_refl ps)⟩

end

section
variable {s s' : Sender} {e : Emission}

theorem emit?_none (h : s.emit? = (none, s')) (ht : ∀ p ∈ s.packets, ∃ f, Tabled f p) :
    ∃ ps, s' = { s with packets := ps } ∧ List.Forall₂ Settles s.packets ps ∧
      ∀ p ∈ s.packets, p.bursts.allSent = true := by
  rw [emit?] at h
  split at h
  · next ps hps =>
    obtain ⟨h₁, h₂⟩ := emitFrom_none hps ht
    exact ⟨ps, (Prod.mk.inj h).2.symm, h₁, h₂⟩
  · exact absurd (Prod.mk.inj h).1 (by simp)

theorem emits_of_emit? (h : s.emit? = (some e, s')) (ht : ∀ p ∈ s.packets, ∃ f, Tabled f p) :
    ∃ n i x, s' = { s with packets := s'.packets }.count e ∧
      Emits s.packets s'.packets e n i x := by
  rw [emit?] at h
  split at h
  · exact absurd (Prod.mk.inj h).1 (by simp)
  · next e' ps hps =>
    obtain ⟨h₁, rfl⟩ := Prod.mk.inj h
    obtain rfl := Option.some.inj h₁
    obtain ⟨n, i, x, hx⟩ := emitFrom_some hps ht
    exact ⟨n, i, x, rfl, hx⟩

theorem emit?_some (h : s.emit? = (some e, s')) (ht : ∀ p ∈ s.packets, ∃ f, Tabled f p) :
    ∃ (n : Nat) (x : Outbound) (i : Nat) (k : BurstKind) (ps : List Outbound),
      s' = { s with packets := ps }.count e ∧ s.packets[n]? = some x ∧ x.status = .unsent ∧
      x.bursts.Unsent i ∧ x.framed.kind? i = some k ∧ e.wire = Burst.wire ⟨x.framed.key, k⟩ ∧
      List.Forall₂ Settles (s.packets.set n (x.send i)) ps := by
  obtain ⟨n, i, x, hs', hx⟩ := emits_of_emit? h ht
  obtain ⟨k, hk, hw⟩ := hx.wire
  exact ⟨n, x, i, k, s'.packets, hs', hx.packet, hx.status,
    BurstTable.unsent_of_nextUnsent? hx.next, hk, hw, hx.settles⟩

end

/-! ## Every burst -/

/-- the packet after some of its bursts were sent -/
structure Sends (x y : Outbound) : Prop where
  framed_eq : y.framed = x.framed
  confirmed_iff : y.status = .confirmed ↔ x.status = .confirmed
  tabled : ∀ f, Tabled f x → Tabled f y
  unsent : ∀ i, y.bursts.Unsent i → x.bursts.Unsent i

theorem Sends.trans {x y z : Outbound} (h : Sends x y) (h' : Sends y z) : Sends x z :=
  ⟨h'.framed_eq.trans h.framed_eq, h'.confirmed_iff.trans h.confirmed_iff,
    fun f hf => h'.tabled f (h.tabled f hf), fun i hi => h.unsent i (h'.unsent i hi)⟩

theorem Sends.of_settles {x y : Outbound} (h : Settles x y) : Sends x y :=
  ⟨h.framed_eq, h.confirmed_iff, fun _ hf => h.tabled hf, fun _ hi => by rwa [h.bursts_eq] at hi⟩

theorem Sends.of_send {x : Outbound} (hx : x.status = .unsent) (i : Nat) : Sends x (x.send i) :=
  ⟨rfl, Iff.rfl, fun _ hf => tabled_send hf hx i, fun _ hi => (BurstTable.unsent_markSent.mp hi).2⟩

theorem forall₂_sends_set {ps ps' : List Outbound} {n i : Nat} {x : Outbound}
    (hx : ps[n]? = some x) (hs : x.status = .unsent)
    (h : List.Forall₂ Settles (ps.set n (x.send i)) ps') : List.Forall₂ Sends ps ps' := by
  induction ps generalizing n ps' with
  | nil => exact absurd hx (by simp)
  | cons p ps ih =>
    cases n with
    | zero =>
      obtain rfl := Option.some.inj hx
      cases h with
      | cons h₁ h₂ =>
        exact List.Forall₂.cons ((Sends.of_send hs i).trans (Sends.of_settles h₁))
          (h₂.imp fun _ _ => Sends.of_settles)
    | succ n =>
      cases h with
      | cons h₁ h₂ => exact List.Forall₂.cons (Sends.of_settles h₁) (ih hx h₂)

theorem forall₂_sends_trans {ps qs rs : List Outbound} (h : List.Forall₂ Sends ps qs)
    (h' : List.Forall₂ Sends qs rs) : List.Forall₂ Sends ps rs := by
  induction h generalizing rs with
  | nil =>
    cases h'
    exact List.Forall₂.nil
  | cons h₁ _ ih =>
    cases h' with
    | cons h₂ h₃ => exact List.Forall₂.cons (h₁.trans h₂) (ih h₃)

theorem tabled_of_sends {ps qs : List Outbound} (h : List.Forall₂ Sends ps qs)
    (ht : ∀ p ∈ ps, ∃ f, Tabled f p) : ∀ q ∈ qs, ∃ f, Tabled f q := by
  intro q hq
  obtain ⟨n, hn⟩ := List.getElem?_of_mem hq
  obtain ⟨p, hp, hr⟩ := exists_left h hn
  obtain ⟨f, hf⟩ := ht p (List.mem_of_getElem? hp)
  exact ⟨f, hr.tabled f hf⟩

theorem tabled_emit? {s : Sender} (ht : ∀ p ∈ s.packets, ∃ f, Tabled f p) :
    ∀ p ∈ s.emit?.2.packets, ∃ f, Tabled f p := by
  match he : s.emit? with
  | (none, s') =>
    obtain ⟨ps, rfl, hsettles, -⟩ := emit?_none he ht
    exact tabled_of_sends (hsettles.imp fun _ _ => Sends.of_settles) ht
  | (some e, s') =>
    obtain ⟨n, x, i, k, ps, rfl, hx, hs, -, -, -, hset⟩ := emit?_some he ht
    exact tabled_of_sends (forall₂_sends_set hx hs hset) ht

theorem drainOnto_none {s s' : Sender} (acc : List Bytes) (h : s.emit? = (none, s')) :
    drainOnto acc s = (acc.reverse, s') := by
  rw [drainOnto]
  split
  · next s₂ h₂ =>
    rw [h] at h₂
    rw [(Prod.mk.inj h₂).2]
  · next h₂ =>
    rw [h] at h₂
    exact absurd h₂ (by simp)

theorem drainOnto_some {s s' : Sender} {e : Emission} (acc : List Bytes)
    (h : s.emit? = (some e, s')) : drainOnto acc s = drainOnto (e.wire :: acc) s' := by
  rw [drainOnto]
  split
  · next h₂ =>
    rw [h] at h₂
    exact absurd h₂ (by simp)
  · next e₂ s₂ h₂ =>
    rw [h] at h₂
    obtain ⟨h₃, rfl⟩ := Prod.mk.inj h₂
    rw [Option.some.inj h₃]

/-- the packets of `s` have this burst waiting -/
def Awaits (s : Sender) (w : Bytes) : Prop :=
  ∃ (n : Nat) (x : Outbound) (i : Nat) (k : BurstKind), s.packets[n]? = some x ∧
    x.bursts.Unsent i ∧ x.framed.kind? i = some k ∧ w = Burst.wire ⟨x.framed.key, k⟩

theorem awaits_of_emit? {s s' : Sender} {e : Emission} (h : s.emit? = (some e, s'))
    (ht : ∀ p ∈ s.packets, ∃ f, Tabled f p) (w : Bytes) :
    s.Awaits w ↔ w = e.wire ∨ s'.Awaits w := by
  obtain ⟨n, x, i, k, ps, hs', hx, hs, hu, hk, hw, hset⟩ := emit?_some h ht
  have hsends := forall₂_sends_set hx hs hset
  have hps : s'.packets = ps := by rw [hs']; rfl
  constructor
  · rintro ⟨m, y, j, l, hy, hj, hl, hwl⟩
    by_cases hm : m = n
    · subst hm
      obtain rfl := Option.some.inj (hx.symm.trans hy)
      by_cases hji : j = i
      · rw [hji, hk] at hl
        obtain rfl := Option.some.inj hl
        exact Or.inl (hwl.trans hw.symm)
      · have hget : (s.packets.set m (x.send i))[m]? = some (x.send i) := by
          rw [List.getElem?_set_self (List.getElem?_eq_some_iff.mp hx).1]
        obtain ⟨z, hz, hzs⟩ := exists_right hset hget
        refine Or.inr ⟨m, z, j, l, hps ▸ hz, ?_, ?_, ?_⟩
        · rw [hzs.bursts_eq]
          exact BurstTable.unsent_markSent.mpr ⟨hji, hj⟩
        · rw [hzs.framed_eq]
          exact hl
        · rw [hzs.framed_eq]
          exact hwl
    · have hget : (s.packets.set n (x.send i))[m]? = some y := by
        rw [List.getElem?_set_ne (Ne.symm hm), hy]
      obtain ⟨z, hz, hzs⟩ := exists_right hset hget
      exact Or.inr ⟨m, z, j, l, hps ▸ hz, by rwa [hzs.bursts_eq], by rwa [hzs.framed_eq],
        by rwa [hzs.framed_eq]⟩
  · rintro (rfl | ⟨m, y, j, l, hy, hj, hl, hwl⟩)
    · exact ⟨n, x, i, k, hx, hu, hk, hw⟩
    · obtain ⟨z, hz, hzs⟩ := exists_left hsends (hps ▸ hy)
      exact ⟨m, z, j, l, hz, hzs.unsent j hj, by rwa [← hzs.framed_eq], by rwa [← hzs.framed_eq]⟩

/-- nothing but the packets and the counts of bursts changes while bursts are handed out -/
structure SameLink (s s' : Sender) : Prop where
  config : s'.config = s.config
  key : s'.key = s.key
  lines : s'.lines = s.lines
  lastInput : s'.lastInput = s.lastInput
  lastControl : s'.lastControl = s.lastControl

theorem drainOnto_spec (s : Sender) (acc : List Bytes) (ht : ∀ p ∈ s.packets, ∃ f, Tabled f p) :
    ∃ ws s', drainOnto acc s = (acc.reverse ++ ws, s') ∧ (∀ w, w ∈ ws ↔ s.Awaits w) ∧
      List.Forall₂ Sends s.packets s'.packets ∧ (∀ p ∈ s'.packets, p.bursts.allSent = true) ∧
      SameLink s s' := by
  -- each burst that is handed out leaves fewer of them waiting
  induction hn : s.waiting using Nat.strongRecOn generalizing s acc with
  | ind n ih =>
    match he : s.emit? with
    | (none, s') =>
      obtain ⟨ps, rfl, hsettles, hall⟩ := emit?_none he ht
      refine ⟨[], { s with packets := ps }, ?_, ?_,
        hsettles.imp fun _ _ => Sends.of_settles, ?_, ⟨rfl, rfl, rfl, rfl, rfl⟩⟩
      · rw [drainOnto_none acc he, List.append_nil]
      · intro w
        refine ⟨fun h => absurd h (by simp), ?_⟩
        rintro ⟨m, x, i, k, hx, hi, -, -⟩
        exact absurd hi (BurstTable.allSent_iff.mp (hall x (List.mem_of_getElem? hx)) i)
      · intro p hp
        obtain ⟨m, hm⟩ := List.getElem?_of_mem hp
        obtain ⟨x, hx, hxs⟩ := exists_left hsettles hm
        rw [hxs.bursts_eq]
        exact hall x (List.mem_of_getElem? hx)
    | (some e, s') =>
      have hlt := waiting_emit? he
      obtain ⟨m, x, i, k, ps, rfl, hx, hs, hu, hk, hw, hset⟩ := emit?_some he ht
      have hsends := forall₂_sends_set hx hs hset
      obtain ⟨ws, s'', hd, hmem, hsends', hall, hsame⟩ :=
        ih _ (hn ▸ hlt) _ (e.wire :: acc) (tabled_of_sends hsends ht) rfl
      refine ⟨e.wire :: ws, s'', ?_, ?_, forall₂_sends_trans hsends hsends', hall,
        ⟨hsame.config, hsame.key, hsame.lines, hsame.lastInput, hsame.lastControl⟩⟩
      · rw [drainOnto_some acc he, hd, List.reverse_cons, List.append_assoc]
        rfl
      · intro w
        rw [List.mem_cons, hmem, awaits_of_emit? he ht]

theorem drain_spec (s : Sender) (ht : ∀ p ∈ s.packets, ∃ f, Tabled f p) :
    (∀ w, w ∈ s.drain.1 ↔ s.Awaits w) ∧ List.Forall₂ Sends s.packets s.drain.2.packets ∧
      (∀ p ∈ s.drain.2.packets, p.bursts.allSent = true) ∧ SameLink s s.drain.2 := by
  obtain ⟨ws, s', hd, h⟩ := drainOnto_spec s [] ht
  rw [drain, hd]
  exact h

end Sender

end Shoreline
