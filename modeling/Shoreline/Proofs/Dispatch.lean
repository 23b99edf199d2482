import Shoreline.Proofs.EmissionOrder
import Shoreline.Proofs.Running

/-!
# When all is sent

What becomes of the packets of a sender when every burst that waits is handed out (`packets_drain`):
of each packet by itself, the bursts that waited are sent, and a packet that waited counts as sent
if it is not the first one (`Outbound.dispatch`).  A burst handed out on the way does not change it
(`dispatchAll_emitFrom`).

* `burstStatus?_drain`, `attempts_drain`   what becomes of each burst;
* `isIdle_drain`                           no burst waits then;
* `packetStatus?_drain`                    and each packet but the first is sent or confirmed (`Outbound.Steady`).
-/

namespace Shoreline

/-! ## Tables -/

namespace BurstTable
variable {t : BurstTable} {i j : Nat}

/-- the table once every burst that waits was sent -/
def sendWaiting (t : BurstTable) : BurstTable :=
  ⟨t.records.map fun r => if r.status = .unsent then ⟨.sent, r.attempts + 1⟩ else r⟩

theorem status?_sendWaiting (t : BurstTable) (i : Nat) :
    t.sendWaiting.status? i = (t.status? i).map fun p => if p = .unsent then .sent else p := by
  rw [status?, sendWaiting, List.getElem?_map, status?, Option.map_map, Option.map_map]
  congr 1
  funext r
  exact apply_ite BurstRecord.status _ _ _

theorem attempts_sendWaiting (t : BurstTable) (i : Nat) :
    t.sendWaiting.attempts i = t.attempts i + if t.status? i = some .unsent then 1 else 0 := by
  rw [attempts, sendWaiting, List.getElem?_map, attempts, status?]
  cases t.records[i]? with
  | none => rfl
  | some r => by_cases hr : r.status = .unsent <;> simp [hr]

theorem allSent_sendWaiting (t : BurstTable) : t.sendWaiting.allSent = true := by
  rw [allSent_iff]
  intro i hi
  rw [Unsent, status?_sendWaiting] at hi
  obtain ⟨p, -, hp⟩ := Option.map_eq_some_iff.mp hi
  split at hp
  · exact absurd hp (by simp)
  · next hne => exact hne hp

theorem sendWaiting_of_allSent (h : t.allSent = true) : t.sendWaiting = t := by
  obtain ⟨records⟩ := t
  refine congrArg BurstTable.mk ((List.map_congr_left fun r hr => if_neg ?_).trans (List.map_id _))
  exact bne_iff_ne.mp (List.all_eq_true.mp h r hr)

/-- a burst that waits can be sent before the others -/
theorem sendWaiting_markSent (h : t.Unsent i) : (t.markSent i).sendWaiting = t.sendWaiting := by
  refine congrArg BurstTable.mk (List.ext_getElem? fun j => ?_)
  rw [List.getElem?_map, List.getElem?_map, markSent, change, List.getElem?_modify]
  by_cases hj : i = j
  · subst hj
    obtain ⟨r, hr, hs⟩ := Option.map_eq_some_iff.mp h
    simp only [hr, if_pos hs, Option.map_some, Option.map_eq_map, if_true]
    rfl
  · simp only [if_neg hj, Option.map_eq_map, Option.map_id']

end BurstTable

/-! ## Packets -/

namespace Outbound
variable {f : Framed} {x : Outbound} {isFirst : Bool} {i : Nat}

/-- the packet once each of its bursts that waits was sent -/
def dispatch (isFirst : Bool) (x : Outbound) : Outbound :=
  if x.status = .unsent then { x with bursts := x.bursts.sendWaiting }.settle isFirst else x

theorem dispatch_of_unsent (h : x.status = .unsent) :
    x.dispatch isFirst =
      { x with status := if isFirst then .unsent else .sent, bursts := x.bursts.sendWaiting } := by
  rw [dispatch, if_pos h, settle, BurstTable.allSent_sendWaiting]
  cases isFirst with
  | true => rw [← h]; rfl
  | false => rfl

theorem dispatch_of_ne (h : x.status ≠ .unsent) : x.dispatch isFirst = x := if_neg h

theorem dispatch_of_allSent (h : x.status = .unsent) (hall : x.bursts.allSent = true) :
    x.dispatch isFirst = x.settle isFirst := by
  rw [dispatch, if_pos h, BurstTable.sendWaiting_of_allSent hall]

theorem dispatch_settle (h : x.status = .unsent) :
    (x.settle isFirst).dispatch isFirst = x.dispatch isFirst := by
  rw [settle]
  split
  · next hs =>
    obtain ⟨hfirst, hall⟩ := Bool.and_eq_true_iff.mp hs
    obtain rfl : isFirst = false := by rwa [Bool.not_eq_true'] at hfirst
    rw [dispatch_of_allSent h hall, settle, if_pos hs]
    rfl
  · rfl

theorem dispatch_send (h : x.status = .unsent) (hi : x.bursts.Unsent i) :
    (x.send i).dispatch isFirst = x.dispatch isFirst := by
  rw [dispatch_of_unsent h, dispatch_of_unsent (x := x.send i) h, send]
  dsimp only
  rw [BurstTable.sendWaiting_markSent hi]

/-- also in a packet that is not looked at, for it has no burst that waits -/
theorem bursts_dispatch (h : Tabled f x) (isFirst : Bool) :
    (x.dispatch isFirst).bursts = x.bursts.sendWaiting := by
  by_cases hs : x.status = .unsent
  · rw [dispatch_of_unsent hs]
  · rw [dispatch_of_ne hs, BurstTable.sendWaiting_of_allSent (h.settled hs)]

/-- a confirmed packet has nothing but confirmed bursts, and the first packet is never counted as
sent -/
structure Steady (n : Nat) (x : Outbound) : Prop where
  confirmed : x.status = .confirmed → ∀ i p, x.bursts.status? i = some p → p = .confirmed
  first : n = 0 → x.status ≠ .sent

theorem status_dispatch {n : Nat} (h : Steady n x) :
    (x.dispatch (n == 0)).status = .confirmed ∨
      (x.dispatch (n == 0)).status = if n = 0 then .unsent else .sent := by
  cases hs : x.status with
  | unsent =>
    rw [dispatch_of_unsent hs]
    by_cases hn : n = 0
    · exact Or.inr (by simp [hn])
    · exact Or.inr (by simp [hn])
  | sent =>
    have hn : n ≠ 0 := fun hn => h.first hn hs
    rw [dispatch_of_ne (by rw [hs]; decide), if_neg hn]
    exact Or.inr hs
  | confirmed =>
    rw [dispatch_of_ne (by rw [hs]; decide)]
    exact Or.inl hs

end Outbound

namespace Sender
open Outbound

theorem keeps_steady : Keeps Steady where
  settle {n x} h hs := by
    rw [Outbound.settle]
    split
    · next hall =>
      refine ⟨fun hc => absurd hc (by simp), fun hn => ?_⟩
      rw [hn] at hall
      exact absurd hall (by simp)
    · exact h
  send {n x} h hs i := ⟨fun hc => absurd (hs.symm.trans hc) (by decide), h.first⟩
  apply {n x} h line := by
    cases hk : line.kind with
    | received =>
      rw [Outbound.apply, hk]
      dsimp only
      split
      · refine ⟨fun _ i p hp => ?_, fun _ => by simp⟩
        rw [BurstTable.confirmAll, BurstTable.status?_fill] at hp
        obtain ⟨r, -, rfl⟩ := Option.map_eq_some_iff.mp hp
        rfl
      · exact h
    | resend =>
      rw [Outbound.apply, hk]
      dsimp only
      split
      · exact ⟨fun hc => absurd hc (by simp), fun _ => by simp⟩
      · split
        · exact ⟨fun hc => absurd hc (by simp), fun _ => by simp⟩
        · exact h
  solicit {n x} h := by
    rw [Outbound.solicit]
    split
    · exact h
    · exact ⟨fun hc => absurd hc (by simp), fun _ => by simp⟩

/-! ## Handing out -/

/-- what becomes of packets when all that waits is sent -/
def dispatchAll (isFirst : Bool) : List Outbound → List Outbound
  | [] => []
  | p :: ps => p.dispatch isFirst :: dispatchAll false ps

theorem getElem?_dispatchAll (ps : List Outbound) (n : Nat) :
    (dispatchAll true ps)[n]? = ps[n]?.map (dispatch (n == 0)) := by
  have hfalse : ∀ ps : List Outbound, dispatchAll false ps = ps.map (dispatch false) := by
    intro ps
    induction ps with
    | nil => rfl
    | cons p ps ih => rw [dispatchAll, ih, List.map_cons]
  cases ps with
  | nil => rfl
  | cons p ps =>
    rw [dispatchAll, hfalse]
    cases n with
    | zero => rfl
    | succ n => exact List.getElem?_map

/-- one burst that is handed out does not change what becomes of the packets -/
theorem dispatchAll_emitFrom (isFirst : Bool) (ps : List Outbound) :
    dispatchAll isFirst (emitFrom isFirst ps).2 = dispatchAll isFirst ps := by
  induction ps generalizing isFirst with
  | nil => rfl
  | cons p ps ih =>
    have hlater := ih false
    rw [emitFrom]
    dsimp only
    split
    · rw [dispatchAll, hlater, dispatchAll]
    next hs =>
    have hs' : p.status = .unsent := Decidable.not_not.mp hs
    split
    · rw [dispatchAll, hlater, dispatch_settle hs', dispatchAll]
    next i hi =>
    split
    · rw [dispatchAll, hlater, dispatchAll]
    · have hsend : Outbound.settle isFirst { p with bursts := p.bursts.markSent i } =
          (p.send i).settle isFirst := rfl
      rw [dispatchAll, hsend, dispatch_settle (x := p.send i) hs',
        dispatch_send hs' (BurstTable.unsent_of_nextUnsent? hi), dispatchAll]

/-- when nothing is left to send, that is what has become of them -/
theorem dispatchAll_of_none {isFirst : Bool} {ps ps' : List Outbound}
    (h : emitFrom isFirst ps = (none, ps')) (ht : ∀ p ∈ ps, ∃ f, Tabled f p) :
    dispatchAll isFirst ps' = ps' := by
  induction ps generalizing isFirst ps' with
  | nil =>
    obtain ⟨-, rfl⟩ := Prod.mk.inj h
    rfl
  | cons p ps ih =>
    have hlater {q : Outbound} (hq : q.dispatch isFirst = q)
        (he : ((emitFrom false ps).1, q :: (emitFrom false ps).2) = (none, ps')) :
        dispatchAll isFirst ps' = ps' := by
      obtain ⟨hnone, rfl⟩ := Prod.mk.inj he
      rw [dispatchAll, hq, ih (Prod.ext hnone rfl) fun q hq => ht q (List.mem_cons_of_mem _ hq)]
    obtain ⟨f, hf⟩ := ht p List.mem_cons_self
    rw [emitFrom] at h
    dsimp only at h
    split at h
    · next hs => exact hlater (dispatch_of_ne hs) h
    next hs =>
    have hs' : p.status = .unsent := Decidable.not_not.mp hs
    split at h
    · next hn =>
      refine hlater ?_ h
      rw [dispatch_settle hs', dispatch_of_allSent hs' (BurstTable.allSent_of_nextUnsent? hn)]
    next i hi =>
    split at h
    · next hr =>
      have hlt := BurstTable.lt_of_unsent (BurstTable.unsent_of_nextUnsent? hi)
      obtain ⟨k, hk⟩ := hf.kind?_isSome hlt
      rw [← hf.framed_eq] at hk
      rw [Framed.render?_eq hk] at hr
      exact absurd hr (by simp)
    · exact absurd (Prod.mk.inj h).1 (by simp)

theorem packets_drainOnto (s : Sender) (acc : List Bytes) (ht : ∀ p ∈ s.packets, ∃ f, Tabled f p) :
    (drainOnto acc s).2.packets = dispatchAll true s.packets := by
  -- each burst that is handed out leaves fewer of them waiting
  induction hn : s.waiting using Nat.strongRecOn generalizing s acc with
  | ind n ih =>
    have hone : dispatchAll true s.emit?.2.packets = dispatchAll true s.packets := by
      rw [packets_emit?]
      exact dispatchAll_emitFrom true s.packets
    match he : s.emit? with
    | (none, s') =>
      have hnone : emitFrom true s.packets = (none, s'.packets) := by
        rw [emit?] at he
        split at he
        · next ps hps =>
          obtain ⟨-, rfl⟩ := Prod.mk.inj he
          exact hps
        · exact absurd (Prod.mk.inj he).1 (by simp)
      rw [drainOnto_none acc he, ← hone, he]
      exact (dispatchAll_of_none hnone ht).symm
    | (some e, s') =>
      have hlt := waiting_emit? he
      have ht' := tabled_emit? ht
      rw [he] at ht'
      rw [drainOnto_some acc he, ih _ (hn ▸ hlt) s' (e.wire :: acc) ht' rfl, ← hone, he]

/-- what has become of the packets when nothing is left to send -/
theorem packets_drain (s : Sender) (ht : ∀ p ∈ s.packets, ∃ f, Tabled f p) :
    s.drain.2.packets = dispatchAll true s.packets := packets_drainOnto s [] ht

/-! ## What has become of them -/

section
variable {fs : List Framed} {s : Sender} {n i : Nat}

theorem burstStatus?_eq_unsent :
    s.burstStatus? n i = some .unsent ↔ ∃ x, s.packets[n]? = some x ∧ x.bursts.Unsent i :=
  Option.bind_eq_some_iff

theorem isIdle_iff : s.isIdle = true ↔ ∀ n i, s.burstStatus? n i ≠ some .unsent := by
  rw [isIdle, List.all_eq_true]
  constructor
  · intro h n i hi
    obtain ⟨x, hx, hu⟩ := burstStatus?_eq_unsent.mp hi
    exact BurstTable.allSent_iff.mp (h x (List.mem_of_getElem? hx)) i hu
  · intro h x hx
    obtain ⟨n, hn⟩ := List.getElem?_of_mem hx
    exact BurstTable.allSent_iff.mpr fun i hi => h n i (burstStatus?_eq_unsent.mpr ⟨x, hn, hi⟩)

/-- packet `n` when nothing is left to send -/
theorem getElem?_drain (ht : Each (Tables fs) s.packets) (n : Nat) :
    s.drain.2.packets[n]? = s.packets[n]?.map (dispatch (n == 0)) := by
  rw [packets_drain s (exists_tabled ht), getElem?_dispatchAll]

theorem burstStatus?_drain (ht : Each (Tables fs) s.packets) (n i : Nat) :
    s.drain.2.burstStatus? n i =
      (s.burstStatus? n i).map fun p => if p = .unsent then .sent else p := by
  rw [burstStatus?, getElem?_drain ht, burstStatus?]
  cases hx : s.packets[n]? with
  | none => rfl
  | some x =>
    obtain ⟨f, -, hf⟩ := ht n x hx
    change (x.dispatch (n == 0)).bursts.status? i = _
    rw [bursts_dispatch hf, BurstTable.status?_sendWaiting]
    rfl

/-- each burst that waited is counted once more, and no other -/
theorem attempts_drain (ht : Each (Tables fs) s.packets) (n i : Nat) :
    s.drain.2.attempts n i =
      s.attempts n i + if s.burstStatus? n i = some .unsent then 1 else 0 := by
  rw [attempts, getElem?_drain ht, attempts, burstStatus?]
  cases hx : s.packets[n]? with
  | none => rfl
  | some x =>
    obtain ⟨f, -, hf⟩ := ht n x hx
    change (x.dispatch (n == 0)).bursts.attempts i = _
    rw [bursts_dispatch hf, BurstTable.attempts_sendWaiting]
    rfl

theorem isIdle_drain (ht : Each (Tables fs) s.packets) : s.drain.2.isIdle = true := by
  rw [isIdle_iff]
  intro n i hi
  rw [burstStatus?_drain ht] at hi
  obtain ⟨p, -, hp⟩ := Option.map_eq_some_iff.mp hi
  split at hp
  · exact absurd hp (by simp)
  · next hne => exact hne hp

theorem packetStatus?_drain (ht : Each (Tables fs) s.packets) (hs : Each Steady s.packets) {n : Nat}
    {p : Progress} (hp : s.drain.2.packetStatus? n = some p) :
    p = .confirmed ∨ p = if n = 0 then .unsent else .sent := by
  rw [packetStatus?, getElem?_drain ht, Option.map_map] at hp
  obtain ⟨x, hx, rfl⟩ := Option.map_eq_some_iff.mp hp
  exact status_dispatch (hs n x hx)

end

end Sender

end Shoreline
