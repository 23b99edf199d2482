import Shoreline.Proofs.Emission

/-!
# The order of bursts

A sender hands out the first burst that waits, of the first packet that has one.  So until none waits
it hands out exactly those that wait, packet by packet and in the order of their numbers, each once.

* `emitFrom_queue`   one burst is the first of those that wait;
* `drain_eq_queue`   all that is handed out, in order;
* `drain_new`        a new sender hands out every burst of every packet.
-/

namespace Shoreline

/-- the numbers below one of those below `n`, it, and larger ones -/
theorem exists_range_eq {i n : Nat} (h : i < n) :
    ∃ js, List.range n = List.range i ++ i :: js ∧ ∀ j ∈ js, i < j := by
  obtain ⟨m, rfl⟩ := Nat.exists_eq_add_of_lt h
  refine ⟨(List.range m).map fun j => i + (j + 1), ?_, fun j hj => ?_⟩
  · rw [Nat.add_assoc, List.range_add, List.range_succ_eq_map, List.map_cons, List.map_map]
    rfl
  · obtain ⟨j', -, rfl⟩ := List.mem_map.mp hj
    omega

/-! ## Tables -/

namespace BurstTable

instance (t : BurstTable) : DecidablePred t.Unsent := fun i =>
  inferInstanceAs (Decidable (t.status? i = some .unsent))

/-- the bursts that wait, in ascending order -/
def unsent (t : BurstTable) : List Nat := (List.range t.size).filter fun i => t.Unsent i

variable {t : BurstTable} {i : Nat}

theorem unsent_eq_nil (h : t.allSent = true) : t.unsent = [] :=
  List.filter_eq_nil_iff.mpr fun i _ hi =>
    absurd (of_decide_eq_true hi) (allSent_iff.mp h i)

theorem unsent_of_new (count : Nat) : (BurstTable.new count).unsent = List.range (count + 2) := by
  rw [unsent, size_new]
  exact List.filter_eq_self.mpr fun i hi => decide_eq_true (unsent_new.mpr (List.mem_range.mp hi))

/-- when the first burst that waits is sent, the others are those that wait -/
theorem unsent_eq_cons (h : t.nextUnsent? = some i) : t.unsent = i :: (t.markSent i).unsent := by
  obtain ⟨hi, -, hmin⟩ := List.findIdx?_eq_some_iff_getElem.mp h
  have hbefore : ∀ j ∈ List.range i, ¬ t.Unsent j := by
    intro j hj hu
    have hji := List.mem_range.mp hj
    have hlt : j < t.records.length := Nat.lt_trans hji hi
    rw [Unsent, status?, List.getElem?_eq_getElem hlt, Option.map_some] at hu
    exact hmin j hji (beq_iff_eq.mpr (Option.some.inj hu))
  obtain ⟨js, hrange, hjs⟩ := exists_range_eq (show i < t.size from hi)
  have hself : ¬ (t.markSent i).Unsent i := fun hu => (unsent_markSent.mp hu).1 rfl
  have hnil : (List.range i).filter (fun j => decide (t.Unsent j)) = [] :=
    List.filter_eq_nil_iff.mpr fun j hj hu => hbefore j hj (of_decide_eq_true hu)
  have hnil' : (List.range i).filter (fun j => decide ((t.markSent i).Unsent j)) = [] :=
    List.filter_eq_nil_iff.mpr fun j hj hu =>
      hbefore j hj (unsent_markSent.mp (of_decide_eq_true hu)).2
  rw [unsent, unsent, markSent, size_change, ← markSent, hrange, List.filter_append,
    List.filter_append, hnil, hnil', List.nil_append, List.nil_append,
    List.filter_cons, if_pos (decide_eq_true (unsent_of_nextUnsent? h)), List.filter_cons,
    if_neg (by rw [decide_eq_true_iff]; exact hself)]
  refine congrArg (i :: ·) (List.filter_congr fun j hj => ?_)
  have hne : j ≠ i := Nat.ne_of_gt (hjs j hj)
  exact decide_eq_decide.mpr ⟨fun hu => unsent_markSent.mpr ⟨hne, hu⟩,
    fun hu => (unsent_markSent.mp hu).2⟩

end BurstTable

/-! ## Packets -/

/-- the bursts of a packet that wait, as they will be handed out -/
def Outbound.queue (x : Outbound) : List (Option Bytes) := x.bursts.unsent.map x.framed.render?

namespace Sender
open Outbound

theorem queue_of_settles {x y : Outbound} (h : Settles x y) : y.queue = x.queue := by
  rw [queue, h.framed_eq, h.bursts_eq, queue]

theorem queue_of_allSent {x : Outbound} (h : x.bursts.allSent = true) : x.queue = [] := by
  rw [queue, BurstTable.unsent_eq_nil h, List.map_nil]

theorem queue_send {x : Outbound} {i : Nat} {k : BurstKind} (hn : x.bursts.nextUnsent? = some i)
    (hk : x.framed.kind? i = some k) :
    x.queue = some (Burst.wire ⟨x.framed.key, k⟩) :: (x.send i).queue := by
  rw [queue, BurstTable.unsent_eq_cons hn, List.map_cons, Framed.render?_eq hk]
  rfl

theorem emitFrom_queue {isFirst : Bool} {ps ps' : List Outbound} {e : Emission}
    (h : emitFrom isFirst ps = (some e, ps')) (ht : ∀ p ∈ ps, ∃ f, Tabled f p) :
    ps.flatMap queue = some e.wire :: ps'.flatMap queue := by
  induction ps generalizing isFirst ps' with
  | nil => exact absurd (Prod.mk.inj h).1 (by simp)
  | cons p ps ih =>
    obtain ⟨f, hf⟩ := ht p List.mem_cons_self
    rcases emitFrom_cons isFirst p ps hf with
      ⟨p', hp', hall, he⟩ | ⟨i, k, e', p', -, hn, hk, hw, -, hp', he⟩
    · rw [he] at h
      obtain ⟨hsome, rfl⟩ := Prod.mk.inj h
      have hrest := ih (Prod.ext hsome rfl) fun q hq => ht q (List.mem_cons_of_mem _ hq)
      rw [List.flatMap_cons, List.flatMap_cons, queue_of_settles hp', queue_of_allSent hall,
        List.nil_append, List.nil_append, hrest]
    · rw [he] at h
      obtain ⟨hsome, rfl⟩ := Prod.mk.inj h
      obtain rfl := Option.some.inj hsome
      rw [List.flatMap_cons, List.flatMap_cons, queue_of_settles hp', queue_send hn hk, hw]
      rfl

theorem emit?_queue {s s' : Sender} {e : Emission} (h : s.emit? = (some e, s'))
    (ht : ∀ p ∈ s.packets, ∃ f, Tabled f p) :
    s.packets.flatMap queue = some e.wire :: s'.packets.flatMap queue := by
  rw [emit?] at h
  split at h
  · exact absurd (Prod.mk.inj h).1 (by simp)
  · next e' ps hps =>
    obtain ⟨hsome, rfl⟩ := Prod.mk.inj h
    obtain rfl := Option.some.inj hsome
    exact emitFrom_queue hps ht

/-! ## Everything that waits -/

theorem drainOnto_queue (s : Sender) (acc : List Bytes) (ht : ∀ p ∈ s.packets, ∃ f, Tabled f p) :
    (drainOnto acc s).1.map some = acc.reverse.map some ++ s.packets.flatMap queue := by
  -- each burst that is handed out leaves fewer of them waiting
  induction hn : s.waiting using Nat.strongRecOn generalizing s acc with
  | ind n ih =>
    match he : s.emit? with
    | (none, s') =>
      obtain ⟨-, -, -, hall⟩ := emit?_none he ht
      have hnil : s.packets.flatMap queue = [] :=
        List.flatMap_eq_nil_iff.mpr fun p hp => queue_of_allSent (hall p hp)
      rw [drainOnto_none acc he, hnil, List.append_nil]
    | (some e, s') =>
      have hlt := waiting_emit? he
      have ht' := tabled_emit? ht
      rw [he] at ht'
      rw [drainOnto_some acc he, ih _ (hn ▸ hlt) s' (e.wire :: acc) ht' rfl, emit?_queue he ht,
        List.reverse_cons, List.map_append, List.append_assoc]
      rfl

theorem drain_eq_queue (s : Sender) (ht : ∀ p ∈ s.packets, ∃ f, Tabled f p) :
    s.drain.1.map some = s.packets.flatMap queue := drainOnto_queue s [] ht

/-- a new sender hands out all bursts of its packets, from the announcing to the terminal one -/
theorem drain_new (S : Shipment) (sc : SenderConfig) (t : Nat) :
    (S.sender sc t).drain.1.map some = (S.sender sc t).packets.flatMap fun x =>
      (List.range (x.framed.count + 2)).map x.framed.render? := by
  have hnew : ∀ x ∈ (S.sender sc t).packets, ∃ f, x = .new f := by
    intro x hx
    obtain ⟨q, -, rfl⟩ := List.mem_map.mp hx
    exact ⟨q.framed, rfl⟩
  rw [drain_eq_queue, List.flatMap_def, List.flatMap_def]
  · refine congrArg List.flatten (List.map_congr_left fun x hx => ?_)
    obtain ⟨f, rfl⟩ := hnew x hx
    show (BurstTable.new f.count).unsent.map f.render? = _
    rw [BurstTable.unsent_of_new]
    rfl
  · intro x hx
    obtain ⟨f, rfl⟩ := hnew x hx
    exact ⟨f, tabled_new f⟩

end Sender

end Shoreline
