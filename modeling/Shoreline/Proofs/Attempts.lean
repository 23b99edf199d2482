import Shoreline.Proofs.Pending

/-!
# How often a burst is sent

A burst waits when it is new, when it was asked for, and when it is a terminal burst with which the
sender asks for an answer.  To send it takes it out of those that wait, so what was sent, and what still
waits (`waits`), comes from what asks for it.  The burst's own counter says how often it was sent only
as far as its 32 bits go.

* `outcome_act`                                 all that an act can do to a sender;
* `Outcome.attempts_eq`, `Outcome.waits_le`     one act;
* `count_sent_le`, `returned_run`               a whole run.
-/

namespace Shoreline

/-! ## Requests -/

namespace ControlLine

/-- the line asks for the whole of packet `n` of this profile -/
def AsksPacket (key : ProfileKey) (n : Nat) (c : ControlLine) : Prop :=
  c.kind = .resend ∧ c.key.toProfileKey = key ∧ c.key.packet.toNat = n ∧ c.isWholePacket = true

/-- the line asks for burst `i` of packet `n` of this profile, and for nothing else -/
def AsksBurst (key : ProfileKey) (n i : Nat) (c : ControlLine) : Prop :=
  c.kind = .resend ∧ c.key.toProfileKey = key ∧ c.key.packet.toNat = n ∧
    c.isWholePacket = false ∧ c.burst.toNat = i

instance (key : ProfileKey) (n : Nat) (c : ControlLine) : Decidable (c.AsksPacket key n) :=
  inferInstanceAs (Decidable (_ ∧ _ ∧ _ ∧ _))

instance (key : ProfileKey) (n i : Nat) (c : ControlLine) : Decidable (c.AsksBurst key n i) :=
  inferInstanceAs (Decidable (_ ∧ _ ∧ _ ∧ _ ∧ _))

/-- how many of these lines ask for burst `i` of packet `n`, by itself or with its packet -/
def requests (key : ProfileKey) (n i : Nat) (cs : List ControlLine) : Nat :=
  cs.countP (·.AsksPacket key n) + cs.countP (·.AsksBurst key n i)

variable {key : ProfileKey} {n i : Nat}

theorem requests_append (cs ds : List ControlLine) :
    requests key n i (cs ++ ds) = requests key n i cs + requests key n i ds := by
  simp only [requests, List.countP_append]
  omega

theorem requests_pos {c : ControlLine} (hk : c.kind = .resend)
    (hnamed : c.key.toProfileKey = key ∧ c.key.packet.toNat = n)
    (hi : c.isWholePacket = true ∨ c.burst.toNat = i) : 0 < requests key n i [c] := by
  cases hw : c.isWholePacket with
  | true =>
    have hasks : c.AsksPacket key n := ⟨hk, hnamed.1, hnamed.2, hw⟩
    exact Nat.add_pos_left (List.countP_pos_iff.mpr ⟨c, by simp, decide_eq_true hasks⟩) _
  | false =>
    have hburst : c.burst.toNat = i := hi.resolve_left (by simp [hw])
    have hasks : c.AsksBurst key n i := ⟨hk, hnamed.1, hnamed.2, hw, hburst⟩
    exact Nat.add_pos_right _ (List.countP_pos_iff.mpr ⟨c, by simp, decide_eq_true hasks⟩)

end ControlLine

open ControlLine

/-! ## Packets -/

namespace Outbound
variable {x y : Outbound} {key : ProfileKey} {n i j : Nat}

/-- one while burst `i` waits -/
def waits (x : Outbound) (i : Nat) : Nat := if x.bursts.Unsent i then 1 else 0

theorem attempts_new (f : Framed) (i : Nat) : (Outbound.new f).bursts.attempts i = 0 := by
  rw [Outbound.new, BurstTable.attempts, BurstTable.new, List.getElem?_replicate]
  split <;> rfl

theorem waits_le_one (x : Outbound) (i : Nat) : x.waits i ≤ 1 := by
  rw [waits]
  split <;> omega

/-- a burst that is sent does not wait any more -/
theorem waits_send (h : x.bursts.Unsent i) (j : Nat) :
    ((x.send i).waits j + if i = j then 1 else 0) = x.waits j := by
  rw [waits, send, waits]
  by_cases hj : i = j
  · subst hj
    simp [BurstTable.unsent_markSent, h]
  · simp [BurstTable.unsent_markSent, hj, Ne.symm hj]

theorem waits_le_of {k : Nat} (hunsent : y.bursts.Unsent i → x.bursts.Unsent i ∨ 0 < k) :
    y.waits i ≤ x.waits i + k := by
  rw [waits, waits]
  split
  · next hy =>
    rcases hunsent hy with hx | hk
    · rw [if_pos hx]
      exact Nat.le_add_right _ _
    · omega
  · omega

/-! Hearing and asking count no attempt. -/

theorem attempts_apply (x : Outbound) (c : ControlLine) (i : Nat) :
    (x.apply c).bursts.attempts i = x.bursts.attempts i := by
  rw [apply]
  split
  · split
    · exact BurstTable.attempts_fill _ _ i
    · rfl
  · split
    · exact BurstTable.attempts_fill _ _ i
    · split
      · exact BurstTable.attempts_markUnsent _ _ i
      · rfl

theorem unsent_of_received {c : ControlLine} (hk : c.kind = .received)
    (h : (x.apply c).bursts.Unsent i) : x.bursts.Unsent i := by
  rw [apply, hk] at h
  dsimp only at h
  split at h
  · exact absurd h (BurstTable.allSent_iff.mp (BurstTable.allSent_confirmAll _) i)
  · exact h

/-- the packet after a control line, if the line is about it -/
def note (key : ProfileKey) (n : Nat) (x : Outbound) (c : ControlLine) : Outbound :=
  if c.key.toProfileKey = key ∧ c.key.packet.toNat = n then x.apply c else x

theorem attempts_note (x : Outbound) (c : ControlLine) (i : Nat) :
    (x.note key n c).bursts.attempts i = x.bursts.attempts i := by
  rw [note]
  split
  · exact attempts_apply x c i
  · rfl

theorem waits_note (x : Outbound) (c : ControlLine) (i : Nat) :
    (x.note key n c).waits i ≤ x.waits i + requests key n i [c] := by
  refine waits_le_of fun hu => ?_
  rw [note] at hu
  split at hu
  · next hnamed =>
    cases hk : c.kind with
    | received => exact Or.inl (unsent_of_received hk hu)
    | resend => exact ((unsent_apply hk).mp hu).imp_right fun hi => requests_pos hk hnamed hi.1
  · exact Or.inl hu

theorem attempts_foldl_note (x : Outbound) (cs : List ControlLine) (i : Nat) :
    (cs.foldl (note key n) x).bursts.attempts i = x.bursts.attempts i := by
  induction cs generalizing x with
  | nil => rfl
  | cons c cs ih => exact (ih _).trans (attempts_note x c i)

theorem waits_foldl_note (x : Outbound) (cs : List ControlLine) (i : Nat) :
    (cs.foldl (note key n) x).waits i ≤ x.waits i + requests key n i cs := by
  induction cs generalizing x with
  | nil => exact Nat.le_add_right _ _
  | cons c cs ih =>
    have hc : (x.note key n c).waits i ≤ x.waits i + requests key n i [c] := waits_note x c i
    have hcs := ih (x.note key n c)
    rw [List.foldl_cons, ← List.singleton_append, requests_append]
    omega

theorem attempts_solicit (x : Outbound) (i : Nat) :
    x.solicit.bursts.attempts i = x.bursts.attempts i := by
  rw [solicit]
  split
  · rfl
  · exact BurstTable.attempts_markUnsent _ _ i

theorem waits_solicit (x : Outbound) (i : Nat) :
    x.solicit.waits i ≤ x.waits i + if x.framed.terminalIndex = i then 1 else 0 := by
  refine waits_le_of fun hu => ?_
  rw [solicit] at hu
  split at hu
  · exact Or.inl hu
  · rcases BurstTable.unsent_markUnsent.mp hu with ⟨rfl, -⟩ | hu
    · exact Or.inr (by rw [if_pos rfl]; exact Nat.one_pos)
    · exact Or.inl hu

end Outbound

namespace Sender
open Outbound

/-! ## What an act does -/

/-- the burst that an act sends, with the number of its packet before its own: the first that waits -/
def sends? (s : Sender) : Act → Option (Nat × Nat)
  | .transmit => s.pending.head?
  | _ => none

/-- the bytes that an act hands out -/
def emits? (s : Sender) : Act → Option Bytes
  | .transmit => s.emit?.1.map (·.wire)
  | _ => none

/-- the time at which an act asks for answers, if it does -/
def asks? (s : Sender) : Act → Option Nat
  | .status now => if s.Solicits now then some now else none
  | _ => none

/-- what a sender counts of its bursts -/
structure Tally where
  sent : Nat
  resent : Nat
  bytes : Nat

def tally (s : Sender) : Tally := ⟨s.burstsSent, s.burstsResent, s.bytesSent⟩

def Tally.count (t : Tally) (e : Emission) : Tally :=
  ⟨t.sent + 1, t.resent + e.isRepeat.toNat, t.bytes + e.wire.length⟩

/-- what becomes of a sender: it hears lines, sends a burst, finds none to send, or asks for answers -/
inductive Outcome (s s' : Sender) :
    List ControlLine → Option (Nat × Nat) → Option Bytes → Option Nat → Prop where
  | hears {cs : List ControlLine} : s'.packets = cs.foldl (applied s.key) s.packets →
    s'.tally = s.tally → Outcome s s' cs none none none
  | sends {e : Emission} {n i : Nat} {x : Outbound} : Emits s.packets s'.packets e n i x →
    s'.tally = s.tally.count e → Outcome s s' [] (some (n, i)) (some e.wire) none
  | settles : List.Forall₂ Settles s.packets s'.packets → s'.tally = s.tally →
    Outcome s s' [] none none none
  | solicits {now : Nat} : s'.packets = s.packets.map Outbound.solicit → s'.tally = s.tally →
    Outcome s s' [] none none (some now)

section
variable {s : Sender} {ps' : List Outbound} {e : Emission} {n i : Nat} {x : Outbound}

theorem head?_pending (h : Emits s.packets ps' e n i x) : s.pending.head? = some (n, i) := by
  have hn := (List.getElem?_eq_some_iff.mp h.packet).1
  obtain ⟨ms, hrange, -⟩ := exists_range_eq hn
  rw [pending, List.head?_flatMap, List.findSome?_eq_some_iff]
  refine ⟨List.range n, n, ms, hrange, ?_, fun m hm => ?_⟩
  · rw [h.packet, Option.map_some, Option.getD_some, BurstTable.unsent_eq_cons h.next]
    rfl
  · have hm := List.mem_range.mp hm
    have hy := List.getElem?_eq_getElem (Nat.lt_trans hm hn)
    rw [hy, Option.map_some, Option.getD_some, BurstTable.unsent_eq_nil (h.before m _ hm hy)]
    rfl

theorem pending_eq_nil (h : ∀ p ∈ s.packets, p.bursts.allSent = true) : s.pending = [] := by
  rw [pending, List.flatMap_eq_nil_iff]
  intro n hn
  have hx := List.getElem?_eq_getElem (List.mem_range.mp hn)
  rw [hx, Option.map_some, Option.getD_some,
    BurstTable.unsent_eq_nil (h _ (List.mem_of_getElem? hx)), List.map_nil]

theorem tally_handleControl (s : Sender) (c : ControlLine) (now : Nat) :
    (s.handleControl c now).tally = s.tally := by
  rw [handleControl]
  split <;> rfl

theorem tally_handleInbound (s : Sender) (now : Nat) (x : Except Fault Inbound) :
    (handleInbound now s x).tally = s.tally := by
  match x with
  | .ok (.control c) => exact tally_handleControl { s with lastInput := now } c now
  | .ok .heartbeat => rfl
  | .error _ => rfl

theorem tally_handleInput (s : Sender) (b : Bytes) (now : Nat) :
    (s.handleInput b now).tally = s.tally := by
  have hfold (said : List (Except Fault Inbound)) (s : Sender) :
      (said.foldl (handleInbound now) s).tally = s.tally := by
    induction said generalizing s with
    | nil => rfl
    | cons x said ih => exact (ih _).trans (tally_handleInbound s now x)
  exact hfold (s.lines.feed b).1 { s with lines := (s.lines.feed b).2 }

end

section
variable {fs : List Framed} {s : Sender}

theorem outcome_transmit (ht : ∀ p ∈ s.packets, ∃ f, Tabled f p) :
    Outcome s s.emit?.2 [] s.pending.head? (s.emit?.1.map (·.wire)) none := by
  match he : s.emit? with
  | (none, s') =>
    obtain ⟨ps, rfl, hsettles, hall⟩ := emit?_none he ht
    rw [pending_eq_nil hall]
    exact .settles hsettles rfl
  | (some e, s') =>
    obtain ⟨n, i, x, hs', hx⟩ := emits_of_emit? he ht
    rw [head?_pending hx]
    exact .sends hx (by rw [hs']; rfl)

/-- all that an act can do to a sender -/
theorem outcome_act (ht : Each (Tables fs) s.packets) (a : Act) :
    Outcome s (s.act a) (s.brings a) (s.sends? a) (s.emits? a) (s.asks? a) := by
  cases a with
  | transmit => exact outcome_transmit (exists_tabled ht)
  | input b now => exact .hears (packets_handleInput s b now).1 (tally_handleInput s b now)
  | control c now => exact .hears (packets_handleControl_eq s c now) (tally_handleControl s c now)
  | status now =>
    rw [act, pollStatus_eq, asks?]
    split
    · exact .solicits rfl rfl
    · exact .hears rfl rfl

end

/-! ## One act -/

/-- one while burst `i` of packet `n` waits -/
def waits (s : Sender) (n i : Nat) : Nat := (s.packets[n]?.map (·.waits i)).getD 0

/-- burst `i` is the terminal one of packet `n` -/
def IsTerminal (s : Sender) (n i : Nat) : Prop := (s.burstCount? n).map (· + 1) = some i

instance (s : Sender) (n i : Nat) : Decidable (s.IsTerminal n i) :=
  inferInstanceAs (Decidable (_ = _))

section
variable {s s' : Sender} {n i : Nat}

theorem isTerminal_iff {x : Outbound} (hx : s.packets[n]? = some x) :
    s.IsTerminal n i ↔ x.framed.terminalIndex = i := by
  rw [IsTerminal, burstCount?, hx]
  exact Option.some_inj

theorem waits_le_one (s : Sender) (n i : Nat) : s.waits n i ≤ 1 := by
  rw [waits]
  cases s.packets[n]? with
  | none => exact Nat.zero_le 1
  | some x => exact x.waits_le_one i

theorem getElem?_foldl_applied (key : ProfileKey) (ps : List Outbound) (cs : List ControlLine)
    (n : Nat) : (cs.foldl (applied key) ps)[n]? = ps[n]?.map fun x => cs.foldl (note key n) x := by
  induction cs generalizing ps with
  | nil => exact Option.map_id'.symm
  | cons c cs ih =>
    rw [List.foldl_cons, ih, getElem?_applied, Option.map_map]
    rfl

theorem attempts_of_map {g : Outbound → Outbound} (hget : s'.packets[n]? = s.packets[n]?.map g)
    (hg : ∀ x, (g x).bursts.attempts i = x.bursts.attempts i) : s'.attempts n i = s.attempts n i := by
  rw [attempts, hget, attempts]
  cases s.packets[n]? with
  | none => rfl
  | some x => exact hg x

theorem waits_of_map {g : Outbound → Outbound} {k : Nat}
    (hget : s'.packets[n]? = s.packets[n]?.map g)
    (hg : ∀ x, s.packets[n]? = some x → (g x).waits i ≤ x.waits i + k) :
    s'.waits n i ≤ s.waits n i + k := by
  rw [waits, hget, waits]
  cases hx : s.packets[n]? with
  | none => exact Nat.zero_le _
  | some x => exact hg x hx

theorem map_bursts_of_settles {ps qs : List Outbound} (h : List.Forall₂ Settles ps qs) :
    qs.map (·.bursts) = ps.map (·.bursts) := by
  induction h with
  | nil => rfl
  | cons hx _ ih => rw [List.map_cons, List.map_cons, hx.bursts_eq, ih]

/-- what is counted of a burst and whether it waits is a matter of the tables -/
theorem waits_congr (h : s'.packets.map (·.bursts) = s.packets.map (·.bursts)) (n i : Nat) :
    s'.attempts n i = s.attempts n i ∧ s'.waits n i = s.waits n i := by
  have hget : s'.packets[n]?.map (·.bursts) = s.packets[n]?.map (·.bursts) := by
    rw [← List.getElem?_map, h, List.getElem?_map]
  have hattempts (s : Sender) : s.attempts n i =
      ((s.packets[n]?.map (·.bursts)).map (·.attempts i)).getD 0 := by
    rw [Option.map_map]
    rfl
  have hwaits (s : Sender) : s.waits n i = ((s.packets[n]?.map (·.bursts)).map fun t =>
      if t.Unsent i then 1 else 0).getD 0 := by
    rw [Option.map_map]
    rfl
  exact ⟨by rw [hattempts, hget, hattempts], by rw [hwaits, hget, hwaits]⟩

theorem Emits.waits_eq {e : Emission} {m j : Nat} {x : Outbound}
    (h : Emits s.packets s'.packets e m j x) (n i : Nat) :
    s'.attempts n i = (s.attempts n i + if (m, j) = (n, i) then 1 else 0) ∧
      (s'.waits n i + if (m, j) = (n, i) then 1 else 0) = s.waits n i := by
  have hu := BurstTable.unsent_of_nextUnsent? h.next
  obtain ⟨hattempts, hwaits⟩ := waits_congr (s := { s with packets := s.packets.set m (x.send j) })
    (map_bursts_of_settles h.settles) n i
  rw [hattempts, hwaits, attempts, waits, attempts, waits]
  by_cases hm : m = n
  · subst hm
    rw [List.getElem?_set_self (List.getElem?_eq_some_iff.mp h.packet).1, h.packet]
    simp only [Option.map_some, Option.getD_some, Prod.mk.injEq, true_and]
    refine ⟨?_, waits_send hu i⟩
    simp only [eq_comm (a := j)]
    exact BurstTable.attempts_markSent (BurstTable.lt_of_unsent hu)
  · have hne : (m, j) ≠ (n, i) := fun he => hm (Prod.mk.inj he).1
    rw [List.getElem?_set_ne hm, if_neg hne, if_neg hne]
    exact ⟨(UInt32.add_zero _).symm, rfl⟩

end

section
variable {s s' : Sender} {cs : List ControlLine} {sent : Option (Nat × Nat)} {wire : Option Bytes}
  {asked : Option Nat}

theorem Outcome.attempts_eq (h : Outcome s s' cs sent wire asked) (n i : Nat) :
    s'.attempts n i = s.attempts n i + UInt32.ofNat (sent.toList.count (n, i)) := by
  have hnone : s.attempts n i + UInt32.ofNat ((none : Option (Nat × Nat)).toList.count (n, i)) =
      s.attempts n i := UInt32.add_zero _
  cases h with
  | hears hps _ =>
    refine Eq.trans (attempts_of_map (by rw [hps, getElem?_foldl_applied]) fun x => ?_) hnone.symm
    exact attempts_foldl_note x cs i
  | @sends e m j x he _ =>
    rw [(he.waits_eq n i).1, Option.toList_some, List.count_singleton]
    by_cases hm : (m, j) = (n, i) <;> simp [hm]
  | settles hps _ => exact (waits_congr (map_bursts_of_settles hps) n i).1.trans hnone.symm
  | solicits hps _ =>
    refine Eq.trans (attempts_of_map (by rw [hps, List.getElem?_map]) fun x => ?_) hnone.symm
    exact attempts_solicit x i

theorem Outcome.waits_le (h : Outcome s s' cs sent wire asked) (n i : Nat) :
    sent.toList.count (n, i) + s'.waits n i ≤ s.waits n i + requests s.key n i cs +
      if s.IsTerminal n i then asked.toList.length else 0 := by
  cases h with
  | hears hps _ =>
    rw [Option.toList_none, List.count_nil, Nat.zero_add]
    refine Nat.le_add_right_of_le (waits_of_map (by rw [hps, getElem?_foldl_applied]) ?_)
    exact fun x _ => waits_foldl_note x cs i
  | sends he _ =>
    -- the burst that is sent is one that waited
    have heq := (he.waits_eq n i).2
    rw [Option.toList_some, List.count_singleton, Nat.add_comm]
    simp only [beq_iff_eq]
    omega
  | settles hps _ =>
    rw [(waits_congr (map_bursts_of_settles hps) n i).2, Option.toList_none, List.count_nil]
    omega
  | solicits hps _ =>
    rw [Option.toList_none, List.count_nil, Nat.zero_add]
    refine waits_of_map (by rw [hps, List.getElem?_map]) fun x hx => ?_
    simp only [isTerminal_iff hx]
    exact waits_solicit x i

/-- what is handed out is the burst that is sent -/
theorem Outcome.wire_eq (h : Outcome s s' cs sent wire asked) :
    wire.map some = sent.map fun x => s.render? x.1 x.2 := by
  cases h with
  | sends he _ =>
    obtain ⟨k, hk, hw⟩ := he.wire
    simp only [Option.map_some, render?, he.packet, Option.bind_some, Framed.render?_eq hk, hw]
  | hears _ _ => rfl
  | settles _ _ => rfl
  | solicits _ _ => rfl

end

/-! ## A run -/

/-- what the acts of a run show, one by one -/
def trace {α : Type} (see : Sender → Act → Option α) (s : Sender) : List Act → List α
  | [] => []
  | a :: acts => (see s a).toList ++ (s.act a).trace see acts

/-- the bursts that are sent in a run, each with the number of its packet before its own -/
def sent (s : Sender) (acts : List Act) : List (Nat × Nat) := s.trace sends? acts

/-- the bytes that are handed out in a run -/
def returned (s : Sender) (acts : List Act) : List Bytes := s.trace emits? acts

/-- the times at which the sender asks for answers in a run -/
def solicitations (s : Sender) (acts : List Act) : List Nat := s.trace asks? acts

section
variable {fs : List Framed} {s : Sender}

theorem tables_act (ht : Each (Tables fs) s.packets) (a : Act) :
    Each (Tables fs) (s.act a).packets := tables_of_reaches ht (Reaches.refl.act a)

/-- whatever is done with a sender, its packets are framed as before -/
theorem framed?_act (ht : Each (Tables fs) s.packets) (a : Act) (n : Nat) :
    (s.act a).packets[n]?.map (·.framed) = s.packets[n]?.map (·.framed) := by
  rcases Nat.lt_or_ge n s.packets.length with hn | hn
  · have hx := List.getElem?_eq_getElem hn
    have hy := List.getElem?_eq_getElem ((length_act s a).symm ▸ hn)
    obtain ⟨f, hf, hfx⟩ := ht n _ hx
    obtain ⟨f', hf', hfy⟩ := tables_act ht a n _ hy
    rw [hx, hy, Option.map_some, Option.map_some, hfx.framed_eq, hfy.framed_eq,
      Option.some.inj (hf.symm.trans hf')]
  · rw [List.getElem?_eq_none hn, List.getElem?_eq_none ((length_act s a).symm ▸ hn)]

theorem render?_act (ht : Each (Tables fs) s.packets) (a : Act) (n i : Nat) :
    (s.act a).render? n i = s.render? n i := by
  have h := congrArg (Option.bind · (·.render? i)) (framed?_act ht a n)
  rwa [Option.bind_map, Option.bind_map] at h

theorem isTerminal_act (ht : Each (Tables fs) s.packets) (a : Act) (n i : Nat) :
    (s.act a).IsTerminal n i ↔ s.IsTerminal n i := by
  have h := congrArg (Option.map Framed.terminalIndex) (framed?_act ht a n)
  rw [Option.map_map, Option.map_map] at h
  rw [IsTerminal, IsTerminal, burstCount?, burstCount?, Option.map_map, Option.map_map]
  exact Eq.congr_left h

/-- a burst is sent no more often than it waited at first and was called for -/
theorem count_sent_le (ht : Each (Tables fs) s.packets) (acts : List Act) (n i : Nat) :
    (s.sent acts).count (n, i) ≤ s.waits n i + requests s.key n i (s.heard acts) +
      if s.IsTerminal n i then (s.solicitations acts).length else 0 := by
  induction acts generalizing s with
  | nil => exact Nat.zero_le _
  | cons a acts ih =>
    -- the key and the terminal burst stay what they are, so the bound on the rest is about the same
    have hact := (outcome_act ht a).waits_le n i
    have hrest := ih (tables_act ht a)
    simp only [key_act, isTerminal_act ht] at hrest
    rw [sent, trace, List.count_append, ← sent, heard, requests_append, solicitations, trace,
      List.length_append, ← solicitations]
    by_cases hi : s.IsTerminal n i
    · simp only [if_pos hi] at hact hrest ⊢
      omega
    · simp only [if_neg hi] at hact hrest ⊢
      omega

theorem returned_run (ht : Each (Tables fs) s.packets) (acts : List Act) :
    (s.returned acts).map some = (s.sent acts).map fun x => s.render? x.1 x.2 := by
  induction acts generalizing s with
  | nil => rfl
  | cons a acts ih =>
    have hact := congrArg Option.toList (outcome_act ht a).wire_eq
    have hrest := ih (tables_act ht a)
    simp only [render?_act ht] at hrest
    rw [Option.toList_map, Option.toList_map] at hact
    rw [returned, trace, sent, trace, List.map_append, List.map_append, hact]
    exact congrArg _ hrest

end

end Sender

end Shoreline
