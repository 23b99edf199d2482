import Mathlib.Logic.Function.Iterate
import Shoreline.Proofs.Slots

/-!
# Rebuilding ends

To rebuild a packet and to sweep up what is ready call each other: behind every packet that could be
rebuilt all is swept again, from inside the call, while the sweep outside has not returned.  Here this
goes on step by step (`Rebuilding.step`), with the calls that have not returned.  Whether a packet is
rebuilt or started again, it is not ready any more and no other one becomes ready
(`ready_rebuild_eq`), so whatever an assembly holds there are as many turns as there were packets ready
(`reaches_sweep`), and the assembly that is left is the one that `reassemble` gives.

* `reassemble_eq_rebuildAll`   what is rebuilt is a list of different packets, known beforehand;
* `slot_rebuildAll_of_mem`     and each of them comes out as it would by itself;
* `rebuilding_ends`            all of it, for every assembly and every packet.
-/

namespace Shoreline

/-! ## Several packets one after the other -/

namespace ProfileAssembly

variable {s s' : ProfileAssembly} {m n : UInt16} {ns : List UInt16}

theorem mem_ready : m ∈ s.ready ↔ (s.packet m).ready = true := by
  rw [ready, Keyed.mem_keys_iff, Keyed.contains, Keyed.get?_filter, packet]
  cases s.packets.get? m with
  | none => exact ⟨fun h => absurd h (by simp), fun h => absurd h (by decide)⟩
  | some p => simp [Option.isSome_filter]

theorem ascending_ready (s : ProfileAssembly) :
    s.ready.Pairwise fun a b => Ranked.rank a < Ranked.rank b :=
  List.pairwise_map.mpr (Keyed.ascending _)

/-- a packet that is rebuilt or started again is not ready any more, and no other one becomes ready -/
theorem ready_rebuild_eq (s : ProfileAssembly) (n : UInt16) :
    (s.rebuild n).1.ready = s.ready.filter (· ≠ n) := by
  refine Keyed.eq_of_ascending (ascending_ready _) ((ascending_ready s).filter _) fun m => ?_
  rw [mem_ready, List.mem_filter, mem_ready, decide_eq_true_iff]
  by_cases hm : m = n
  · rw [hm, ready_rebuild]
    simp
  · rw [packet_rebuild_ne s n hm]
    simp [hm]

theorem ready_rebuild_first (h : s.ready = n :: ns) : (s.rebuild n).1.ready = ns := by
  have hnot : n ∉ ns := (List.nodup_cons.mp (h ▸ Keyed.nodup_keys _)).1
  rw [ready_rebuild_eq, h, List.filter_cons, if_neg (by simp)]
  exact List.filter_eq_self.mpr fun m hm => decide_eq_true fun he => hnot (he ▸ hm)

/-- rebuilds the packets in this order -/
def rebuildAll (s : ProfileAssembly) : List UInt16 → ProfileAssembly × List Answer
  | [] => (s, [])
  | n :: ns =>
    (((s.rebuild n).1.rebuildAll ns).1, (s.rebuild n).2 :: ((s.rebuild n).1.rebuildAll ns).2)

theorem sweep_eq (s : ProfileAssembly) : s.sweep = s.rebuildAll s.ready :=
  foldl_collect (fun s n => ((rebuild s n).1, [(rebuild s n).2])) rebuildAll (fun _ => rfl)
    (fun _ _ _ => rfl) (fun _ _ => rfl) s.ready s []

/-- the packets that are decoded when packet `n` is to be rebuilt -/
def rebuilds (s : ProfileAssembly) (n : UInt16) : List UInt16 :=
  if s.packets.contains n then
    n :: if (s.rebuild n).2.isRebuilt then s.ready.filter (· ≠ n) else []
  else []

theorem reassemble_eq_rebuildAll (s : ProfileAssembly) (n : UInt16) :
    s.reassemble n = s.rebuildAll (s.rebuilds n) := by
  rw [reassemble, rebuilds]
  cases s.packets.contains n with
  | false => rfl
  | true =>
    rw [Bool.not_true, if_neg Bool.false_ne_true, if_pos rfl]
    dsimp only
    split
    · rw [sweep_eq, ready_rebuild_eq]
      rfl
    · rfl

theorem mem_rebuilds (h : m ∈ s.rebuilds n) :
    s.packets.contains n = true ∧ (m = n ∨ m ∈ s.ready) := by
  rw [rebuilds] at h
  split at h
  · next hn =>
    refine ⟨hn, (List.mem_cons.mp h).imp id fun hm => ?_⟩
    split at hm
    · exact List.mem_of_mem_filter hm
    · exact absurd hm (by simp)
  · exact absurd h (by simp)

theorem nodup_rebuilds (s : ProfileAssembly) (n : UInt16) : (s.rebuilds n).Nodup := by
  rw [rebuilds]
  split
  · refine List.nodup_cons.mpr ⟨?_, ?_⟩
    · split <;> simp
    · split
      · exact (Keyed.nodup_keys _).filter _
      · exact List.nodup_nil
  · exact List.nodup_nil

/-! ### What becomes of each of them -/

theorem packet_answer_rebuild (s : ProfileAssembly) (n : UInt16) : (s.rebuild n).2.packet = n := by
  rw [rebuild]
  split <;> rfl

/-- what becomes of a packet that is rebuilt depends on this packet alone -/
theorem rebuild_congr (hkey : s'.received.key = s.received.key) (hslot : s'.slot n = s.slot n) :
    (s'.rebuild n).1.slot n = (s.rebuild n).1.slot n ∧ (s'.rebuild n).2 = (s.rebuild n).2 := by
  have hpacket : s'.packet n = s.packet n := congrArg Slot.assembly hslot
  have h := (rebuild_slot s n).2
  have h' := (rebuild_slot s' n).2
  rw [hkey, hslot, hpacket, ← h] at h'
  exact Prod.mk.inj h'

theorem key_rebuildAll (s : ProfileAssembly) (ns : List UInt16) :
    (s.rebuildAll ns).1.received.key = s.received.key := by
  induction ns generalizing s with
  | nil => rfl
  | cons n ns ih => exact (ih _).trans (rebuild_slot s n).1.key

theorem slot_rebuildAll_of_not_mem (s : ProfileAssembly) (h : m ∉ ns) :
    (s.rebuildAll ns).1.slot m = s.slot m := by
  induction ns generalizing s with
  | nil => rfl
  | cons n ns ih =>
    obtain ⟨hne, hnot⟩ := not_or.mp (mt List.mem_cons.mpr h)
    exact (ih _ hnot).trans ((rebuild_slot s n).1.slot_ne m hne)

/-- each of different packets comes out as it would by itself -/
theorem slot_rebuildAll_of_mem (s : ProfileAssembly) (hns : ns.Nodup) (h : m ∈ ns) :
    (s.rebuildAll ns).1.slot m = (s.rebuild m).1.slot m := by
  induction ns generalizing s with
  | nil => exact absurd h (by simp)
  | cons n ns ih =>
    obtain ⟨hn, hns⟩ := List.nodup_cons.mp hns
    rcases List.mem_cons.mp h with rfl | hm
    · exact slot_rebuildAll_of_not_mem _ hn
    · have htouches := (rebuild_slot s n).1
      have hslot := htouches.slot_ne m fun he => hn (he ▸ hm)
      exact (ih _ hns hm).trans (rebuild_congr htouches.key hslot).1

theorem answers_rebuildAll (s : ProfileAssembly) (hns : ns.Nodup) :
    (s.rebuildAll ns).2 = ns.map fun m => (s.rebuild m).2 := by
  induction ns generalizing s with
  | nil => rfl
  | cons n ns ih =>
    obtain ⟨hn, hns⟩ := List.nodup_cons.mp hns
    have htouches := (rebuild_slot s n).1
    rw [rebuildAll, ih _ hns, List.map_cons]
    refine congrArg _ (List.map_congr_left fun m hm => ?_)
    exact (rebuild_congr htouches.key (htouches.slot_ne m fun he => hn (he ▸ hm))).2

/-- no packet is ready once all that were have been rebuilt -/
theorem idle_rebuildAll (h : ∀ m, m ∉ ns → (s.packet m).ready = false) :
    Idle (s.rebuildAll ns).1 := by
  induction ns generalizing s with
  | nil => exact fun m => h m (by simp)
  | cons n ns ih =>
    refine ih fun m hm => ?_
    by_cases hmn : m = n
    · rw [hmn, ready_rebuild]
    · rw [packet_rebuild_ne s n hmn]
      exact h m (by simp [hmn, hm])

end ProfileAssembly

/-! ## Step by step -/

/-- a call that has not returned -/
inductive Rebuilding.Call where
  /-- rebuilds packet `n` and, if that succeeds, sweeps -/
  | reassemble (n : UInt16)
  /-- reassembles the first packet that is ready, for as long as there is one -/
  | sweep
  deriving DecidableEq, Repr

/-- rebuilding as it goes on -/
structure Rebuilding where
  assembly : ProfileAssembly
  /-- the innermost call first -/
  calls : List Rebuilding.Call
  /-- the packets whose pieces were decoded, in this order -/
  decoded : List UInt16
  answers : List Answer

namespace Rebuilding
open ProfileAssembly

def start (s : ProfileAssembly) (n : UInt16) : Rebuilding := ⟨s, [.reassemble n], [], []⟩

/-- goes on with the innermost call until it makes a call or returns -/
def step (w : Rebuilding) : Rebuilding :=
  match w.calls with
  | [] => w
  | .reassemble n :: calls =>
    if w.assembly.packets.contains n then
      let (s, a) := w.assembly.rebuild n
      { assembly := s
        calls := if a.isRebuilt then .sweep :: calls else calls
        decoded := w.decoded ++ [n]
        answers := w.answers ++ [a] }
    else { w with calls }
  | .sweep :: calls =>
    match w.assembly.ready with
    | [] => { w with calls }
    | n :: _ => { w with calls := .reassemble n :: .sweep :: calls }

/-- the control lines about packet `n` that were queued -/
def lines (w : Rebuilding) (n : UInt16) : List ControlLine :=
  (w.answers.map (·.line w.assembly.received.key)).filter (·.key.packet = n)

/-- at most `k` steps lead from `w` to `w'` -/
def Reaches (k : Nat) (w w' : Rebuilding) : Prop := ∃ j ≤ k, step^[j] w = w'

variable {s : ProfileAssembly} {m n : UInt16} {ns : List UInt16} {calls : List Call}
  {ds : List UInt16} {as : List Answer} {k l : Nat} {w w' w'' : Rebuilding}

theorem reaches_step (h : step w = w') : Reaches 1 w w' := ⟨1, Nat.le_refl _, h⟩

theorem Reaches.mono (h : Reaches k w w') (hk : k ≤ l) : Reaches l w w' := by
  obtain ⟨j, hj, hw⟩ := h
  exact ⟨j, Nat.le_trans hj hk, hw⟩

theorem Reaches.trans (h : Reaches k w w') (h' : Reaches l w' w'') : Reaches (k + l) w w'' := by
  obtain ⟨i, hi, rfl⟩ := h
  obtain ⟨j, hj, rfl⟩ := h'
  exact ⟨j + i, by omega, Function.iterate_add_apply step j i w⟩

/-- where all calls have returned, nothing happens any more -/
theorem Reaches.iterate (h : Reaches k w w') (hw : w'.calls = []) : step^[k] w = w' := by
  obtain ⟨j, hj, rfl⟩ := h
  have hfixed : step (step^[j] w) = step^[j] w := by rw [step, hw]
  rw [← Nat.sub_add_cancel hj, Function.iterate_add_apply]
  exact Function.iterate_fixed hfixed _

/-! ### One step -/

theorem step_absent (h : s.packets.contains n = false) :
    step ⟨s, .reassemble n :: calls, ds, as⟩ = ⟨s, calls, ds, as⟩ := by
  rw [step]
  exact if_neg (by rw [h]; exact Bool.false_ne_true)

theorem step_reassemble (h : s.packets.contains n = true) :
    step ⟨s, .reassemble n :: calls, ds, as⟩ =
      ⟨(s.rebuild n).1, if (s.rebuild n).2.isRebuilt then .sweep :: calls else calls,
        ds ++ [n], as ++ [(s.rebuild n).2]⟩ := by
  rw [step]
  exact if_pos h

theorem step_sweep_idle (h : s.ready = []) :
    step ⟨s, .sweep :: calls, ds, as⟩ = ⟨s, calls, ds, as⟩ := by
  rw [step]
  dsimp only
  rw [h]

theorem step_sweep (h : s.ready = n :: ns) :
    step ⟨s, .sweep :: calls, ds, as⟩ = ⟨s, .reassemble n :: .sweep :: calls, ds, as⟩ := by
  rw [step]
  dsimp only
  rw [h]

/-! ### A whole call -/

/-- A sweep rebuilds all that is ready, in order, and returns.  Behind a packet that was rebuilt it is
the sweep inside the call that rebuilds the others, behind one that was started again it is the sweep
that made the call; the others are the same for both. -/
theorem reaches_sweep (s : ProfileAssembly) (calls : List Call) (ds : List UInt16)
    (as : List Answer) :
    Reaches (3 * s.ready.length + 1) ⟨s, .sweep :: calls, ds, as⟩
      ⟨(s.rebuildAll s.ready).1, calls, ds ++ s.ready, as ++ (s.rebuildAll s.ready).2⟩ := by
  generalize hs : s.ready = ns
  induction ns generalizing s calls ds as with
  | nil =>
    rw [List.append_nil, rebuildAll, List.append_nil]
    exact reaches_step (step_sweep_idle hs)
  | cons n ns ih =>
    have hn : s.packets.contains n = true :=
      contains_of_hasAll (hasAll_of_ready (mem_ready.mp (hs ▸ List.mem_cons_self)))
    have hfirst : step ⟨s, .sweep :: calls, ds, as⟩ = _ := step_sweep hs
    have hcall := (reaches_step hfirst).trans (reaches_step (step_reassemble hn))
    have hready := ready_rebuild_first hs
    have hrest (calls : List Call) :=
      ih (s.rebuild n).1 calls (ds ++ [n]) (as ++ [(s.rebuild n).2]) hready
    rw [rebuildAll, List.append_cons ds, List.append_cons as, List.length_cons]
    split at hcall
    · -- the sweep inside has left nothing for the one outside
      have hidle : ((s.rebuild n).1.rebuildAll ns).1.ready = [] :=
        ready_of_idle (idle_rebuildAll fun m hm => by
          rw [← hready, mem_ready] at hm
          exact Bool.eq_false_iff.mpr hm)
      have hinside := hcall.trans (hrest (.sweep :: calls))
      exact (hinside.trans (reaches_step (step_sweep_idle hidle))).mono (by omega)
    · exact (hcall.trans (hrest calls)).mono (by omega)

theorem reaches_reassemble (s : ProfileAssembly) (n : UInt16) :
    Reaches (3 * (s.ready.filter (· ≠ n)).length + 2) (start s n)
      ⟨(s.rebuildAll (s.rebuilds n)).1, [], s.rebuilds n, (s.rebuildAll (s.rebuilds n)).2⟩ := by
  rw [rebuilds]
  cases hn : s.packets.contains n with
  | false =>
    rw [if_neg Bool.false_ne_true]
    exact (reaches_step (step_absent hn)).mono (by omega)
  | true =>
    have hfirst : step (start s n) = _ := step_reassemble hn
    have hcall := reaches_step hfirst
    rw [if_pos rfl, rebuildAll]
    split at hcall
    · next ha =>
      have hsweep := reaches_sweep (s.rebuild n).1 [] ([] ++ [n]) ([] ++ [(s.rebuild n).2])
      rw [ready_rebuild_eq] at hsweep
      rw [if_pos ha]
      exact (hcall.trans hsweep).mono (by omega)
    · next ha =>
      rw [if_neg ha]
      exact hcall.mono (by omega)

/-! ### What it leaves -/

/-- packet `m` was rebuilt from what was there of it in `s`; it is held and was acknowledged -/
structure Rebuilt (s : ProfileAssembly) (w : Rebuilding) (m : UInt16) : Prop where
  held : (w.assembly.packet m).held = true
  slot : ∃ q, s.decoded? m = some q ∧ w.assembly.slot m = ⟨some (s.packet m).hold, some q⟩
  lines : w.lines m = [.received ⟨s.received.key, m⟩]

/-- packet `m` was started again, and one request for all of it was queued -/
structure Restarted (s : ProfileAssembly) (w : Rebuilding) (m : UInt16) : Prop where
  undecoded : s.decoded? m = none
  slot : w.assembly.slot m = ⟨some (s.packet m).restart, s.received.packet? m⟩
  lines : w.lines m = [.resendPacket ⟨s.received.key, m⟩]

theorem lines_rebuildAll (hns : ns.Nodup) :
    lines ⟨(s.rebuildAll ns).1, calls, ds, (s.rebuildAll ns).2⟩ m =
      if m ∈ ns then [(s.rebuild m).2.line s.received.key] else [] := by
  have hfilter : (ns.map fun k => (s.rebuild k).2.line s.received.key).filter (·.key.packet = m) =
      (ns.filter (· = m)).map fun k => (s.rebuild k).2.line s.received.key := by
    rw [List.filter_map]
    refine congrArg _ (List.filter_congr fun k _ => ?_)
    rw [Function.comp_apply, Answer.key_line, packet_answer_rebuild]
  rw [lines, key_rebuildAll, answers_rebuildAll s hns, List.map_map]
  refine hfilter.trans ?_
  split
  · next hm =>
    rw [List.filter_eq, List.count_eq_one_of_mem hns hm]
    rfl
  · next hm =>
    rw [List.filter_eq, List.count_eq_zero_of_not_mem hm]
    rfl

theorem rebuilt_or_restarted (hns : ns.Nodup) (hm : m ∈ ns) :
    let w : Rebuilding := ⟨(s.rebuildAll ns).1, calls, ds, (s.rebuildAll ns).2⟩
    Rebuilt s w m ∨ Restarted s w m := by
  intro w
  have hlines : w.lines m = [(s.rebuild m).2.line s.received.key] :=
    (lines_rebuildAll hns).trans (if_pos hm)
  have hslot : w.assembly.slot m = (s.rebuild m).1.slot m := s.slot_rebuildAll_of_mem hns hm
  have hrebuild := (rebuild_slot s m).2
  cases hd : s.decoded? m with
  | some q =>
    rw [Slot.rebuild_of_some hd] at hrebuild
    obtain ⟨hafter, hanswer⟩ := Prod.mk.inj hrebuild
    rw [hafter] at hslot
    rw [hanswer] at hlines
    exact Or.inl ⟨congrArg (fun x => x.assembly.held) hslot, ⟨q, hd, hslot⟩, hlines⟩
  | none =>
    rw [Slot.rebuild_of_none hd] at hrebuild
    obtain ⟨hafter, hanswer⟩ := Prod.mk.inj hrebuild
    rw [hafter] at hslot
    rw [hanswer] at hlines
    exact Or.inr ⟨hd, hslot, hlines⟩

theorem idle_of_rebuilt (h : .rebuilt n ∈ (s.rebuildAll (s.rebuilds n)).2) :
    Idle (s.rebuildAll (s.rebuilds n)).1 := by
  rw [s.answers_rebuildAll (nodup_rebuilds s n)] at h
  obtain ⟨m, hm, ha⟩ := List.mem_map.mp h
  -- only the answer about `n` can say that `n` was rebuilt
  obtain rfl : m = n := (s.packet_answer_rebuild m).symm.trans (congrArg Answer.packet ha)
  have hrebuilds : s.rebuilds m = m :: s.ready.filter (· ≠ m) := by
    rw [rebuilds, if_pos (mem_rebuilds hm).1, ha]
    exact congrArg _ (if_pos rfl)
  refine idle_rebuildAll fun k hk => Bool.eq_false_iff.mpr fun hready => hk ?_
  rw [hrebuilds, List.mem_cons, List.mem_filter, mem_ready]
  exact Decidable.or_iff_not_imp_left.mpr fun hne => ⟨hready, decide_eq_true hne⟩

/-- For every assembly and packet: all calls have returned after a number of steps that the number of
other packets that are ready bounds, and what is left and said is what `reassemble` gives.  The packet,
if anything was heard of it, and some that were ready were decoded, each of them once, and each is held
or was started again with one request for all of it.  The others are as they were, and if the packet
was rebuilt, none is ready. -/
theorem rebuilding_ends (s : ProfileAssembly) (n : UInt16) :
    let w := step^[3 * (s.ready.filter (· ≠ n)).length + 2] (start s n)
    w.calls = [] ∧ (w.assembly, w.answers) = s.reassemble n ∧
      w.decoded.Nodup ∧ (n ∈ w.decoded ↔ s.packets.contains n = true) ∧
      (∀ m ∈ w.decoded, (m = n ∨ m ∈ s.ready) ∧ (Rebuilt s w m ∨ Restarted s w m)) ∧
      (∀ m, m ≠ n → m ∉ s.ready → w.assembly.slot m = s.slot m ∧ w.lines m = []) ∧
      (.rebuilt n ∈ w.answers → w.assembly.ready = []) := by
  intro w
  have hnodup := nodup_rebuilds s n
  rw [show w = _ from (reaches_reassemble s n).iterate rfl]
  refine ⟨rfl, (reassemble_eq_rebuildAll s n).symm, hnodup, ⟨fun h => (mem_rebuilds h).1, fun h => ?_⟩,
    fun m hm => ⟨(mem_rebuilds hm).2, rebuilt_or_restarted hnodup hm⟩, fun m hmn hm => ?_,
    fun h => ready_of_idle (idle_of_rebuilt h)⟩
  · show n ∈ s.rebuilds n
    rw [rebuilds, if_pos h]
    exact List.mem_cons_self
  · have hnot : m ∉ s.rebuilds n := fun h => (mem_rebuilds h).2.elim hmn hm
    exact ⟨s.slot_rebuildAll_of_not_mem hnot, (lines_rebuildAll hnodup).trans (if_neg hnot)⟩

/-- Packet 0 has all but its terminal burst.  Packets 1 and 2 are ready, but the piece of packet 1 is no
packet and that of packet 2 is packet 0.  A piece of packet 3 is missing. -/
def mixed : ProfileAssembly :=
  let info : Bytes := (InfoPacket.mk 770 12345 ⟨.of fun _ => 0⟩).render
  let there (b : Bytes) : PacketAssembly := ⟨some 1, Keyed.empty.insert 1 b, true, false⟩
  (((ProfileAssembly.new ⟨770, 12345⟩).put 0 { there info with terminalSeen := false }).put 1
    (there [1, 2, 3])).put 2 (there info) |>.put 3 { there [4] with announced := some 2 }

/-- packet 0 is rebuilt, and packets 1 and 2 are started again behind it -/
theorem rebuilding_mixed :
    let w := step^[8] (start mixed 0)
    w.calls = [] ∧ w.decoded = [0, 1, 2] ∧ Rebuilt mixed w 0 ∧ Restarted mixed w 1 ∧
      Restarted mixed w 2 ∧ (3 ≠ 0 ∧ 3 ∉ mixed.ready ∧ w.assembly.slot 3 = mixed.slot 3) ∧
      .rebuilt 0 ∈ w.answers ∧ w.assembly.ready = [] := by
  intro w
  have hdecoded : w.decoded = [0, 1, 2] := by decide +kernel
  have hanswer : .rebuilt 0 ∈ w.answers := by decide +kernel
  have hready : 3 ∉ mixed.ready := by decide +kernel
  have hpacket : mixed.decoded? 0 ≠ none := by decide +kernel
  have hjunk : mixed.decoded? 1 = none := by decide +kernel
  have hforeign : mixed.decoded? 2 = none := by decide +kernel
  have hnot {m : UInt16} (hm : mixed.decoded? m = none) (h : Rebuilt mixed w m) : False := by
    obtain ⟨q, hq, -⟩ := h.slot
    exact absurd (hq.symm.trans hm) (by simp)
  obtain ⟨hcalls, -, -, -, hdone, hothers, hidle⟩ :
      _ ∧ _ ∧ _ ∧ _ ∧ (∀ m ∈ w.decoded, _ ∧ (Rebuilt mixed w m ∨ Restarted mixed w m)) ∧
        _ ∧ _ := rebuilding_ends mixed 0
  have h₀ := (hdone 0 (by rw [hdecoded]; decide)).2
  have h₁ := (hdone 1 (by rw [hdecoded]; decide)).2
  have h₂ := (hdone 2 (by rw [hdecoded]; decide)).2
  exact ⟨hcalls, hdecoded, h₀.resolve_right fun h => hpacket h.undecoded,
    h₁.resolve_left (hnot hjunk), h₂.resolve_left (hnot hforeign),
    ⟨by decide, hready, (hothers 3 (by decide) hready).1⟩, hanswer, hidle hanswer⟩

end Rebuilding

end Shoreline
