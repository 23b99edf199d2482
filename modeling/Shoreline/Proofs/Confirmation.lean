import Shoreline.Proofs.Agreement
import Shoreline.Proofs.Running

/-!
# What confirms a packet

Of all that a sender hears, the lines that decide about a packet are those about the whole of it and
those that ask for one of its bursts (`ControlLine.Decides`).  A packet is confirmed exactly when one
of them came and the last one says that it is held; whatever else the sender hears or does leaves the
packet as confirmed as it was.

* `Outbound.confirmed_apply_iff`   one line;
* `verdict_applied`                what is heard, line by line;
* `verdict_run`                    a whole run;
* `confirmed_iff_last_line`        with what looking at the timers says.
-/

namespace Shoreline

/-! ## Lines that decide -/

namespace ControlLine

/-- the line decides about packet `n` of this profile, whose bursts are numbered up to `last` -/
def Decides (key : ProfileKey) (n last : Nat) (c : ControlLine) : Prop :=
  c.key.toProfileKey = key ∧ c.key.packet.toNat = n ∧
    (c.isWholePacket = true ∨ (c.kind = .resend ∧ c.burst.toNat ≤ last))

instance (key : ProfileKey) (n last : Nat) (c : ControlLine) : Decidable (c.Decides key n last) :=
  inferInstanceAs (Decidable (_ ∧ _ ∧ (_ ∨ (_ ∧ _))))

/-- one of these lines decides about the packet, and the last one that does says that it is held -/
def LastHeld (key : ProfileKey) (n last : Nat) (cs : List ControlLine) : Prop :=
  ∃ c, (cs.filter (·.Decides key n last)).getLast? = some c ∧ c.kind = .received

variable {key : ProfileKey} {n last : Nat} {c : ControlLine} {cs ds : List ControlLine}

theorem not_lastHeld_nil : ¬ LastHeld key n last [] := by
  rintro ⟨c, hc, -⟩
  exact absurd hc (by simp)

theorem lastHeld_append (h : ∀ c ∈ ds, ¬ c.Decides key n last) :
    LastHeld key n last (cs ++ ds) ↔ LastHeld key n last cs := by
  have hnone : ds.filter (·.Decides key n last) = [] :=
    List.filter_eq_nil_iff.mpr fun c hc => by simpa using h c hc
  rw [LastHeld, List.filter_append, hnone, List.append_nil, LastHeld]

theorem lastHeld_concat (h : c.Decides key n last) :
    LastHeld key n last (cs ++ [c]) ↔ c.kind = .received := by
  have hone : [c].filter (·.Decides key n last) = [c] :=
    List.filter_cons_of_pos (decide_eq_true h)
  rw [LastHeld, List.filter_append, hone, List.getLast?_concat]
  exact ⟨fun ⟨_, he, hk⟩ => Option.some.inj he ▸ hk, fun hk => ⟨c, rfl, hk⟩⟩

end ControlLine

open ControlLine

namespace Outbound
variable {f : Framed} {x : Outbound}

/-- a line about a packet confirms it, opens it, or leaves it as it was -/
theorem confirmed_apply_iff (h : Tabled f x) (c : ControlLine) :
    (x.apply c).status = .confirmed ↔
      if c.isWholePacket = true ∨ (c.kind = .resend ∧ c.burst.toNat ≤ f.terminalIndex) then
        c.kind = .received
      else x.status = .confirmed := by
  have hsize : c.burst.toNat < x.bursts.size ↔ c.burst.toNat ≤ f.terminalIndex := by
    rw [h.size_eq]
    exact Nat.lt_succ_iff
  cases hk : c.kind with
  | received =>
    rw [apply, hk]
    cases hw : c.isWholePacket with
    | false => simp
    | true => by_cases hs : x.status = .confirmed <;> simp [hs]
  | resend =>
    rw [apply, hk]
    cases hw : c.isWholePacket with
    | true => simp
    | false => by_cases hb : c.burst.toNat ≤ f.terminalIndex <;> simp [hsize, hb]

theorem confirmed_solicit (x : Outbound) :
    x.solicit.status = .confirmed ↔ x.status = .confirmed := by
  by_cases hs : x.status = .confirmed <;> simp [solicit, hs]

end Outbound

namespace Sender
open Outbound

/-! ## The verdict on a packet -/

/-- packet `n` is confirmed when the last of these lines that decides about it says so -/
def Verdict (fs : List Framed) (key : ProfileKey) (cs : List ControlLine) (n : Nat)
    (x : Outbound) : Prop :=
  ∃ f, fs[n]? = some f ∧ Tabled f x ∧
    (x.status = .confirmed ↔ LastHeld key n f.terminalIndex cs)

section
variable {fs : List Framed} {key : ProfileKey} {cs : List ControlLine} {s : Sender}

theorem endures_verdict (fs : List Framed) (key : ProfileKey) (cs : List ControlLine) :
    Endures (Verdict fs key cs) where
  settle := fun ⟨f, hf, ht, hv⟩ hs =>
    have hsettles := settles_settle _ hs
    ⟨f, hf, hsettles.tabled ht, hsettles.confirmed_iff.trans hv⟩
  send := fun ⟨f, hf, ht, hv⟩ hs i => ⟨f, hf, tabled_send ht hs i, hv⟩
  solicit := fun ⟨f, hf, ht, hv⟩ => ⟨f, hf, tabled_solicit ht, (confirmed_solicit _).trans hv⟩

theorem verdict_applied {ps : List Outbound} (h : Each (Verdict fs key cs) ps) (c : ControlLine) :
    Each (Verdict fs key (cs ++ [c])) (applied key ps c) := by
  intro n y hy
  rw [getElem?_applied] at hy
  obtain ⟨x, hx, rfl⟩ := Option.map_eq_some_iff.mp hy
  obtain ⟨f, hf, ht, hv⟩ := h n x hx
  by_cases hd : c.Decides key n f.terminalIndex
  · obtain ⟨hkey, hn, hkind⟩ := hd
    rw [if_pos ⟨hkey, hn⟩]
    refine ⟨f, hf, tabled_apply ht c, ?_⟩
    rw [confirmed_apply_iff ht, if_pos hkind, lastHeld_concat ⟨hkey, hn, hkind⟩]
  · rw [Verdict]
    refine ⟨f, hf, ?_, ?_⟩
    · split
      · exact tabled_apply ht c
      · exact ht
    · rw [lastHeld_append (by simpa using hd), ← hv]
      split
      · next hnamed =>
        rw [confirmed_apply_iff ht, if_neg fun hkind => hd ⟨hnamed.1, hnamed.2, hkind⟩]
      · rfl

theorem verdict_foldl {ps : List Outbound} (h : Each (Verdict fs key cs) ps)
    (ds : List ControlLine) : Each (Verdict fs key (cs ++ ds)) (ds.foldl (applied key) ps) := by
  induction ds generalizing cs ps with
  | nil => exact (List.append_nil cs).symm ▸ h
  | cons d ds ih =>
    have hrest := ih (verdict_applied h d)
    rwa [List.append_assoc] at hrest

theorem verdict_act (h : Each (Verdict fs s.key cs) s.packets) (a : Act) :
    Each (Verdict fs s.key (cs ++ s.brings a)) (s.act a).packets := by
  cases a with
  | transmit => exact (List.append_nil cs).symm ▸ (endures_verdict fs s.key cs).emit? h
  | input b now =>
    rw [act, (packets_handleInput s b now).1]
    exact verdict_foldl h _
  | control c now =>
    rw [act, packets_handleControl_eq]
    exact verdict_applied h c
  | status now => exact (List.append_nil cs).symm ▸ (endures_verdict fs s.key cs).pollStatus h now

theorem verdict_run (h : Each (Verdict fs s.key cs) s.packets) (acts : List Act) :
    Each (Verdict fs s.key (cs ++ s.heard acts)) (s.run acts).packets := by
  induction acts generalizing s cs with
  | nil => exact (List.append_nil cs).symm ▸ h
  | cons a acts ih =>
    have ha := verdict_act h a
    rw [← key_act s a] at ha
    have hrest := ih ha
    rwa [key_act, List.append_assoc] at hrest

end

/-! ## All packets -/

section
variable {fs : List Framed} {key : ProfileKey} {cs : List ControlLine} {s : Sender} {n : Nat}

theorem packetStatus?_of_verdict (h : Each (Verdict fs key cs) s.packets)
    (hlen : s.packets.length = fs.length) {f : Framed} (hf : fs[n]? = some f) :
    s.packetStatus? n = some .confirmed ↔ LastHeld key n (f.count + 1) cs := by
  have hn := (List.getElem?_eq_some_iff.mp hf).1
  have hx := List.getElem?_eq_getElem (hlen.symm ▸ hn)
  obtain ⟨f', hf', -, hv⟩ := h n _ hx
  obtain rfl := Option.some.inj (hf.symm.trans hf')
  rw [packetStatus?, hx, Option.map_some, Option.some_inj]
  exact hv

theorem pollStatus_eq_success {now : Nat} :
    (s.pollStatus now).1 = some .success ↔
      ∀ n < s.packets.length, s.packetStatus? n = some .confirmed := by
  have hcomplete : s.isComplete = true ↔
      ∀ n < s.packets.length, s.packetStatus? n = some .confirmed := by
    rw [isComplete, List.all_eq_true]
    constructor
    · intro h n hn
      rw [packetStatus?, List.getElem?_eq_getElem hn]
      exact congrArg some (beq_iff_eq.mp (h _ (List.getElem_mem hn)))
    · intro h x hx
      obtain ⟨n, hn, rfl⟩ := List.getElem_of_mem hx
      have hstatus := h n hn
      rw [packetStatus?, List.getElem?_eq_getElem hn] at hstatus
      exact beq_iff_eq.mpr (Option.some.inj hstatus)
  rw [← hcomplete]
  exact ⟨isComplete_of_pollStatus, fun h => by rw [pollStatus_of_isComplete h]⟩

variable [Deflate.Encoder] {pkg : Package} {config : SenderConfig} {start : Nat} {s₀ : Sender}

/-- the verdicts after a run, for the packets that the sender was made of -/
theorem exists_verdict (hnew : Sender.new pkg config start = .ok s₀) (acts : List Act) :
    ∃ fs : List Framed, fs.length = pkg.packetCount ∧
      (∀ n, s₀.burstCount? n = fs[n]?.map (·.count)) ∧
      (s₀.run acts).packets.length = fs.length ∧
      (s₀.run acts).key = ⟨pkg.info.serial, pkg.info.profile⟩ ∧
      Each (Verdict fs (s₀.run acts).key (s₀.heard acts)) (s₀.run acts).packets := by
  obtain ⟨info, data, -, hlen, -, hs⟩ := of_new hnew
  have hpackets : s₀.packets = (info :: data).map .new := by rw [hs]
  have hstart : Each (Verdict (info :: data) s₀.key []) s₀.packets := by
    intro n x hx
    rw [hpackets, List.getElem?_map] at hx
    obtain ⟨f, hf, rfl⟩ := Option.map_eq_some_iff.mp hx
    exact ⟨f, hf, tabled_new f, by simp [Outbound.new, not_lastHeld_nil]⟩
  have hrun := verdict_run hstart acts
  have hkey := key_run s₀ acts
  refine ⟨info :: data, ?_, fun n => ?_, ?_, ?_, ?_⟩
  · rw [List.length_cons, ← hlen, Package.packetCount]
  · rw [burstCount?, hpackets, List.getElem?_map, Option.map_map]
    rfl
  · rw [length_run, hpackets, List.length_map]
  · rw [hkey, hs]
  · rw [hkey]
    exact hrun

/-- a packet is confirmed exactly when the last line that decides about it says that it is held, and
the transfer has succeeded exactly when this is so of every packet -/
theorem confirmed_iff_last_line (hnew : Sender.new pkg config start = .ok s₀) (acts : List Act) :
    let key : ProfileKey := ⟨pkg.info.serial, pkg.info.profile⟩
    let s := s₀.run acts
    (∀ n < pkg.packetCount, ∃ count, s₀.burstCount? n = some count ∧
      (s.packetStatus? n = some .confirmed ↔ LastHeld key n (count + 1) (s₀.heard acts)) ∧
      -- nothing else changes it
      ∀ a, (∀ c ∈ s.brings a, ¬ c.Decides key n (count + 1)) →
        ((s.act a).packetStatus? n = some .confirmed ↔ s.packetStatus? n = some .confirmed)) ∧
    ∀ now, (s.pollStatus now).1 = some .success ↔
      ∀ n < pkg.packetCount, ∃ count, s₀.burstCount? n = some count ∧
        LastHeld key n (count + 1) (s₀.heard acts) := by
  intro key s
  obtain ⟨fs, hcount, hbursts, hlen, hkey, hall⟩ := exists_verdict hnew acts
  have hframed : ∀ n < pkg.packetCount, ∃ f, fs[n]? = some f ∧ s₀.burstCount? n = some f.count := by
    intro n hn
    have hf := List.getElem?_eq_getElem (hcount.symm ▸ hn)
    exact ⟨_, hf, by rw [hbursts, hf]; rfl⟩
  have hconfirmed {n : Nat} {f : Framed} (hf : fs[n]? = some f) :
      s.packetStatus? n = some .confirmed ↔ LastHeld key n (f.count + 1) (s₀.heard acts) := by
    rw [packetStatus?_of_verdict hall hlen hf, hkey]
  refine ⟨fun n hn => ?_, fun now => ?_⟩
  · obtain ⟨f, hf, hb⟩ := hframed n hn
    refine ⟨f.count, hb, hconfirmed hf, fun a ha => ?_⟩
    have hact := verdict_act hall a
    rw [packetStatus?_of_verdict hact ((length_act _ a).trans hlen) hf, hkey, lastHeld_append ha,
      hconfirmed hf]
  · rw [pollStatus_eq_success, hlen, hcount]
    refine forall₂_congr fun n hn => ?_
    obtain ⟨f, hf, hb⟩ := hframed n hn
    rw [hconfirmed hf]
    constructor
    · exact fun h => ⟨f.count, hb, h⟩
    · rintro ⟨count, hc, h⟩
      rwa [Option.some.inj (hb.symm.trans hc)]

end

/-- packet `n` of the small cast -/
def smallKey (n : UInt16) : PacketKey := ⟨⟨770, 12345⟩, n⟩

/-- both packets of the small cast are said to be held, the second in two pieces with a heartbeat
behind it; then burst 3 of packet 1 is asked for, and the packet said to be held again, and at last
come a burst that there is not, an answer about a single burst and a line of another profile -/
def talkingActs : List Act :=
  [.input (ControlLine.received (smallKey 0)).wire 5,
    .input ((ControlLine.received (smallKey 1)).wire.take 20) 6,
    .input ((ControlLine.received (smallKey 1)).wire.drop 20 ++ heartbeat ++ [10]) 7,
    .control (.resendBurst (smallKey 1) 3) 8, .transmit, .control (.received (smallKey 1)) 9,
    .control (.resendBurst (smallKey 1) 4) 10, .control ⟨.received, smallKey 1, 1⟩ 10,
    .control (.resendPacket ⟨⟨771, 12345⟩, 1⟩) 10, .status 11]

set_option maxRecDepth 2000 in
theorem small_cast_confirmed :
    ∃ pkg s₀, Exchange.smallCast.package Exchange.smallPlan = .ok pkg ∧
      Sender.new pkg .standard 0 = .ok s₀ ∧ pkg.packetCount = 2 ∧
      (s₀.run (talkingActs.take 5)).packetStatus? 1 ≠ some .confirmed ∧
      (s₀.run talkingActs).packetStatus? 1 = some .confirmed ∧
      ((s₀.run talkingActs).pollStatus 12).1 = some .success := by
  have heval : Exchange.passes Exchange.smallCast Exchange.smallPlan (fun pkg s =>
      decide (pkg.packetCount = 2 ∧ s.burstCount? 0 = some 1 ∧ s.burstCount? 1 = some 2 ∧
        s.heard (talkingActs.take 5) = [.received (smallKey 0), .received (smallKey 1),
          .resendBurst (smallKey 1) 3] ∧
        s.heard talkingActs = [.received (smallKey 0), .received (smallKey 1),
          .resendBurst (smallKey 1) 3, .received (smallKey 1), .resendBurst (smallKey 1) 4,
          ⟨.received, smallKey 1, 1⟩, .resendPacket ⟨⟨771, 12345⟩, 1⟩])) = true := by
    decide +kernel
  obtain ⟨pkg, s₀, hpkg, hs, heval⟩ := Exchange.exists_of_passes heval
  obtain ⟨hcount, hfirst, hsecond, hopen, hheld⟩ := of_decide_eq_true heval
  have hinfo : (⟨pkg.info.serial, pkg.info.profile⟩ : ProfileKey) = ⟨770, 12345⟩ := by
    rw [(Profile.package_eq_ok hpkg).1]
    rfl
  obtain ⟨hbefore, -⟩ := confirmed_iff_last_line hs (talkingActs.take 5)
  obtain ⟨hafter, hsuccess⟩ := confirmed_iff_last_line hs talkingActs
  rw [hinfo] at hbefore hafter hsuccess
  have hall : ∀ n < pkg.packetCount, ∃ count, s₀.burstCount? n = some count ∧
      LastHeld ⟨770, 12345⟩ n (count + 1) (s₀.heard talkingActs) := by
    rw [hcount, hheld]
    intro n hn
    match n, hn with
    | 0, _ => exact ⟨1, hfirst, .received (smallKey 0), by decide, rfl⟩
    | 1, _ => exact ⟨2, hsecond, .received (smallKey 1), by decide, rfl⟩
  obtain ⟨c, hc, hstatus, -⟩ := hbefore 1 (by rw [hcount]; decide)
  obtain ⟨c', hc', hstatus', -⟩ := hafter 1 (by rw [hcount]; decide)
  obtain rfl : 2 = c := Option.some.inj (hsecond.symm.trans hc)
  refine ⟨pkg, s₀, hpkg, hs, hcount, fun hconfirmed => ?_, ?_, (hsuccess 12).mpr hall⟩
  · obtain ⟨l, hl, hkind⟩ := hstatus.mp hconfirmed
    rw [hopen] at hl
    obtain rfl : .resendBurst (smallKey 1) 3 = l :=
      Option.some.inj ((by decide : some (ControlLine.resendBurst (smallKey 1) 3) = _).trans hl)
    exact absurd hkind (by decide)
  · obtain ⟨c'', hc'', hlast⟩ := hall 1 (by rw [hcount]; decide)
    obtain rfl := Option.some.inj (hc'.symm.trans hc'')
    exact hstatus'.mpr hlast

end Sender

end Shoreline
