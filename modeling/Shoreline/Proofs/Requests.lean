import Shoreline.Proofs.ControlWire
import Shoreline.Proofs.Courses

/-!
# What is asked for is lacking

A receiver asks for a single burst of a packet only when it does not hold the packet and the burst is
announced but not there.  The line has three digits for the number of the burst, and 999 in them
stands for the whole packet.  A burst announces up to 9999, so a line says what it means exactly when
the burst is not behind the 998th (`requests_read_back_iff`).

* `lacks_of_apply`, `lacks_of_requestOutstanding`   what one burst or the timers make the receiver ask for;
* `parse_told`                                      what a line is read as;
* `Account.founded`                                 all that is said in a run.
-/

namespace Shoreline

/-! ## What a line tells -/

namespace ControlLine

/-- the line as it is written: only three digits of the burst stand in it -/
def told (c : ControlLine) : ControlLine := { c with burst := UInt16.ofNat (c.burst.toNat % 1000) }

theorem toNat_told (c : ControlLine) : c.told.burst.toNat = c.burst.toNat % 1000 := by
  rw [told, UInt16.toNat_ofNat', Nat.mod_eq_of_lt (by omega)]

theorem text_told (c : ControlLine) : c.told.text = c.text := by
  have hbody : c.told.body = c.body := by
    have hdigits : decimal 3 c.told.burst.toNat = decimal 3 c.burst.toNat := by
      rw [toNat_told]
      exact decimal_mod 3 _
    rw [body, hdigits]
    rfl
  rw [text, hbody, text]

variable {c d : ControlLine}

/-- a line is read as if its burst had only the last three digits -/
theorem parse_told (hserial : c.key.serial.toNat ≤ 9999) (hpacket : c.key.packet.toNat ≤ 9999) :
    parse c.text = .ok c.told := by
  rw [← text_told]
  refine parse_text _ ⟨hserial, hpacket, ?_⟩
  rw [toNat_told]
  omega

/-- two lines are the same bytes when they are read alike -/
theorem wire_eq_iff (hc : c.key.serial.toNat ≤ 9999 ∧ c.key.packet.toNat ≤ 9999)
    (hd : d.key.serial.toNat ≤ 9999 ∧ d.key.packet.toNat ≤ 9999) :
    c.wire = d.wire ↔ c.told = d.told := by
  constructor
  · intro h
    have hparse := congrArg parse (List.append_cancel_right h)
    rw [parse_told hc.1 hc.2, parse_told hd.1 hd.2] at hparse
    exact Except.ok.inj hparse
  · intro h
    rw [wire, ← text_told c, h, text_told, wire]

section
variable (key : PacketKey) (hserial : key.serial.toNat ≤ 9999) (hpacket : key.packet.toNat ≤ 9999)
include hserial hpacket

theorem parse_resendBurst (i : UInt16) :
    parse (resendBurst key i).text = .ok (resendBurst key (UInt16.ofNat (i.toNat % 1000))) :=
  parse_told hserial hpacket

theorem parse_resendBurst_iff (i : UInt16) :
    (parse (resendBurst key i).text = .ok (resendBurst key i) ∧
      (resendBurst key i).isWholePacket = false) ↔ i.toNat ≤ 998 := by
  have hwhole : (resendBurst key i).isWholePacket = false ↔ i.toNat ≠ 999 := by
    rw [isWholePacket, beq_eq_false_iff_ne]
    exact not_congr UInt16.toNat_inj.symm
  have hsame : UInt16.ofNat (i.toNat % 1000) = i ↔ i.toNat < 1000 := by
    rw [← UInt16.toNat_inj, UInt16.toNat_ofNat']
    omega
  have hline : resendBurst key (UInt16.ofNat (i.toNat % 1000)) = resendBurst key i ↔
      i.toNat < 1000 := by
    rw [← hsame]
    exact ⟨fun h => congrArg ControlLine.burst h, fun h => congrArg _ h⟩
  rw [parse_resendBurst key hserial hpacket, Except.ok.injEq, hline, hwhole]
  omega

theorem parse_wholePacket (kind : ControlKind) :
    parse (ControlLine.text ⟨kind, key, wholePacket⟩) = .ok ⟨kind, key, wholePacket⟩ :=
  parse_text _ ⟨hserial, hpacket, show wholePacket.toNat ≤ 999 by decide⟩

end

end ControlLine

/-! ## One packet -/

/-- the packet is open, and piece `i` is announced but not there -/
structure PacketAssembly.Lacks (p : PacketAssembly) (i : UInt16) : Prop where
  held : p.held = false
  announced : ∃ c, p.announced = some c ∧ 1 ≤ i.toNat ∧ i ≤ c
  pieces : p.pieces.contains i = false

namespace PacketAssembly
variable {p : PacketAssembly} {i n : UInt16}

theorem lacks_of_mem_request {m : UInt16} (hopen : p.held = false)
    (h : .wantsBurst m i ∈ p.request n) : m = n ∧ p.Lacks i := by
  rw [request] at h
  split at h
  · next hc =>
    obtain ⟨c, hc⟩ := Option.isSome_iff_exists.mp hc
    obtain ⟨j, hj, he⟩ := List.mem_map.mp h
    obtain ⟨rfl, rfl⟩ := Answer.wantsBurst.inj he
    obtain ⟨hindex, hmissing⟩ := List.mem_filter.mp hj
    rw [indices, hc, mem_numbersTo] at hindex
    refine ⟨rfl, hopen, ⟨c, hc, hindex.1, UInt16.le_iff_toNat_le.mpr hindex.2⟩, ?_⟩
    rwa [Bool.not_eq_true'] at hmissing
  · exact absurd (List.mem_singleton.mp h) (by simp)

theorem Lacks.hasAll_eq_false (h : p.Lacks i) : p.hasAll = false := by
  obtain ⟨c, hc, hpos, hle⟩ := h.announced
  rw [Bool.eq_false_iff]
  intro hall
  have hthere := (hasAll_iff hc).mp hall i hpos hle
  exact absurd (hthere.symm.trans h.pieces) (by decide)

end PacketAssembly

theorem Slot.lacks_of_receive {x : Slot} {key : PacketKey} {k : BurstKind} {m i : UInt16}
    (h : .wantsBurst m i ∈ (x.receive key k).2) :
    m = key.packet ∧ (x.receive key k).1.assembly.Lacks i := by
  rw [receive] at h ⊢
  split at h
  · dsimp only at h
    split at h
    · exact absurd (List.mem_singleton.mp h) (by simp)
    · exact absurd h (by simp)
  next hopen =>
  rw [if_neg hopen]
  split at h
  · exact absurd h (by simp)
  next hrefused =>
  rw [if_neg hrefused]
  split at h
  · have hanswer := List.mem_singleton.mp h
    rw [rebuild] at hanswer
    split at hanswer
    · exact absurd hanswer (by simp)
    · exact absurd hanswer (by simp)
  next hready =>
  rw [if_neg hready]
  dsimp only at h
  split at h
  · have htake : (x.assembly.take k).held = false :=
      (PacketAssembly.held_take _ _).trans (Bool.eq_false_iff.mpr hopen)
    exact PacketAssembly.lacks_of_mem_request htake h
  · exact absurd h (by simp)

/-! ## One profile -/

/-- the bursts of a profile that can be read from bytes -/
def Supply.fits (key : ProfileKey) : Supply where
  key
  Has n k := Burst.Fits ⟨⟨key, n⟩, k⟩
  index_ne_zero h := h.numbered

namespace ProfileAssembly
variable {u : Supply} {s : ProfileAssembly} {n m i : UInt16} {k : BurstKind} {a : Answer}

theorem packet_of_apply (hi : Idle s) (h : a ∈ (s.apply n k).2) : a.packet = n := by
  have hanswers := congrArg Prod.snd (apply_slot hi n k).2
  dsimp only at hanswers
  rw [hanswers] at h
  exact Slot.packet_of_receive h

theorem lacks_of_apply (hi : Idle s) (h : .wantsBurst m i ∈ (s.apply n k).2) :
    ((s.apply n k).1.packet m).Lacks i := by
  have hslot := congrArg Prod.fst (apply_slot hi n k).2
  have hanswers := congrArg Prod.snd (apply_slot hi n k).2
  dsimp only at hslot hanswers
  rw [hanswers] at h
  obtain ⟨rfl, hlacks⟩ := Slot.lacks_of_receive h
  rw [← hslot] at hlacks
  exact hlacks

/-- asking for a packet rebuilds it, leaves it alone because it is held, or asks for what is missing -/
theorem pursue_cases (hi : Idle s) (n : UInt16) :
    ((s.packet n).hasAll = true ∧ s.pursue n = ((s.rebuild n).1, [(s.rebuild n).2])) ∨
      s.pursue n = (s, []) ∨
      ((s.packet n).held = false ∧ s.pursue n = (s, (s.packet n).request n)) := by
  cases hheld : (s.packet n).held with
  | true =>
    rw [pursue_of_not_hasAll (Or.inr hheld), request_of_held hheld]
    exact Or.inr (Or.inl rfl)
  | false =>
    cases hall : (s.packet n).hasAll with
    | true => exact Or.inl ⟨rfl, pursue_of_hasAll hi hheld hall⟩
    | false =>
      rw [pursue_of_not_hasAll (Or.inl ⟨hheld, hall⟩), request_of_open hheld]
      exact Or.inr (Or.inr ⟨rfl, rfl⟩)

theorem packet_of_pursue (hi : Idle s) (h : a ∈ (s.pursue n).2) : a.packet = n := by
  rcases pursue_cases hi n with ⟨-, he⟩ | he | ⟨-, he⟩
  · rw [he, List.mem_singleton] at h
    rw [h, rebuild]
    split <;> rfl
  · rw [he] at h
    exact absurd h (by simp)
  · rw [he] at h
    rcases PacketAssembly.mem_request h with rfl | ⟨j, rfl⟩ <;> rfl

theorem lacks_of_pursue (hi : Idle s) (h : .wantsBurst m i ∈ (s.pursue n).2) :
    ((s.pursue n).1.packet m).Lacks i := by
  rcases pursue_cases hi n with ⟨-, he⟩ | he | ⟨hopen, he⟩
  · rw [he, List.mem_singleton, rebuild] at h
    split at h <;> exact absurd h (by simp)
  · rw [he] at h
    exact absurd h (by simp)
  · rw [he] at h ⊢
    obtain ⟨rfl, hlacks⟩ := PacketAssembly.lacks_of_mem_request hopen h
    exact hlacks

/-- a packet that lacks a piece is not rebuilt, whatever is asked for -/
theorem lacks_pursue (hi : Idle s) (h : (s.packet m).Lacks i) :
    ((s.pursue n).1.packet m).Lacks i := by
  rcases pursue_cases hi n with ⟨hall, he⟩ | he | ⟨-, he⟩
  · have hne : m ≠ n := by
      rintro rfl
      exact absurd (hall.symm.trans h.hasAll_eq_false) (by decide)
    rwa [he, packet_rebuild_ne s n hne]
  · rwa [he]
  · rwa [he]

theorem lacks_of_pursueAll (h : Stocked u s) (hi : Idle s) (ns : List UInt16) :
    (∀ m i, (s.packet m).Lacks i → ((s.pursueAll ns).1.packet m).Lacks i) ∧
      ∀ a ∈ (s.pursueAll ns).2, a.packet ∈ ns ∧
        ∀ m i, a = .wantsBurst m i → ((s.pursueAll ns).1.packet m).Lacks i := by
  induction ns generalizing s with
  | nil => exact ⟨fun _ _ => id, fun a ha => absurd ha (by simp [pursueAll])⟩
  | cons n ns ih =>
    obtain ⟨h', hi'⟩ := stocked_pursue h hi n
    obtain ⟨hkeeps, hrest⟩ := ih h' hi'
    refine ⟨fun m i hlacks => hkeeps m i (lacks_pursue hi hlacks), fun a ha => ?_⟩
    rw [pursueAll, List.mem_append] at ha
    rcases ha with ha | ha
    · refine ⟨packet_of_pursue hi ha ▸ List.mem_cons_self, ?_⟩
      rintro m i rfl
      exact hkeeps m i (lacks_of_pursue hi ha)
    · obtain ⟨hmem, hlacks⟩ := hrest a ha
      exact ⟨List.mem_cons_of_mem n hmem, hlacks⟩

theorem lacks_of_requestOutstanding (h : Stocked u s) (hi : Idle s)
    (ha : .wantsBurst m i ∈ s.requestOutstanding.2) :
    (s.requestOutstanding.1.packet m).Lacks i := by
  rw [requestOutstanding_eq] at ha ⊢
  exact ((lacks_of_pursueAll h hi s.outstanding).2 _ ha).2 m i rfl

/-- the packets that are asked for have numbers of four digits -/
theorem le_of_outstanding {key : ProfileKey} (h : Stocked (.fits key) s) (hn : n ∈ s.outstanding) :
    n.toNat ≤ 9999 := by
  rw [outstanding] at hn
  rcases List.mem_append.mp hn with hn | hn
  · rcases List.mem_append.mp hn with hn | hn
    · split at hn
      · exact absurd hn (by simp)
      · rw [List.mem_singleton.mp hn]
        decide
    · have hseen : s.packets.contains n = true := by
        rw [Keyed.mem_keys_iff, Keyed.contains, Keyed.get?_filter] at hn
        rw [Keyed.contains]
        cases hp : s.packets.get? n with
        | some p => rfl
        | none =>
          rw [hp] at hn
          exact absurd hn (by simp)
      obtain ⟨k, hk⟩ := h.seen n hseen
      exact hk.2.1
  · -- the Info Packet says how many there are
    have hle := (mem_numbersTo.mp (List.mem_filter.mp (List.mem_filter.mp hn).1).1).2
    rw [ReceivedProfile.expected?] at hle
    cases hinfo : s.received.info with
    | none =>
      rw [hinfo] at hle
      exact Nat.le_trans hle (by decide)
    | some p =>
      obtain ⟨pieces, -, -, -, hdecode, -⟩ := h.stores 0 (.info p) ⟨rfl, hinfo⟩
      have htotal := Definition.total_le (Packet.fits_of_decode hdecode)
      rw [hinfo] at hle
      exact Nat.le_trans hle (Nat.le_trans htotal (by decide))

theorem le_of_requestOutstanding {key : ProfileKey} (h : Stocked (.fits key) s) (hi : Idle s)
    (ha : a ∈ s.requestOutstanding.2) : a.packet.toNat ≤ 9999 := by
  rw [requestOutstanding_eq] at ha
  exact le_of_outstanding h ((lacks_of_pursueAll h hi s.outstanding).2 a ha).1

end ProfileAssembly

/-! ## A receiver -/

namespace Receiver
open ProfileAssembly

variable {r r' : Receiver} {us : List Utterance}

/-- all that the receiver knows was read from bursts -/
structure Legible (r : Receiver) : Prop where
  serial : ∀ key, r.profiles.contains key = true → key.serial.toNat ≤ 9999
  stocked : ∀ key, Stocked (.fits key) (r.assembly key)
  idle : ∀ key, Idle (r.assembly key)

theorem legible_new (config : ReceiverConfig) (now : Nat) : (new config now).Legible :=
  ⟨fun _ h => absurd h Bool.false_ne_true, fun key => stocked_new (.fits key), idle_new⟩

theorem Legible.of_profiles (h : r.Legible) (hprofiles : r'.profiles = r.profiles) :
    r'.Legible := by
  have hassembly := assembly_of_profiles hprofiles
  refine ⟨fun key hseen => h.serial key (hprofiles ▸ hseen), fun key => ?_, fun key => ?_⟩
  · rw [hassembly key]
    exact h.stocked key
  · rw [hassembly key]
    exact h.idle key

theorem Legible.update (h : r.Legible) {key : ProfileKey} (hkey : key.serial.toNat ≤ 9999)
    {x : ProfileAssembly × List Answer} (hx : Stocked (.fits key) x.1 ∧ Idle x.1) :
    (r.update key x).Legible := by
  refine ⟨fun key' hseen => ?_, fun key' => ?_, fun key' => ?_⟩
  · by_cases he : key' = key
    · rwa [he]
    · refine h.serial key' ?_
      rwa [Receiver.update, Keyed.contains_insert_ne _ he] at hseen
  · by_cases he : key' = key
    · subst he
      rw [assembly_update]
      exact hx.1
    · rw [assembly_update_ne r he]
      exact h.stocked key'
  · by_cases he : key' = key
    · subst he
      rw [assembly_update]
      exact hx.2
    · rw [assembly_update_ne r he]
      exact h.idle key'

/-- the numbers of an answer fit into its line, and a burst that is asked for is lacking right then -/
def Utterance.Founded : Utterance → Prop
  | heartbeat => True
  | answer profile a after => profile.serial.toNat ≤ 9999 ∧ a.packet.toNat ≤ 9999 ∧
      ∀ n i, a = .wantsBurst n i → ((after.assembly profile).packet n).Lacks i

theorem founded_utterances {profile : ProfileKey} {x : ProfileAssembly × List Answer}
    (hserial : profile.serial.toNat ≤ 9999) (hpacket : ∀ a ∈ x.2, a.packet.toNat ≤ 9999)
    (hlacks : ∀ n i, .wantsBurst n i ∈ x.2 → (x.1.packet n).Lacks i) :
    ∀ u ∈ r.utterances profile x, u.Founded := by
  intro u hu
  obtain ⟨a, ha, rfl⟩ := List.mem_map.mp hu
  refine ⟨hserial, hpacket a ha, ?_⟩
  rintro n i rfl
  rw [assembly_update]
  exact hlacks n i ha

theorem Account.founded (hc : Account Burst.Fits r us r') (h : r.Legible) :
    r'.Legible ∧ ∀ u ∈ us, u.Founded := by
  have hadd {us us' : List Utterance} (hus : ∀ u ∈ us, u.Founded) (hus' : ∀ u ∈ us', u.Founded) :
      ∀ u ∈ us ++ us', u.Founded := by
    intro u hu
    rcases List.mem_append.mp hu with hu | hu
    · exact hus u hu
    · exact hus' u hu
  induction hc with
  | refl => exact ⟨h, fun u hu => absurd hu (by simp)⟩
  | burst _ hb _ ih =>
    obtain ⟨hr, hus⟩ := ih
    refine ⟨hr.update hb.1 (stocked_apply (hr.stocked _) (hr.idle _) hb), hadd hus ?_⟩
    refine founded_utterances hb.1 (fun a ha => ?_) fun n i => lacks_of_apply (hr.idle _)
    rw [packet_of_apply (hr.idle _) ha]
    exact hb.2.1
  | request _ hseen ih =>
    obtain ⟨hr, hus⟩ := ih
    have hserial := hr.serial _ hseen
    refine ⟨hr.update hserial (stocked_requestOutstanding (hr.stocked _) (hr.idle _)),
      hadd hus ?_⟩
    exact founded_utterances hserial
      (fun a ha => le_of_requestOutstanding (hr.stocked _) (hr.idle _) ha)
      fun n i => lacks_of_requestOutstanding (hr.stocked _) (hr.idle _)
  | aside _ beats _ hprofiles _ ih =>
    obtain ⟨hr, hus⟩ := ih
    refine ⟨hr.of_profiles hprofiles, hadd hus fun u hu => ?_⟩
    rw [List.eq_of_mem_replicate hu]
    exact trivial

/-- every line that a run queues is read as what it says, but for requests for a burst behind the
998th; and a burst that is asked for is lacking right then -/
theorem requests_read_back_iff (config : ReceiverConfig) (start : Nat) (acts : List Act)
    (hacts : ∀ a ∈ acts, a.Meets Burst.Fits) :
    ∃ us, (new config start).queued acts = us.map Utterance.line ∧
      Account Burst.Fits (new config start) us ((new config start).run acts) ∧
      ∀ profile a after, .answer profile a after ∈ us →
        match a with
        | .wantsBurst n i =>
          ((after.assembly profile).packet n).Lacks i ∧
            ControlLine.parse (a.line profile).text =
              .ok (.resendBurst ⟨profile, n⟩ (UInt16.ofNat (i.toNat % 1000))) ∧
            ((ControlLine.parse (a.line profile).text = .ok (a.line profile) ∧
              (a.line profile).isWholePacket = false) ↔ i.toNat ≤ 998)
        | .rebuilt _ | .stillHeld _ | .wantsAll _ =>
          ControlLine.parse (a.line profile).text = .ok (a.line profile) := by
  obtain ⟨us, hus, hc⟩ := account_run (fun hp => (Burst.of_parse hp).1) (new config start) hacts
  refine ⟨us, hus, hc, fun profile a after ha => ?_⟩
  obtain ⟨hserial, hpacket, hlacks⟩ := (hc.founded (legible_new config start)).2 _ ha
  cases a with
  | rebuilt n => exact ControlLine.parse_wholePacket ⟨profile, n⟩ hserial hpacket _
  | stillHeld n => exact ControlLine.parse_wholePacket ⟨profile, n⟩ hserial hpacket _
  | wantsAll n => exact ControlLine.parse_wholePacket ⟨profile, n⟩ hserial hpacket _
  | wantsBurst n i =>
    exact ⟨hlacks n i rfl,
      ControlLine.parse_resendBurst ⟨profile, n⟩ hserial hpacket i,
      ControlLine.parse_resendBurst_iff ⟨profile, n⟩ hserial hpacket i⟩

/-- the second of two bursts is missing when the terminal one comes -/
theorem second_burst_requested :
    let key : PacketKey := ⟨⟨770, 12345⟩, 1⟩
    let acts : List Act := [.input (Burst.wire ⟨key, .announce 2⟩) 0,
      .input (Burst.wire ⟨key, .data 1 [0, 0]⟩) 5, .input (Burst.wire ⟨key, .terminal⟩) 10]
    (∀ a ∈ acts, a.Meets Burst.Fits) ∧
      (new .standard 0).queued acts = [.control (.resendBurst key 2)] ∧
      ∃ after, Account Burst.Fits (new .standard 0)
          [.answer key.toProfileKey (.wantsBurst 1 2) after] ((new .standard 0).run acts) ∧
        ((after.assembly key.toProfileKey).packet 1).Lacks 2 ∧
        ControlLine.parse (ControlLine.resendBurst key 2).text = .ok (.resendBurst key 2) ∧
        (ControlLine.resendBurst key 2).isWholePacket = false := by
  intro key acts
  have hacts : ∀ a ∈ acts, a.Meets Burst.Fits := by
    intro a ha
    simp only [acts, List.mem_cons, List.not_mem_nil, or_false] at ha
    obtain rfl | rfl | rfl := ha <;> exact trivial
  have hqueued : (new .standard 0).queued acts = [.control (.resendBurst key 2)] := by
    decide +kernel
  obtain ⟨us, hus, hc, hall⟩ := requests_read_back_iff .standard 0 acts hacts
  rw [hqueued] at hus
  obtain ⟨u, rfl, hline⟩ := List.map_eq_singleton_iff.mp hus.symm
  cases u with
  | heartbeat => exact absurd hline (by simp [Utterance.line])
  | answer profile a after =>
    cases a with
    | wantsBurst n i =>
      obtain ⟨rfl, rfl, rfl⟩ : profile = key.toProfileKey ∧ n = 1 ∧ i = 2 := by
        obtain ⟨-, hkey, hburst⟩ := ControlLine.mk.inj (Outgoing.control.inj hline)
        exact ⟨congrArg PacketKey.toProfileKey hkey, congrArg PacketKey.packet hkey, hburst⟩
      obtain ⟨hlacks, -, hiff⟩ := hall _ _ _ List.mem_cons_self
      obtain ⟨hparse, hwhole⟩ := hiff.mpr (by decide)
      exact ⟨hacts, hqueued, after, hc, hlacks, hparse, hwhole⟩
    | rebuilt n => exact absurd (congrArg ControlLine.kind (Outgoing.control.inj hline)) nofun
    | stillHeld n => exact absurd (congrArg ControlLine.kind (Outgoing.control.inj hline)) nofun
    | wantsAll n =>
      have hburst : (999 : UInt16) = 2 := congrArg ControlLine.burst (Outgoing.control.inj hline)
      exact absurd hburst (by decide)

/-- of a thousand announced bursts the last but one is asked for in the words for the whole packet, and
the last one in those for burst 0 -/
theorem thousandth_burst_misread :
    let key : PacketKey := ⟨⟨770, 12345⟩, 1⟩
    let acts : List Act := [.input (Burst.wire ⟨key, .announce 1000⟩) 0,
      .input (Burst.wire ⟨key, .terminal⟩) 0]
    let queued := (new .standard 0).queued acts
    queued = (numbersTo 1000).map (fun i => .control (.resendBurst key i)) ∧
      .control (.resendBurst key 999) ∈ queued ∧
      ControlLine.resendBurst key 999 = .resendPacket key ∧
      .control (.resendBurst key 1000) ∈ queued ∧
      ControlLine.parse (ControlLine.resendBurst key 1000).text = .ok (.resendBurst key 0) := by
  intro key acts queued
  have hqueued : queued = (numbersTo 1000).map (fun i => .control (.resendBurst key i)) := by
    decide +kernel
  have hmem {i : UInt16} (h : 1 ≤ i.toNat ∧ i.toNat ≤ 1000) :
      .control (.resendBurst key i) ∈ queued := by
    rw [hqueued]
    exact List.mem_map.mpr ⟨i, mem_numbersTo.mpr h, rfl⟩
  exact ⟨hqueued, hmem (by decide), rfl, hmem (by decide),
    ControlLine.parse_resendBurst key (by decide) (by decide) 1000⟩

end Receiver

end Shoreline
