import Shoreline.Proofs.Courses

/-!
# Acknowledged for good

A packet that is held is not touched any more, and it is acknowledged only when it is held
(`Slot.Step`).  So whatever a receiver is given, what it has of an acknowledged packet never changes
again, it does not ask for the packet again, and it has counted the packet once
(`acknowledged_for_good`).

* `Slot.Told`          what a packet is like after all that was said about it;
* `Course.slot`        what becomes of one packet in the course of a receiver;
* `rebuilt_heldKeys`   each packet that was rebuilt is counted once.
-/

namespace Shoreline

/-- says that the packet is held -/
def Answer.Acknowledges : Answer → Prop
  | rebuilt _ | stillHeld _ => True
  | wantsBurst _ _ | wantsAll _ => False

theorem Answer.kind_line (key : ProfileKey) (a : Answer) :
    (a.line key).kind = .received ↔ a.Acknowledges := by
  cases a <;> simp [Acknowledges, line, ControlLine.received, ControlLine.resendBurst,
    ControlLine.resendPacket]

/-! ## One packet -/

namespace Slot

/-- what can happen to a packet, and what is said about it then -/
inductive Step (x : Slot) : List Answer → Slot → Prop where
  | rests {as : List Answer} (h : x.assembly.held = true)
      (has : ∀ a ∈ as, a.Acknowledges ∧ a.isRebuilt = false) : Step x as x
  | waits {as : List Answer} {y : Slot} (h : x.assembly.held = false)
      (hy : y.assembly.held = false) (hstored : y.stored = x.stored)
      (has : ∀ a ∈ as, ¬ a.Acknowledges) : Step x as y
  | rebuilt (h : x.assembly.held = false) (n : UInt16) (p : PacketAssembly) (q : Packet) :
      Step x [.rebuilt n] ⟨some p.hold, some q⟩

/-- what becomes of a packet, and all that is said about it on the way -/
inductive Course (x : Slot) : List Answer → Slot → Prop where
  | refl : Course x [] x
  | step {as bs : List Answer} {y z : Slot} (h : Course x as y) (hs : Step y bs z) :
      Course x (as ++ bs) z

variable {x y z : Slot} {as bs : List Answer} {key : PacketKey} {k : BurstKind}

theorem Course.trans (h : Course x as y) (h' : Course y bs z) : Course x (as ++ bs) z := by
  induction h' with
  | refl =>
    rw [List.append_nil]
    exact h
  | step _ hs ih =>
    rw [← List.append_assoc]
    exact ih.step hs

theorem asks_of_mem_request {p : PacketAssembly} {n : UInt16} {a : Answer}
    (h : a ∈ p.request n) : a.packet = n ∧ ¬ a.Acknowledges := by
  rcases PacketAssembly.mem_request h with rfl | ⟨i, rfl⟩
  · exact ⟨rfl, id⟩
  · exact ⟨rfl, id⟩

theorem step_rebuild (h : x.assembly.held = false) {p : PacketAssembly} (hp : p.held = false) :
    Step x [(x.rebuild key p).2] (x.rebuild key p).1 := by
  cases hd : p.decoded? key with
  | some q =>
    rw [rebuild_of_some hd]
    exact .rebuilt h key.packet p q
  | none =>
    rw [rebuild_of_none hd]
    refine .waits h hp rfl fun a ha => ?_
    rw [List.mem_singleton.mp ha]
    exact id

theorem step_receive (x : Slot) (key : PacketKey) (k : BurstKind) :
    Step x (x.receive key k).2 (x.receive key k).1 := by
  rw [receive]
  split
  · next hheld =>
    refine .rests hheld fun a ha => ?_
    dsimp only at ha
    split at ha
    · rw [List.mem_singleton.mp ha]
      exact ⟨trivial, rfl⟩
    · exact absurd ha (by simp)
  next hopen =>
  have hopen' : x.assembly.held = false := Bool.eq_false_iff.mpr hopen
  have htake : (x.assembly.take k).held = false := (PacketAssembly.held_take _ _).trans hopen'
  split
  · exact .waits hopen' hopen' rfl fun a ha => absurd ha (by simp)
  split
  · exact step_rebuild hopen' htake
  · refine .waits hopen' htake rfl fun a ha => ?_
    dsimp only at ha
    split at ha
    · exact (asks_of_mem_request ha).2
    · exact absurd ha (by simp)

/-- what a packet is like after all that was said about it -/
structure Told (x : Slot) (as : List Answer) : Prop where
  pieces : x.assembly.held = true → x.assembly.pieces = .empty
  acknowledged : ∀ a ∈ as, a.Acknowledges → x.assembly.held = true
  order : as.Pairwise fun a b => a.Acknowledges → b.Acknowledges

theorem told_empty : Told empty [] :=
  ⟨fun h => absurd h Bool.false_ne_true, fun _ ha => absurd ha (by simp), .nil⟩

theorem Told.step (h : Told x as) (hs : Step x bs y) : Told y (as ++ bs) := by
  cases hs with
  | rests hheld hbs =>
    refine ⟨h.pieces, fun _ _ _ => hheld, List.pairwise_append.mpr ⟨h.order, ?_, ?_⟩⟩
    · exact List.pairwise_of_forall_mem_list fun _ _ b hb _ => (hbs b hb).1
    · exact fun _ _ b hb _ => (hbs b hb).1
  | waits hopen hy _ hbs =>
    -- an open packet was never acknowledged, so that it may be asked for
    have hnot : ∀ a ∈ as, ¬ a.Acknowledges := fun a ha hack =>
      absurd ((h.acknowledged a ha hack).symm.trans hopen) (by decide)
    refine ⟨fun hheld => absurd (hheld.symm.trans hy) (by decide), fun a ha hack => ?_,
      List.pairwise_append.mpr ⟨h.order, ?_, fun a ha _ _ hack => absurd hack (hnot a ha)⟩⟩
    · rcases List.mem_append.mp ha with ha | ha
      · exact absurd hack (hnot a ha)
      · exact absurd hack (hbs a ha)
    · exact List.pairwise_of_forall_mem_list fun a ha _ _ hack => absurd hack (hbs a ha)
  | rebuilt _ n p q =>
    refine ⟨fun _ => rfl, fun _ _ _ => rfl,
      List.pairwise_append.mpr ⟨h.order, List.pairwise_singleton _ _, fun _ _ b hb _ => ?_⟩⟩
    rw [List.mem_singleton.mp hb]
    exact trivial

theorem Told.course (h : Told x as) (hc : Course x bs y) : Told y (as ++ bs) := by
  induction hc with
  | refl => rwa [List.append_nil]
  | step _ hs ih =>
    rw [← List.append_assoc]
    exact ih.step hs

/-- a held packet stays as it is -/
theorem Course.eq_of_held (hc : Course x as y) (h : x.assembly.held = true) : y = x := by
  induction hc with
  | refl => rfl
  | step _ hs ih =>
    subst ih
    cases hs with
    | rests _ _ => rfl
    | waits hopen _ _ _ => exact absurd (h.symm.trans hopen) (by decide)
    | rebuilt hopen _ _ _ => exact absurd (h.symm.trans hopen) (by decide)

end Slot

/-! ## What was rebuilt of a profile -/

/-- the numbers of the packets that were rebuilt -/
def ReceivedProfile.numbers (p : ReceivedProfile) : List UInt16 :=
  (if p.info.isSome then [0] else []) ++ p.data.keys

namespace ProfileAssembly

variable {u : Supply} {s s' s'' : ProfileAssembly} {n : UInt16} {as bs : List Answer}

theorem stored_iff (h : Stocked u s) {q : Packet} :
    (s.slot n).stored = some q ↔ s.Stores n q := by
  rw [slot, ReceivedProfile.packet?]
  cases q with
  | info p =>
    rw [Stores]
    split
    · next hn => simp [hn]
    · next hn => simp [hn]
  | data d =>
    rw [Stores]
    split
    · next hn =>
      refine ⟨fun hq => absurd hq (by simp), fun hq => ?_⟩
      subst hn
      exact absurd (h.stores 0 (.data d) hq) Supply.Yields.not_data_zero
    · simp

theorem isSome_stored (h : Stocked u s) (n : UInt16) :
    (s.slot n).stored.isSome = (s.packet n).held := by
  rw [Bool.eq_iff_iff, h.held_iff n, Option.isSome_iff_exists]
  simp only [stored_iff h]

theorem contains_zero (h : Stocked u s) : s.received.data.contains 0 = false := by
  rw [Bool.eq_false_iff]
  intro hc
  obtain ⟨d, hd⟩ := (Keyed.contains_iff _ _).mp hc
  exact Supply.Yields.not_data_zero (h.stores 0 (.data d) hd)

theorem mem_numbers (h : Stocked u s) :
    n ∈ s.received.numbers ↔ (s.slot n).stored.isSome = true := by
  have hzero := contains_zero h
  rw [ReceivedProfile.numbers, List.mem_append, Keyed.mem_keys_iff, slot, ReceivedProfile.packet?]
  by_cases hn : n = 0
  · subst hn
    rw [hzero, if_pos rfl, Option.isSome_map]
    cases s.received.info.isSome <;> simp
  · rw [if_neg hn, Option.isSome_map, Keyed.contains]
    cases s.received.info.isSome <;> simp [hn]

theorem nodup_numbers (h : Stocked u s) : s.received.numbers.Nodup := by
  have hkeys : s.received.data.keys.Nodup := Keyed.nodup_keys _
  have hzero : 0 ∉ s.received.data.keys := by
    rw [Keyed.mem_keys_iff, contains_zero h]
    exact Bool.false_ne_true
  rw [ReceivedProfile.numbers]
  split
  · exact List.nodup_cons.mpr ⟨hzero, hkeys⟩
  · exact hkeys

/-- a packet that has just been rebuilt is one more -/
theorem length_numbers (h : Stocked u s) (h' : Stocked u s') (ht : Touches n s s')
    (hs : (s.slot n).Step as (s'.slot n)) :
    s'.received.numbers.length = s.received.numbers.length + as.countP Answer.isRebuilt := by
  have hsame (hstored : (s'.slot n).stored = (s.slot n).stored)
      (has : ∀ a ∈ as, a.isRebuilt = false) :
      s'.received.numbers.length = s.received.numbers.length + as.countP Answer.isRebuilt := by
    rw [List.countP_eq_zero.mpr fun a ha => by rw [has a ha]; exact Bool.false_ne_true,
      Nat.add_zero]
    refine List.Perm.length_eq ((List.perm_ext_iff_of_nodup (nodup_numbers h')
      (nodup_numbers h)).mpr fun m => ?_)
    rw [mem_numbers h, mem_numbers h']
    by_cases hm : m = n
    · rw [hm, hstored]
    · rw [ht.slot_ne m hm]
  generalize hy : s'.slot n = y at hs
  cases hs with
  | rests _ has => exact hsame (by rw [hy]) fun a ha => (has a ha).2
  | waits _ _ hstored has =>
    refine hsame (by rw [hy, hstored]) fun a ha => ?_
    cases a with
    | rebuilt _ => exact absurd trivial (has _ ha)
    | stillHeld _ => rfl
    | wantsBurst _ _ => rfl
    | wantsAll _ => rfl
  | rebuilt hopen m p q =>
    have hnew : n ∉ s.received.numbers := by
      rw [mem_numbers h, isSome_stored h]
      exact Bool.eq_false_iff.mp hopen
    show _ = (n :: s.received.numbers).length
    refine List.Perm.length_eq ((List.perm_ext_iff_of_nodup (nodup_numbers h')
      (List.nodup_cons.mpr ⟨hnew, nodup_numbers h⟩)).mpr fun m => ?_)
    rw [List.mem_cons, mem_numbers h, mem_numbers h']
    by_cases hm : m = n
    · rw [hm, hy]
      simp
    · rw [ht.slot_ne m hm]
      simp [hm]

/-- each packet takes its own course in what is said, and those that were rebuilt are counted -/
structure Goes (s : ProfileAssembly) (as : List Answer) (s' : ProfileAssembly) : Prop where
  course : ∀ n, (s.slot n).Course (as.filter (·.packet = n)) (s'.slot n)
  numbers : s'.received.numbers.length =
    s.received.numbers.length + as.countP Answer.isRebuilt

theorem Goes.refl (s : ProfileAssembly) : Goes s [] s := ⟨fun _ => .refl, rfl⟩

theorem Goes.trans (h : Goes s as s') (h' : Goes s' bs s'') : Goes s (as ++ bs) s'' := by
  refine ⟨fun n => ?_, by rw [h'.numbers, h.numbers, List.countP_append, Nat.add_assoc]⟩
  rw [List.filter_append]
  exact (h.course n).trans (h'.course n)

theorem goes_step (h : Stocked u s) (h' : Stocked u s') (ht : Touches n s s')
    (hs : (s.slot n).Step as (s'.slot n)) (has : ∀ a ∈ as, a.packet = n) : Goes s as s' := by
  refine ⟨fun m => ?_, length_numbers h h' ht hs⟩
  by_cases hm : m = n
  · subst hm
    rw [List.filter_eq_self.mpr fun a ha => decide_eq_true (has a ha)]
    exact Slot.Course.refl.step hs
  · rw [ht.slot_ne m hm, List.filter_eq_nil_iff.mpr fun a ha => by
      rw [has a ha, decide_eq_true_iff]
      exact Ne.symm hm]
    exact .refl

theorem goes_apply (h : Stocked u s) (hi : Idle s) {k : BurstKind} (hk : u.Has n k) :
    Goes s (s.apply n k).2 (s.apply n k).1 := by
  obtain ⟨htouches, hslot⟩ := apply_slot hi n k
  obtain ⟨hslot, hanswers⟩ := Prod.mk.inj hslot
  refine goes_step h (stocked_apply h hi hk).1 htouches ?_ fun a ha => ?_
  · rw [hslot, hanswers]
    exact Slot.step_receive _ _ _
  · rw [hanswers] at ha
    exact Slot.packet_of_receive ha

theorem goes_pursue (h : Stocked u s) (hi : Idle s) (n : UInt16) :
    Goes s (s.pursue n).2 (s.pursue n).1 := by
  have hstocked := (stocked_pursue h hi n).1
  cases hheld : (s.packet n).held with
  | true =>
    rw [pursue_of_not_hasAll (Or.inr hheld), request_of_held hheld]
    exact .refl s
  | false =>
    cases hall : (s.packet n).hasAll with
    | true =>
      rw [pursue_of_hasAll hi hheld hall] at hstocked ⊢
      obtain ⟨htouches, hslot⟩ := rebuild_slot s n
      have hafter := congrArg Prod.fst hslot
      have hanswer := congrArg Prod.snd hslot
      dsimp only at hafter hanswer
      refine goes_step h hstocked htouches ?_ fun a ha => ?_
      · dsimp only
        rw [hafter, hanswer]
        exact Slot.step_rebuild (x := s.slot n) hheld hheld
      · rw [List.mem_singleton.mp ha, hanswer, Slot.rebuild]
        split <;> rfl
    | false =>
      have hrequest : s.request n = (s.packet n).request n := request_of_open hheld
      rw [pursue_of_not_hasAll (Or.inl ⟨hheld, hall⟩), hrequest]
      exact goes_step h h (.refl n s)
        (.waits hheld hheld rfl fun a ha => (Slot.asks_of_mem_request ha).2)
        fun a ha => (Slot.asks_of_mem_request ha).1

theorem goes_pursueAll (h : Stocked u s) (hi : Idle s) (ns : List UInt16) :
    Goes s (s.pursueAll ns).2 (s.pursueAll ns).1 := by
  induction ns generalizing s with
  | nil => exact .refl s
  | cons n ns ih =>
    obtain ⟨h', hi'⟩ := stocked_pursue h hi n
    exact (goes_pursue h hi n).trans (ih h' hi')

theorem goes_requestOutstanding (h : Stocked u s) (hi : Idle s) :
    Goes s s.requestOutstanding.2 s.requestOutstanding.1 := by
  rw [requestOutstanding_eq]
  exact goes_pursueAll h hi _

end ProfileAssembly

/-! ## A receiver -/

/-- what is said about a profile, of one of its packets -/
theorem filter_lines (key : PacketKey) (profile : ProfileKey) (as : List Answer) :
    (Receiver.lines profile as).filter (·.names key) =
      if profile = key.toProfileKey then
        Receiver.lines profile (as.filter (·.packet = key.packet)) else [] := by
  have hnames (a : Answer) : Outgoing.names key (.control (a.line profile)) =
      decide (profile = key.toProfileKey ∧ a.packet = key.packet) := by
    rw [Outgoing.names, Answer.key_line]
    obtain ⟨k, n⟩ := key
    simp
  rw [Receiver.lines, List.filter_map]
  simp only [Function.comp_def, hnames]
  split
  · next hprofile => simp [hprofile, Receiver.lines]
  · next hprofile => simp [hprofile]

namespace Receiver
open ProfileAssembly

variable {r r' : Receiver} {ls : List Outgoing}

/-- what becomes of a packet when its profile or another one is updated -/
theorem slot_update {profile : ProfileKey} {x : ProfileAssembly × List Answer}
    (hx : (r.assembly profile).Goes x.2 x.1) (key : PacketKey) :
    ∃ as, (r.slot key).Course as ((r.update profile x).slot key) ∧
      (lines profile x.2).filter (·.names key) = lines key.toProfileKey as := by
  rw [filter_lines]
  by_cases hprofile : profile = key.toProfileKey
  · subst hprofile
    refine ⟨_, ?_, if_pos rfl⟩
    rw [slot, slot, assembly_update]
    exact hx.course key.packet
  · refine ⟨[], ?_, if_neg hprofile⟩
    rw [slot, slot, assembly_update_ne r (Ne.symm hprofile)]
    exact .refl

/-- what becomes of a packet and what is said about it is a course of its own -/
theorem Course.slot (hc : Course r ls r') (h : r.Sound) (key : PacketKey) :
    ∃ as, (r.slot key).Course as (r'.slot key) ∧
      ls.filter (·.names key) = lines key.toProfileKey as := by
  have hadd {ls ls' : List Outgoing} {r' r'' : Receiver}
      (hold : ∃ as, (r.slot key).Course as (r'.slot key) ∧
        ls.filter (·.names key) = lines key.toProfileKey as)
      (hnew : ∃ as, (r'.slot key).Course as (r''.slot key) ∧
        ls'.filter (·.names key) = lines key.toProfileKey as) :
      ∃ as, (r.slot key).Course as (r''.slot key) ∧
        (ls ++ ls').filter (·.names key) = lines key.toProfileKey as := by
    obtain ⟨as, hcourse, hlines⟩ := hold
    obtain ⟨bs, hcourse', hlines'⟩ := hnew
    refine ⟨as ++ bs, hcourse.trans hcourse', ?_⟩
    rw [List.filter_append, hlines, hlines', lines, lines, lines, List.map_append]
  induction hc with
  | refl => exact ⟨[], .refl, rfl⟩
  | burst hc profile n hk hroom ih =>
    obtain ⟨hstocked, hidle⟩ := hc.sound h profile
    exact hadd ih (slot_update (goes_apply hstocked hidle hk) key)
  | request hc profile ih =>
    obtain ⟨hstocked, hidle⟩ := hc.sound h profile
    exact hadd ih (slot_update (ProfileAssembly.goes_requestOutstanding hstocked hidle) key)
  | aside _ beats _ hprofiles _ hbeats ih =>
    refine hadd ih ⟨[], ?_, List.filter_eq_nil_iff.mpr fun o ho => ?_⟩
    · rw [Receiver.slot, Receiver.slot, assembly_of_profiles hprofiles]
      exact .refl
    · rw [hbeats o ho]
      exact Bool.false_ne_true

/-! ## Packets that were rebuilt -/

/-- the packets that were rebuilt, of all profiles -/
def heldKeys (r : Receiver) : List PacketKey :=
  r.profiles.entries.flatMap fun e => e.2.received.numbers.map fun n => ⟨e.1, n⟩

theorem mem_heldKeys (h : r.Sound) {key : PacketKey} :
    key ∈ r.heldKeys ↔ (r.slot key).stored.isSome = true := by
  rw [slot, ← mem_numbers (h key.toProfileKey).1, heldKeys, List.mem_flatMap]
  constructor
  · rintro ⟨⟨profile, s⟩, he, hkey⟩
    obtain ⟨n, hn, rfl⟩ := List.mem_map.mp hkey
    rwa [assembly_of_get? ((r.profiles.mem_entries_iff profile s).mp he)]
  · intro hkey
    cases hs : r.profiles.get? key.toProfileKey with
    | none =>
      rw [assembly, hs] at hkey
      exact absurd hkey (by simp [ReceivedProfile.numbers, ProfileAssembly.new, Keyed.keys,
        Keyed.empty])
    | some s =>
      rw [assembly_of_get? hs] at hkey
      exact ⟨(key.toProfileKey, s), (r.profiles.mem_entries_iff _ s).mpr hs,
        List.mem_map.mpr ⟨key.packet, hkey, rfl⟩⟩

theorem nodup_heldKeys (h : r.Sound) : r.heldKeys.Nodup := by
  refine List.nodup_flatMap.mpr ⟨?_, r.profiles.ascending.imp fun {e e'} hlt => ?_⟩
  · rintro ⟨profile, s⟩ he
    have hs : r.assembly profile = s :=
      assembly_of_get? ((r.profiles.mem_entries_iff profile s).mp he)
    refine (hs ▸ nodup_numbers (h profile).1).map fun n m hnm => ?_
    exact congrArg PacketKey.packet hnm
  · intro key hkey hkey'
    obtain ⟨n, -, rfl⟩ := List.mem_map.mp hkey
    obtain ⟨m, -, hm⟩ := List.mem_map.mp hkey'
    have hprofile : e'.1 = e.1 := congrArg PacketKey.toProfileKey hm
    rw [hprofile] at hlt
    exact Nat.lt_irrefl _ hlt

theorem length_heldKeys (r : Receiver) :
    r.heldKeys.length = (r.profiles.values.map fun s => s.received.numbers.length).sum := by
  rw [heldKeys, List.length_flatMap, Keyed.values, List.map_map]
  simp only [List.length_map, Function.comp_def]

theorem length_heldKeys_update {profile : ProfileKey} {x : ProfileAssembly × List Answer}
    (hx : (r.assembly profile).Goes x.2 x.1) :
    (r.update profile x).heldKeys.length = r.heldKeys.length + x.2.countP Answer.isRebuilt := by
  have hold : ((r.profiles.get? profile).map fun s => s.received.numbers.length).getD 0 =
      (r.assembly profile).received.numbers.length := by
    rw [assembly]
    cases r.profiles.get? profile <;> rfl
  have hsum := Keyed.sum_insert r.profiles (fun s => s.received.numbers.length) profile x.1
  rw [hold, hx.numbers, ← length_heldKeys] at hsum
  rw [length_heldKeys]
  show ((r.profiles.insert profile x.1).values.map _).sum = _
  omega

/-- each packet that was rebuilt is counted once -/
theorem Course.rebuilt_heldKeys (hc : Course r ls r') (h : r.Sound)
    (hr : r.rebuilt = r.heldKeys.length) : r'.rebuilt = r'.heldKeys.length := by
  induction hc with
  | refl => exact hr
  | burst hc profile n hk _ ih =>
    obtain ⟨hstocked, hidle⟩ := hc.sound h profile
    rw [length_heldKeys_update (goes_apply hstocked hidle hk), ← ih]
    rfl
  | request hc profile ih =>
    obtain ⟨hstocked, hidle⟩ := hc.sound h profile
    rw [length_heldKeys_update (ProfileAssembly.goes_requestOutstanding hstocked hidle), ← ih]
    rfl
  | aside _ _ _ hprofiles hrebuilt _ ih =>
    rw [hrebuilt, ih, heldKeys, heldKeys, hprofiles]

/-! ## Runs -/

/-- what a packet is like after a run, and what was said about it -/
theorem told_run (config : ReceiverConfig) (start : Nat) (acts : List Act) (key : PacketKey) :
    ∃ as, (((new config start).run acts).slot key).Told as ∧
      ((new config start).queued acts).filter (·.names key) = lines key.toProfileKey as := by
  obtain ⟨as, hcourse, hlines⟩ := (course_run _ acts).slot (sound_new config start) key
  rw [slot_new] at hcourse
  exact ⟨as, Slot.told_empty.course hcourse, hlines⟩

/-- no line that asks for the packet stands behind one that acknowledges it -/
theorem pairwise_lines {x : Slot} {as : List Answer} (h : x.Told as) (profile : ProfileKey) :
    (lines profile as).Pairwise fun o o' => ∀ key i j, o = .control ⟨.received, key, i⟩ →
      o' ≠ .control ⟨.resend, key, j⟩ := by
  refine List.pairwise_map.mpr (h.order.imp fun {a b} hab key i j ha hb => ?_)
  have hack : a.Acknowledges := (Answer.kind_line profile a).mp (by rw [Outgoing.control.inj ha])
  have hkind := (Answer.kind_line profile b).mpr (hab hack)
  rw [Outgoing.control.inj hb] at hkind
  exact absurd hkind (by simp)

/-- an acknowledged packet is held, is counted once, and stays as it is; it is never asked for again -/
theorem acknowledged_for_good (config : ReceiverConfig) (start : Nat) (acts : List Act)
    (key : PacketKey) :
    let r := (new config start).run acts
    let said := (new config start).queued acts
    r.rebuilt = r.heldKeys.length ∧
    r.heldKeys.count key = (if (r.slot key).stored.isSome then 1 else 0) ∧
    (∀ i, .control ⟨.received, key, i⟩ ∈ said → (r.slot key).stored.isSome = true ∧
      ∀ more, (r.run more).slot key = r.slot key ∧ ((r.run more).slot key).assembly.buffered = 0) ∧
    said.Pairwise fun o o' => ∀ i j, o = .control ⟨.received, key, i⟩ →
      o' ≠ .control ⟨.resend, key, j⟩ := by
  intro r said
  have hsound : r.Sound := sound_run config start acts
  obtain ⟨as, htold, hlines⟩ := told_run config start acts key
  have hnames (line : ControlLine) (hline : line.key = key) :
      (Outgoing.control line).names key = true := decide_eq_true hline
  refine ⟨?_, ?_, fun i hack => ?_, ?_⟩
  · exact (course_run _ acts).rebuilt_heldKeys (sound_new config start) rfl
  · rw [(nodup_heldKeys hsound).count]
    exact if_congr (mem_heldKeys hsound) rfl rfl
  · have hmem : .control ⟨.received, key, i⟩ ∈ lines key.toProfileKey as := by
      rw [← hlines]
      exact List.mem_filter.mpr ⟨hack, hnames _ rfl⟩
    obtain ⟨a, ha, he⟩ := List.mem_map.mp hmem
    have hacknowledges : a.Acknowledges :=
      (Answer.kind_line key.toProfileKey a).mp (by rw [Outgoing.control.inj he])
    have hheld := htold.acknowledged a ha hacknowledges
    refine ⟨(isSome_stored (hsound _).1 key.packet).trans hheld, fun more => ?_⟩
    obtain ⟨bs, hcourse, -⟩ := (course_run r more).slot hsound key
    have hsame := hcourse.eq_of_held hheld
    refine ⟨hsame, ?_⟩
    rw [hsame, PacketAssembly.buffered, htold.pieces hheld]
    rfl
  · have horder := pairwise_lines htold key.toProfileKey
    rw [← hlines] at horder
    refine (List.pairwise_filter.mp horder).imp fun {o o'} himp i j ho ho' => ?_
    subst ho ho'
    exact himp (hnames _ rfl) (hnames _ rfl) key i j rfl rfl

/-- the bursts of an Info Packet, the last one twice, then another number of pieces, and the timers -/
def emptyInfoActs : List Act :=
  let key : PacketKey := ⟨⟨770, 12345⟩, 0⟩
  [.burst ⟨key, .announce 1⟩ trivial 5,
    .burst ⟨key, .data 1 (InfoPacket.render ⟨770, 12345, .empty⟩)⟩ (by decide) 6,
    .burst ⟨key, .terminal⟩ trivial 7, .burst ⟨key, .terminal⟩ trivial 8,
    .burst ⟨key, .announce 2⟩ trivial 9, .timers 20000]

theorem empty_info_acknowledged :
    let key : PacketKey := ⟨⟨770, 12345⟩, 0⟩
    let r := (new .standard 0).run emptyInfoActs
    (new .standard 0).queued emptyInfoActs =
      [.control (.received key), .control (.received key), .heartbeat] ∧
    (r.slot key).stored = some (.info ⟨770, 12345, .empty⟩) ∧ r.rebuilt = 1 ∧
    ∀ more, (r.run more).slot key = r.slot key := by
  intro key r
  have hsaid : (new .standard 0).queued emptyInfoActs =
      [.control (.received key), .control (.received key), .heartbeat] := by decide +kernel
  obtain ⟨-, -, hfinal, -⟩ := acknowledged_for_good .standard 0 emptyInfoActs key
  obtain ⟨-, hmore⟩ := hfinal ControlLine.wholePacket (by rw [hsaid]; exact List.mem_cons_self)
  exact ⟨hsaid, by decide +kernel, by decide +kernel, fun more => (hmore more).1⟩

end Receiver

end Shoreline
