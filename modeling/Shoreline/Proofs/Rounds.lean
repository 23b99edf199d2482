import Shoreline.Proofs.Requests

/-!
# A round of requests

When the link has been quiet, the receiver goes once through the packets that are outstanding.  It
draws up the list of them before it asks for the first, and rebuilds some on the way; but with no
packet ready, to rebuild one touches no other.  So the round does to each packet what it would do to
it alone (`Slot.pursue`), and to no other packet anything.

* `Slot.pursued`            what may become of one packet, and what is said about it;
* `pursue_slot`             in an assembly it is this that becomes of it;
* `mem_outstanding_iff`     which packets of a profile are asked for;
* `pursueAll_slots`         asking for several, one after the other;
* `asksOnly_requestOutstanding`   and for those of all profiles.
-/

namespace Shoreline

/-! ## One packet -/

/-- what a round makes of an open packet, and the lines that it says about it -/
inductive Slot.Pursued (x : Slot) (key : PacketKey) : Slot → List ControlLine → Prop where
  /-- nothing was announced, and all of it is asked for -/
  | unannounced (h : x.assembly.announced = none) : Pursued x key x [.resendPacket key]
  /-- pieces are absent, and each is asked for -/
  | absent (count : UInt16) (absent : List UInt16) (h : x.assembly.announced = some count)
      (hne : absent ≠ []) (hasc : absent.Pairwise fun i j => i.toNat < j.toNat)
      (hmem : ∀ i : UInt16, i ∈ absent ↔
        1 ≤ i.toNat ∧ i ≤ count ∧ x.assembly.pieces.contains i = false) :
      Pursued x key x (absent.map (.resendBurst key))
  /-- only the end was not seen, and the pieces decode -/
  | rebuilt (count : UInt16) (q : Packet) (h : x.assembly.announced = some count)
      (hall : ∀ i : UInt16, 1 ≤ i.toNat → i ≤ count → x.assembly.pieces.contains i = true)
      (hq : x.assembly.decoded? key = some q) :
      Pursued x key ⟨some x.assembly.hold, some q⟩ [.received key]
  /-- only the end was not seen, and the pieces do not decode -/
  | restarted (count : UInt16) (h : x.assembly.announced = some count)
      (hall : ∀ i : UInt16, 1 ≤ i.toNat → i ≤ count → x.assembly.pieces.contains i = true)
      (hq : x.assembly.decoded? key = none) :
      Pursued x key ⟨some x.assembly.restart, x.stored⟩ [.resendPacket key]

/-- asking for an open packet -/
def Slot.pursue (x : Slot) (key : PacketKey) : Slot × List Answer :=
  if x.assembly.hasAll then ((x.rebuild key x.assembly).1, [(x.rebuild key x.assembly).2])
  else (x, x.assembly.request key.packet)

theorem pairwise_numbersTo (n : Nat) : (numbersTo n).Pairwise fun i j => i.toNat < j.toNat := by
  rw [numbersTo, List.pairwise_map]
  refine List.Pairwise.imp_of_mem ?_ List.pairwise_lt_range'
  intro i j hi hj hlt
  rw [List.mem_range'_1] at hi hj
  rw [UInt16.toNat_ofNat', UInt16.toNat_ofNat']
  omega

theorem nodup_of_ascending {l : List UInt16} (h : l.Pairwise fun i j => i.toNat < j.toNat) :
    l.Nodup :=
  List.Pairwise.imp (fun hlt he => Nat.ne_of_lt hlt (congrArg UInt16.toNat he)) h

theorem nodup_numbersTo (n : Nat) : (numbersTo n).Nodup := nodup_of_ascending (pairwise_numbersTo n)

/-- the absent pieces of an announced packet -/
theorem PacketAssembly.mem_missing_iff {p : PacketAssembly} {c : UInt16} (h : p.announced = some c)
    {i : UInt16} :
    i ∈ p.missing ↔ 1 ≤ i.toNat ∧ i ≤ c ∧ p.pieces.contains i = false := by
  rw [missing, indices, h, List.mem_filter, Bool.not_eq_true', Option.getD_some, mem_numbersTo,
    UInt16.le_iff_toNat_le, and_assoc]

namespace Slot
variable {x x' : Slot} {key : PacketKey} {said : List ControlLine}

theorem pursued (x : Slot) (key : PacketKey) :
    x.Pursued key (x.pursue key).1 ((x.pursue key).2.map (·.line key.toProfileKey)) := by
  rw [pursue]
  cases hall : x.assembly.hasAll with
  | true =>
    obtain ⟨count, hcount⟩ := PacketAssembly.announced_of_hasAll hall
    have hall := (PacketAssembly.hasAll_iff hcount).mp hall
    rw [if_pos rfl]
    cases hq : x.assembly.decoded? key with
    | some q =>
      rw [rebuild_of_some hq]
      exact .rebuilt count q hcount hall hq
    | none =>
      rw [rebuild_of_none hq]
      exact .restarted count hcount hall hq
  | false =>
    rw [if_neg Bool.false_ne_true, PacketAssembly.request]
    cases hcount : x.assembly.announced with
    | none => exact .unannounced hcount
    | some count =>
      rw [Option.isSome_some, if_pos rfl, List.map_map]
      refine .absent count x.assembly.missing hcount (fun hnil => ?_)
        ((pairwise_numbersTo _).filter _) fun i => PacketAssembly.mem_missing_iff hcount
      refine Bool.false_ne_true (hall.symm.trans ((PacketAssembly.hasAll_iff hcount).mpr ?_))
      intro i h₁ h₂
      refine Bool.eq_true_of_not_eq_false fun hno => ?_
      have hi := (PacketAssembly.mem_missing_iff hcount).mpr ⟨h₁, h₂, hno⟩
      rw [hnil] at hi
      exact absurd hi (by simp)

/-- the lines are about this packet -/
theorem Pursued.key_eq (h : x.Pursued key x' said) {line : ControlLine} (hline : line ∈ said) :
    line.key = key := by
  cases h with
  | unannounced | rebuilt | restarted => rw [List.mem_singleton.mp hline]; rfl
  | absent =>
    obtain ⟨i, -, rfl⟩ := List.mem_map.mp hline
    rfl

/-- nothing is said twice about a packet -/
theorem Pursued.nodup (h : x.Pursued key x' said) : said.Nodup := by
  cases h with
  | unannounced | rebuilt | restarted => exact List.nodup_singleton _
  | absent count absent hcount hne hasc hmem =>
    exact (nodup_of_ascending hasc).map fun i j hij => congrArg ControlLine.burst hij

end Slot

namespace ProfileAssembly
variable {s : ProfileAssembly} {n : UInt16}

theorem pursue_slot (hs : Idle s) (hopen : (s.packet n).held = false) :
    Touches n s (s.pursue n).1 ∧
      ((s.pursue n).1.slot n, (s.pursue n).2) = (s.slot n).pursue ⟨s.received.key, n⟩ := by
  have hassembly : (s.slot n).assembly = s.packet n := rfl
  rw [Slot.pursue, hassembly]
  cases hall : (s.packet n).hasAll with
  | true =>
    rw [if_pos rfl, pursue_of_hasAll hs hopen hall]
    obtain ⟨htouches, hslot⟩ := rebuild_slot s n
    rw [← hslot]
    exact ⟨htouches, rfl⟩
  | false =>
    rw [if_neg Bool.false_ne_true, pursue_of_not_hasAll (Or.inl ⟨hopen, hall⟩),
      request_of_open hopen]
    exact ⟨.refl n s, rfl⟩

/-! ## The packets of a profile -/

/-- a round asks for packet `n`: it is not held, and it is the Info Packet, was seen, or is one of
the Data Packets that the Info Packet counts -/
def Wants (s : ProfileAssembly) (n : UInt16) : Prop :=
  (s.packet n).held = false ∧
    (n = 0 ∨ s.packets.contains n = true ∨
      ∃ info, s.received.info = some info ∧ 1 ≤ n.toNat ∧ n.toNat ≤ info.definition.total)

theorem mem_seen_iff :
    n ∈ (s.packets.filter fun _ p => !p.held).keys ↔
      s.packets.contains n = true ∧ (s.packet n).held = false := by
  rw [Keyed.mem_keys_iff, Keyed.contains, Keyed.get?_filter, packet, Keyed.contains]
  cases s.packets.get? n with
  | none => simp
  | some p => cases hheld : p.held <;> simp [Option.filter, hheld]

theorem mem_missing_iff_info :
    n ∈ s.received.missing ↔
      (∃ info, s.received.info = some info ∧ 1 ≤ n.toNat ∧ n.toNat ≤ info.definition.total) ∧
        s.received.data.contains n = false := by
  rw [ReceivedProfile.missing, ReceivedProfile.expected?, List.mem_filter, mem_numbersTo,
    Bool.not_eq_true']
  cases s.received.info with
  | none =>
    have : ¬ (1 ≤ n.toNat ∧ n.toNat ≤ 0) := by omega
    simpa using fun h h' => absurd ⟨h, Nat.le_of_eq h'⟩ this
  | some info => simp

theorem mem_outstanding_iff {u : Supply} (h : Stocked u s) : n ∈ s.outstanding ↔ s.Wants n := by
  have hnew : s.packets.contains n = false → (s.packet n).held = false := by
    intro hc
    rw [s.packet_of_not_contains n hc]
    rfl
  have hdata : s.received.data.contains n = true → (s.packet n).held = true := by
    intro hc
    obtain ⟨d, hd⟩ := (Keyed.contains_iff _ _).mp hc
    exact (h.held_iff n).mpr ⟨.data d, hd⟩
  have hfirst : (n ∈ if s.packets.contains 0 then [] else [0]) ↔
      n = 0 ∧ s.packets.contains n = false := by
    cases hc : s.packets.contains 0 with
    | true =>
      refine ⟨fun hn => absurd hn (by simp), ?_⟩
      rintro ⟨rfl, hn⟩
      exact absurd (hc.symm.trans hn) (by simp)
    | false =>
      rw [if_neg Bool.false_ne_true, List.mem_singleton]
      exact ⟨fun hn => ⟨hn, hn ▸ hc⟩, And.left⟩
  rw [outstanding, List.mem_append, List.mem_append, hfirst, mem_seen_iff, List.mem_filter,
    mem_missing_iff_info, Bool.not_eq_true', Wants]
  constructor
  · rintro ((⟨hzero, hc⟩ | ⟨hseen, hopen⟩) | ⟨⟨hinfo, -⟩, hc⟩)
    · exact ⟨hnew hc, Or.inl hzero⟩
    · exact ⟨hopen, Or.inr (Or.inl hseen)⟩
    · exact ⟨hnew hc, Or.inr (Or.inr hinfo)⟩
  · rintro ⟨hopen, hwhy⟩
    cases hc : s.packets.contains n with
    | true => exact Or.inl (Or.inr ⟨rfl, hopen⟩)
    | false =>
      rcases hwhy with hzero | hseen | hinfo
      · exact Or.inl (Or.inl ⟨hzero, rfl⟩)
      · exact absurd (hc.symm.trans hseen) Bool.false_ne_true
      · refine Or.inr ⟨⟨hinfo, Bool.eq_false_iff.mpr fun hheld => ?_⟩, rfl⟩
        exact absurd (hopen.symm.trans (hdata hheld)) Bool.false_ne_true

theorem nodup_outstanding (s : ProfileAssembly) : s.outstanding.Nodup := by
  have hseen : ((s.packets.filter fun _ p => !p.held).keys).Nodup := Keyed.nodup_keys _
  have hmissing : s.received.missing.Nodup := (nodup_numbersTo _).filter _
  have hfirst : (if s.packets.contains 0 then [] else [(0 : UInt16)]).Nodup := by
    split
    · exact List.nodup_nil
    · exact List.nodup_singleton 0
  refine List.nodup_append'.mpr
    ⟨List.nodup_append'.mpr ⟨hfirst, hseen, ?_⟩, hmissing.filter _, ?_⟩
  · intro n hn hn'
    split at hn
    · exact absurd hn (by simp)
    · next hc =>
      rw [List.mem_singleton.mp hn] at hn'
      exact hc (mem_seen_iff.mp hn').1
  · intro n hn hn'
    obtain ⟨hn', hc⟩ := List.mem_filter.mp hn'
    obtain ⟨⟨_, -, hpos, -⟩, -⟩ := mem_missing_iff_info.mp hn'
    rcases List.mem_append.mp hn with hn | hn
    · split at hn
      · exact absurd hn (by simp)
      · rw [List.mem_singleton.mp hn] at hpos
        exact absurd hpos (by decide)
    · rw [(mem_seen_iff.mp hn).1] at hc
      exact absurd hc (by simp)

theorem idle_pursue (hs : Idle s) (n : UInt16) : Idle (s.pursue n).1 := by
  rcases pursue_cases hs n with ⟨-, he⟩ | he | ⟨-, he⟩
  · rw [he]
    exact idle_rebuild fun m _ => hs m
  · rwa [he]
  · rwa [he]

/-- asking for several packets does to each what asking for it alone does, and to no other
anything -/
theorem pursueAll_slots (hs : Idle s) {ns : List UInt16} (hns : ns.Nodup)
    (hopen : ∀ n ∈ ns, (s.packet n).held = false) :
    (s.pursueAll ns).2 = ns.flatMap (fun n => ((s.slot n).pursue ⟨s.received.key, n⟩).2) ∧
      (∀ n ∈ ns, (s.pursueAll ns).1.slot n = ((s.slot n).pursue ⟨s.received.key, n⟩).1) ∧
      ∀ n, n ∉ ns → (s.pursueAll ns).1.slot n = s.slot n := by
  induction ns generalizing s with
  | nil => exact ⟨rfl, fun n hn => absurd hn (by simp), fun _ _ => rfl⟩
  | cons n ns ih =>
    obtain ⟨hn, htail⟩ := List.nodup_cons.mp hns
    obtain ⟨htouches, hslot⟩ := pursue_slot hs (hopen n List.mem_cons_self)
    have hne {m : UInt16} (hm : m ∈ ns) : m ≠ n := fun he => hn (he ▸ hm)
    have hopen' : ∀ m ∈ ns, ((s.pursue n).1.packet m).held = false := by
      intro m hm
      have hheld := hopen m (List.mem_cons_of_mem n hm)
      rwa [show s.packet m = (s.slot m).assembly from rfl, ← htouches.slot_ne m (hne hm)] at hheld
    obtain ⟨hsaid, hasked, hothers⟩ := ih (idle_pursue hs n) htail hopen'
    have hsame : ns.flatMap (fun m =>
          (((s.pursue n).1.slot m).pursue ⟨(s.pursue n).1.received.key, m⟩).2) =
        ns.flatMap fun m => ((s.slot m).pursue ⟨s.received.key, m⟩).2 :=
      List.flatMap_congr fun m hm => by rw [htouches.slot_ne m (hne hm), htouches.key]
    refine ⟨?_, fun m hm => ?_, fun m hm => ?_⟩
    · rw [List.flatMap_cons, ← hslot, ← hsame, ← hsaid]
      rfl
    · rw [pursueAll]
      rcases List.mem_cons.mp hm with rfl | hm
      · rw [← hslot]
        exact hothers m hn
      · rw [← htouches.slot_ne m (hne hm), ← htouches.key]
        exact hasked m hm
    · rw [pursueAll]
      rw [List.mem_cons, not_or] at hm
      exact (hothers m hm.2).trans (htouches.slot_ne m hm.1)

end ProfileAssembly

/-! ## All profiles -/

namespace Receiver
open ProfileAssembly

/-- a round asks for the packet with this key: its profile was seen and is not complete -/
def Outstanding (r : Receiver) (key : PacketKey) : Prop :=
  ∃ s, r.profiles.get? key.toProfileKey = some s ∧ s.isComplete = false ∧ s.Wants key.packet

/-- what a round says about a packet -/
def asked (r : Receiver) (key : PacketKey) : List ControlLine :=
  ((r.slot key).pursue key).2.map (·.line key.toProfileKey)

/-- the packets of one profile that a round asks for -/
def wantedOf (e : ProfileKey × ProfileAssembly) : List PacketKey :=
  if e.2.isComplete then [] else e.2.outstanding.map (⟨e.1, ·⟩)

/-- the packets that a round asks for -/
def wanted (r : Receiver) : List PacketKey := r.profiles.entries.flatMap wantedOf

/-- each of these packets was asked for, and nothing else happened -/
structure AsksOnly (keys : List PacketKey) (r r' : Receiver) : Prop where
  outbox : r'.outbox = r.outbox ++ (keys.flatMap r.asked).map .control
  slot_mem : ∀ key ∈ keys, r'.slot key = ((r.slot key).pursue key).1
  slot_not_mem : ∀ key, key ∉ keys → r'.slot key = r.slot key

variable {r r' r'' : Receiver} {keys keys' : List PacketKey}

theorem AsksOnly.refl (r : Receiver) : AsksOnly [] r r :=
  ⟨(List.append_nil _).symm, fun _ h => absurd h (by simp), fun _ _ => rfl⟩

theorem AsksOnly.trans (h : AsksOnly keys r r') (h' : AsksOnly keys' r' r'')
    (hdisjoint : ∀ key ∈ keys', key ∉ keys) : AsksOnly (keys ++ keys') r r'' := by
  have hslot : ∀ key ∈ keys', r'.slot key = r.slot key :=
    fun key hkey => h.slot_not_mem key (hdisjoint key hkey)
  refine ⟨?_, fun key hkey => ?_, fun key hkey => ?_⟩
  · rw [h'.outbox, h.outbox, List.append_assoc, List.flatMap_append, List.map_append]
    congr 3
    exact List.flatMap_congr fun key hkey => by rw [asked, hslot key hkey, asked]
  · by_cases hlate : key ∈ keys'
    · rw [h'.slot_mem key hlate, hslot key hlate]
    · have hkey := (List.mem_append.mp hkey).resolve_right hlate
      rw [h'.slot_not_mem key hlate, h.slot_mem key hkey]
  · rw [List.mem_append, not_or] at hkey
    rw [h'.slot_not_mem key hkey.2, h.slot_not_mem key hkey.1]

theorem mem_wantedOf {profile : ProfileKey} {s : ProfileAssembly} {key : PacketKey} :
    key ∈ wantedOf (profile, s) ↔
      key.toProfileKey = profile ∧ s.isComplete = false ∧ key.packet ∈ s.outstanding := by
  rw [wantedOf]
  dsimp only
  split
  · next hc => exact ⟨fun h => absurd h (by simp), fun h => absurd (hc.symm.trans h.2.1) (by simp)⟩
  · next hc =>
    rw [List.mem_map]
    constructor
    · rintro ⟨n, hn, rfl⟩
      exact ⟨rfl, Bool.eq_false_iff.mpr hc, hn⟩
    · rintro ⟨rfl, -, hn⟩
      exact ⟨key.packet, hn, rfl⟩

/-- what is asked for of one profile -/
theorem asksOnly_requestProfile (hr : r.Sound) {profile : ProfileKey} {s : ProfileAssembly}
    (hs : r.profiles.get? profile = some s) :
    AsksOnly (wantedOf (profile, s)) r (r.requestProfile profile s) ∧
      (r.requestProfile profile s).Sound ∧
      ∀ key, key ≠ profile →
        (r.requestProfile profile s).profiles.get? key = r.profiles.get? key := by
  have hassembly := assembly_of_get? hs
  obtain ⟨hstocked, hidle⟩ := hr profile
  rw [hassembly] at hstocked hidle
  have hkey : s.received.key = profile := hstocked.key_eq
  have hslot (n : UInt16) : r.slot ⟨profile, n⟩ = s.slot n := by rw [slot, hassembly]
  rw [requestProfile]
  split
  · next hc =>
    rw [wantedOf, if_pos hc]
    exact ⟨.refl r, hr, fun _ _ => rfl⟩
  · next hc =>
    refine ⟨?_, hr.update (stocked_requestOutstanding hstocked hidle),
      fun key hne => Keyed.get?_insert_ne _ hne _⟩
    obtain ⟨hsaid, hasked, hothers⟩ := pursueAll_slots hidle (nodup_outstanding s)
      fun n hn => ((mem_outstanding_iff hstocked).mp hn).1
    rw [← requestOutstanding_eq, hkey] at hsaid
    rw [← requestOutstanding_eq, hkey] at hasked
    rw [← requestOutstanding_eq] at hothers
    refine ⟨?_, fun key hmem => ?_, fun key hmem => ?_⟩
    · show r.outbox ++ lines profile s.requestOutstanding.2 = _
      rw [hsaid, wantedOf, if_neg hc, List.flatMap_map, lines, List.map_flatMap, List.map_flatMap]
      congr 1
      exact List.flatMap_congr fun n _ => by rw [asked, hslot, List.map_map]; rfl
    · obtain ⟨hprofile, -, hn⟩ := mem_wantedOf.mp hmem
      obtain ⟨profile', n⟩ := key
      obtain rfl : profile' = profile := hprofile
      rw [slot, assembly_update, hslot]
      exact hasked n hn
    · obtain ⟨profile', n⟩ := key
      by_cases hprofile : profile' = profile
      · subst hprofile
        rw [slot, assembly_update, hslot]
        exact hothers n fun hn => hmem (mem_wantedOf.mpr ⟨rfl, Bool.eq_false_iff.mpr hc, hn⟩)
      · rw [slot, assembly_update_ne r hprofile, slot]

theorem asksOnly_foldl_requestProfile {es : List (ProfileKey × ProfileAssembly)}
    (hes : es.Pairwise fun e e' => e.1 ≠ e'.1) (hr : r.Sound)
    (hget : ∀ e ∈ es, r.profiles.get? e.1 = some e.2) :
    AsksOnly (es.flatMap wantedOf) r (es.foldl (fun r (key, s) => r.requestProfile key s) r) := by
  induction es generalizing r with
  | nil => exact .refl r
  | cons e es ih =>
    obtain ⟨profile, s⟩ := e
    obtain ⟨hne, htail⟩ := List.pairwise_cons.mp hes
    obtain ⟨hfirst, hsound, hrest⟩ :=
      asksOnly_requestProfile hr (hget (profile, s) List.mem_cons_self)
    rw [List.flatMap_cons, List.foldl_cons]
    refine hfirst.trans (ih htail hsound fun e he => ?_) fun key hkey hmem => ?_
    · rw [hrest e.1 (Ne.symm (hne e he))]
      exact hget e (List.mem_cons_of_mem _ he)
    · obtain ⟨⟨profile', s'⟩, he, hkey⟩ := List.mem_flatMap.mp hkey
      exact hne _ he ((mem_wantedOf.mp hmem).1.symm.trans (mem_wantedOf.mp hkey).1)

theorem asksOnly_requestOutstanding (hr : r.Sound) : AsksOnly r.wanted r r.requestOutstanding := by
  refine asksOnly_foldl_requestProfile (r.profiles.ascending.imp fun hlt he => ?_) hr ?_
  · rw [he] at hlt
    exact Nat.lt_irrefl _ hlt
  · rintro ⟨key, s⟩ he
    exact (r.profiles.mem_entries_iff key s).mp he

theorem mem_wanted_iff (hr : r.Sound) {key : PacketKey} : key ∈ r.wanted ↔ r.Outstanding key := by
  have hstocked {s : ProfileAssembly} (hs : r.profiles.get? key.toProfileKey = some s) :
      Stocked (.numbered key.toProfileKey) s := by
    have := (hr key.toProfileKey).1
    rwa [assembly_of_get? hs] at this
  rw [wanted, List.mem_flatMap]
  constructor
  · rintro ⟨⟨profile, s⟩, he, hkey⟩
    obtain ⟨rfl, hc, hn⟩ := mem_wantedOf.mp hkey
    have hs := (r.profiles.mem_entries_iff _ s).mp he
    exact ⟨s, hs, hc, (mem_outstanding_iff (hstocked hs)).mp hn⟩
  · rintro ⟨s, hs, hc, hwants⟩
    exact ⟨(key.toProfileKey, s), (r.profiles.mem_entries_iff _ s).mpr hs,
      mem_wantedOf.mpr ⟨rfl, hc, (mem_outstanding_iff (hstocked hs)).mpr hwants⟩⟩

theorem nodup_wanted (r : Receiver) : r.wanted.Nodup := by
  refine List.nodup_flatMap.mpr ⟨?_, r.profiles.ascending.imp fun {e e'} hlt => ?_⟩
  · rintro ⟨profile, s⟩ -
    rw [wantedOf]
    split
    · exact List.nodup_nil
    · exact (nodup_outstanding s).map fun n m hnm => congrArg PacketKey.packet hnm
  · intro key hkey hkey'
    have hprofile := (mem_wantedOf.mp hkey).1.symm.trans (mem_wantedOf.mp hkey').1
    rw [hprofile] at hlt
    exact Nat.lt_irrefl _ hlt

theorem held_of_wanted (hr : r.Sound) {key : PacketKey} (hkey : key ∈ r.wanted) :
    (r.slot key).assembly.held = false := by
  obtain ⟨s, hs, -, hwants⟩ := (mem_wanted_iff hr).mp hkey
  rw [slot, assembly_of_get? hs]
  exact hwants.1

/-- nothing is said twice in a round -/
theorem nodup_asked (r : Receiver) : (r.wanted.flatMap r.asked).Nodup := by
  refine List.nodup_flatMap.mpr ⟨fun key _ => (Slot.pursued _ key).nodup, ?_⟩
  refine r.nodup_wanted.imp fun {key key'} hne line hline hline' => hne ?_
  exact ((Slot.pursued _ key).key_eq hline).symm.trans ((Slot.pursued _ key').key_eq hline')

end Receiver

end Shoreline
