import Shoreline.Proofs.Exchange

/-!
# Agreement

Whatever the link does to whole bursts and lines, both sides agree.  The receiver holds nothing but
the packets of the package, each as it was packaged; a packet that the sender shows as confirmed is
held; and a transfer that ends in success leaves the profile complete.

* `eq_of_profile?`          the profile of the shipment is the only one;
* `holds_of_confirmed`, `isComplete_of_success`   what the sender may conclude;
* `sender_and_receiver_agree`   all of it, for a package and every run.
-/

namespace Shoreline

/-- packet `n` is there: the Info Packet or a Data Packet -/
def ReceivedProfile.holds (p : ReceivedProfile) (n : UInt16) : Bool :=
  if n = 0 then p.info.isSome else p.data.contains n

/-- every packet of the profile is the packaged one, with its payload rounded as its header says -/
structure ReceivedProfile.Agrees (pkg : Package) (p : ReceivedProfile) : Prop where
  key : p.key = ⟨pkg.info.serial, pkg.info.profile⟩
  info : ∀ i, p.info = some i → i = pkg.info
  data : ∀ n d, p.data.get? n = some d → ∃ o, 1 ≤ n.toNat ∧ pkg.data[n.toNat - 1]? = some o ∧
    d.header = { o.header with
      stages := pkg.stages
      compressedSize := d.header.compressedSize
      encodedSize := d.header.encodedSize } ∧
    d.payload = Body.rounded (.ofSensor d.header.sensor) d.header.stages.noise o.payload

namespace Receiver
open ProfileAssembly

variable {r : Receiver}

theorem eq_of_profile? {u : Supply} (h : Tuned u r) {key : ProfileKey} {p : ReceivedProfile}
    (hp : r.profile? key = some p) : key = u.key ∧ p = (r.assembly u.key).received := by
  obtain ⟨s, hs, rfl⟩ := Option.map_eq_some_iff.mp hp
  have hkey : key = u.key := by
    have hmem := (Keyed.mem_entries_iff _ _ _).mpr hs
    rcases h.solo with hnil | ⟨s', hs'⟩
    · rw [hnil] at hmem
      exact absurd hmem (by simp)
    · rw [hs', List.mem_singleton] at hmem
      exact (Prod.mk.inj hmem).1
  subst hkey
  exact ⟨rfl, congrArg ProfileAssembly.received (assembly_of_get? hs).symm⟩

theorem profile?_of_held {key : ProfileKey} {n : UInt16}
    (h : ((r.assembly key).packet n).held = true) :
    r.profile? key = some (r.assembly key).received := by
  rw [profile?, assembly]
  cases hs : r.profiles.get? key with
  | some s => rfl
  | none =>
    rw [assembly, hs] at h
    exact absurd h Bool.false_ne_true

theorem holds_of_held {S : Shipment} {s : ProfileAssembly} (h : Stocked S.supply s) {n : UInt16}
    (hn : (s.packet n).held = true) : s.received.holds n = true := by
  rw [ReceivedProfile.holds]
  split
  · next h0 =>
    rw [info_of_held h (h0 ▸ hn)]
    rfl
  · next h0 => exact (contains_data_iff h h0).mpr hn

/-- the shipment of a package leaves nothing else behind -/
theorem agrees_of_stocked {S : Shipment} {s : ProfileAssembly} {pkg : Package}
    (h : Stocked S.supply s) (hkey : S.key = ⟨pkg.info.serial, pkg.info.profile⟩)
    (hinfo : S.info = pkg.info)
    (hholds : ∀ (n : Nat) p, S.parcels[n]? = some p → pkg.Holds n p.content) :
    s.received.Agrees pkg where
  key := h.key_eq.trans hkey
  info i hi := (info_eq h hi).trans hinfo
  data n d hd := by
    obtain ⟨p, hp, he⟩ := eq_content_of_stores h (n := n) (q := .data d) hd
    have := hholds _ p hp
    rw [← he] at this
    cases hn : n.toNat with
    | zero =>
      rw [hn] at this
      exact absurd this (by simp [Package.Holds])
    | succ m =>
      rw [hn] at this
      obtain ⟨o, header, ho, hheader, hd⟩ := this
      obtain rfl := Packet.data.inj hd
      have hsensor : header.sensor = o.header.sensor := by rw [hheader]
      have hstages : header.stages = pkg.stages := by rw [hheader]
      refine ⟨o, Nat.succ_pos m, ho, hheader, ?_⟩
      rw [hsensor, hstages]

end Receiver

namespace Exchange
open Receiver ProfileAssembly

variable {S : Shipment} {e : Exchange}

theorem holds_of_confirmed (h : Sound S e) {n : UInt16}
    (hn : e.sender.packetStatus? n.toNat = some .confirmed) :
    ∃ p, e.receiver.profile? S.key = some p ∧ p.holds n = true := by
  obtain ⟨x, hx, hc⟩ := Option.map_eq_some_iff.mp hn
  have hheld := h.confirmed _ x hx hc
  rw [UInt16.ofNat_toNat] at hheld
  exact ⟨_, profile?_of_held hheld, holds_of_held h.tuned.stocked hheld⟩

theorem held_of_success (h : Sound S e) {now : Nat}
    (hs : (e.sender.pollStatus now).1 = some .success) (n : UInt16) {q : Parcel}
    (hq : S.parcels[n.toNat]? = some q) : ((e.receiver.assembly S.key).packet n).held = true := by
  obtain ⟨x, hx⟩ := h.ships.packet _ q hq
  have hc := List.all_eq_true.mp (Sender.isComplete_of_pollStatus hs) x (List.mem_of_getElem? hx)
  have := h.confirmed _ x hx (beq_iff_eq.mp hc)
  rwa [UInt16.ofNat_toNat] at this

theorem isComplete_of_success (h : Sound S e) {now : Nat}
    (hs : (e.sender.pollStatus now).1 = some .success) :
    ∃ p, e.receiver.profile? S.key = some p ∧ p.isComplete = true := by
  have hheld := fun n q hq => held_of_success h hs n (q := q) hq
  obtain ⟨q, hq⟩ := (mem_parcels_iff (S := S) 0).mpr (Nat.zero_le _)
  exact ⟨_, profile?_of_held (hheld 0 q hq), (isComplete_iff h.tuned.stocked).mpr hheld⟩

theorem sender_and_receiver_agree [Deflate.Encoder] {p : Profile} {i : Instructions}
    {pkg : Package} {sc : SenderConfig} {rc : ReceiverConfig} {t₁ : Nat} {s : Sender}
    (hserial : p.serial.toNat ≤ 9999) (hpkg : p.package i = .ok pkg)
    (hs : Sender.new pkg sc t₁ = .ok s) (hsize : pkg.burstSize ≤ rc.mostPayload)
    (t₂ : Nat) (acts : List Act) :
    let e := (start s (.new rc t₂) (max t₁ t₂)).run acts
    (∀ key r, e.receiver.profile? key = some r → key = ⟨p.serial, p.profile⟩ ∧ r.Agrees pkg) ∧
    (∀ n : UInt16, e.sender.packetStatus? n.toNat = some .confirmed →
      ∃ r, e.receiver.profile? ⟨p.serial, p.profile⟩ = some r ∧ r.holds n = true) ∧
    (∀ now, (e.sender.pollStatus now).1 = some .success →
      ∃ r, e.receiver.profile? ⟨p.serial, p.profile⟩ = some r ∧ r.isComplete = true) := by
  obtain ⟨S, hkey, hinfo, hpkginfo, hlimit, hstart, hholds⟩ := exists_shipment hserial hpkg hs
  have hkey' : S.key = ⟨pkg.info.serial, pkg.info.profile⟩ := by
    rw [hpkginfo, hinfo]
    exact hkey
  have hsound : Sound S ((start s (.new rc t₂) (max t₁ t₂)).run acts) := by
    rw [hstart]
    exact sound_run (sound_start S t₁ t₂ (hlimit ▸ hsize)) acts
  rw [← hkey]
  refine ⟨fun key r hr => ?_, fun n hn => holds_of_confirmed hsound hn,
    fun now hnow => isComplete_of_success hsound hnow⟩
  obtain ⟨rfl, rfl⟩ := eq_of_profile? hsound.tuned hr
  exact ⟨rfl, agrees_of_stocked hsound.tuned.stocked hkey' hpkginfo.symm hholds⟩

/-- a cast can be packaged for a new sender, and both pass the check -/
def passes [Deflate.Encoder] (p : Profile) (i : Instructions)
    (check : Package → Sender → Bool) : Bool :=
  match p.package i with
  | .error _ => false
  | .ok pkg => match Sender.new pkg .standard 0 with
    | .error _ => false
    | .ok s => check pkg s

theorem exists_of_passes [Deflate.Encoder] {p : Profile} {i : Instructions}
    {check : Package → Sender → Bool} (h : passes p i check = true) :
    ∃ pkg s, p.package i = .ok pkg ∧ Sender.new pkg .standard 0 = .ok s ∧
      check pkg s = true := by
  unfold passes at h
  split at h
  · exact absurd h Bool.false_ne_true
  · next pkg hpkg =>
    split at h
    · exact absurd h Bool.false_ne_true
    · next s hs => exact ⟨pkg, s, hpkg, hs, h⟩

def smallCast : Profile :=
  ⟨770, 12345, .of fun s => .ofText s.name,
    .of fun s => if s = .mcoms then List.replicate 120 7 else []⟩

/-- two low bits are rounded away, and packets are cut into bursts of 128 bytes -/
def smallPlan : Instructions := ⟨.gray, true, 2, .none, .none, 128⟩

/-- the bursts come in another order and one of them twice, and most lines are lost -/
def lossyActs : List Act :=
  List.replicate 7 .transmit ++
    [.deliver 6 10, .deliver 5 10, .deliver 4 11, .deliver 3 11, .deliver 6 12, .deliver 2 12,
      .deliver 1 13, .deliver 0 13] ++
    List.replicate 5 .respond ++ [.hear 4 14, .hear 2 14]

set_option maxRecDepth 2000 in
/-- a run that loses, repeats and reorders ends in success with the profile complete -/
theorem small_cast_agrees :
    ∃ pkg s, smallCast.package smallPlan = .ok pkg ∧ Sender.new pkg .standard 0 = .ok s ∧
      (let e := (start s (.new .standard 0) (max 0 0)).run lossyActs
       (e.sender.pollStatus 18).1 = some .success ∧
        ∃ r, e.receiver.profile? ⟨770, 12345⟩ = some r ∧ r.isComplete = true ∧ r.Agrees pkg) := by
  have heval : passes smallCast smallPlan (fun _ s =>
      (((start s (.new .standard 0) (max 0 0)).run lossyActs).sender.pollStatus 18).1 ==
        some .success) = true := by decide +kernel
  obtain ⟨pkg, s, hpkg, hs, heval⟩ := exists_of_passes heval
  have hsuccess := beq_iff_eq.mp heval
  have hsize : pkg.burstSize ≤ ReceiverConfig.standard.mostPayload := by
    rw [(Profile.package_eq_ok hpkg).2.2.1]
    decide
  obtain ⟨hagrees, -, hcomplete⟩ := sender_and_receiver_agree (by decide) hpkg hs hsize 0
    lossyActs
  obtain ⟨r, hr, hc⟩ := hcomplete 18 hsuccess
  exact ⟨pkg, s, hpkg, hs, hsuccess, r, hr, hc, (hagrees _ r hr).2⟩

end Exchange

end Shoreline
