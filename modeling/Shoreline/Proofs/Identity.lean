import Shoreline.Proofs.Agreement
import Shoreline.Proofs.Running

/-!
# What names a profile on the way

A burst states the serial of its profiler with four digits, its packet with a word.  So a serial
above 9999 is read from the burst as another one (`ProfileKey.shown`): the sender does not answer to
it, profiles whose serials have the same last four digits meet in one assembly, and a packet that is
put together from its own bursts states another key than they do and is refused.  Up to 9999 none of
this happens, and neither packaging nor framing asks (`identity_kept_iff`).

* `wire_shown`         a burst under the key and one under the shown key are the same bytes;
* `wire_of_handsOut`   whatever is done with a sender, it hands out the bursts of its packets;
* `Parcel.Sound.parse` what is read of them.
-/

namespace Shoreline

/-! ## Four digits of a serial -/

namespace ProfileKey

/-- the key with what four digits leave of the serial -/
def shown (k : ProfileKey) : ProfileKey := { k with serial := UInt16.ofNat (k.serial.toNat % 10000) }

theorem toNat_shown (k : ProfileKey) : k.shown.serial.toNat = k.serial.toNat % 10000 := by
  rw [shown, UInt16.toNat_ofNat']
  omega

theorem shown_eq_iff {k k' : ProfileKey} :
    k.shown = k'.shown ↔
      k.serial.toNat % 10000 = k'.serial.toNat % 10000 ∧ k.profile = k'.profile := by
  rw [← toNat_shown, ← toNat_shown, UInt16.toNat_inj]
  obtain ⟨serial, profile⟩ := k
  obtain ⟨serial', profile'⟩ := k'
  exact ProfileKey.mk.injEq _ _ _ _ ▸ Iff.rfl

theorem shown_eq_self_iff {k : ProfileKey} : k.shown = k ↔ k.serial.toNat ≤ 9999 := by
  constructor
  · intro h
    have hmod := k.toNat_shown
    rw [h] at hmod
    omega
  · intro h
    have hmod : k.serial.toNat % 10000 = k.serial.toNat := Nat.mod_eq_of_lt (by omega)
    rw [shown, hmod, UInt16.ofNat_toNat]

end ProfileKey

theorem Burst.wire_shown (k : ProfileKey) (n : UInt16) (kind : BurstKind) :
    wire ⟨⟨k.shown, n⟩, kind⟩ = wire ⟨⟨k, n⟩, kind⟩ := by
  have hserial : decimal 4 k.shown.serial.toNat = decimal 4 k.serial.toNat := by
    rw [k.toNat_shown]
    exact decimal_mod 4 _
  have hheader : header ⟨⟨k.shown, n⟩, kind⟩ = header ⟨⟨k, n⟩, kind⟩ := by
    rw [header, header, keyField, keyField]
    dsimp only
    rw [hserial]
    rfl
  rw [wire, wire, checksum, checksum, hheader]
  rfl

/-- a burst of a parcel is read as one of the shown key -/
theorem Parcel.Sound.parse {key : ProfileKey} {limit n : Nat} {q : Parcel} (h : q.Sound key limit n)
    (hlimit : limit ≤ Burst.mostPayload) (hn : n < 10000) {m : Nat} (hm : limit ≤ m) {i : Nat}
    {k : BurstKind} (hk : q.framed.kind? i = some k) :
    Burst.parse m (Burst.wire ⟨q.framed.key, k⟩) =
      .ok (some (⟨⟨key.shown, UInt16.ofNat n⟩, k⟩, (Burst.wire ⟨q.framed.key, k⟩).length)) := by
  have hserial : key.shown.serial.toNat ≤ 9999 := by
    rw [key.toNat_shown]
    omega
  have hpacket : (UInt16.ofNat n).toNat ≤ 9999 := by
    rw [UInt16.toNat_ofNat']
    omega
  obtain ⟨hfits, hpay⟩ : Burst.Fits ⟨⟨key.shown, UInt16.ofNat n⟩, k⟩ ∧ _ :=
    h.fits hlimit hserial hpacket hk
  rw [h.key_eq, ← Burst.wire_shown]
  exact Burst.parse_whole _ m hfits (Nat.le_trans hpay hm)

/-! ## Senders at work -/

namespace Sender
open Outbound

/-- the sender hands out these bytes at some time -/
def HandsOut (s : Sender) (w : Bytes) : Prop :=
  ∃ s' e, s.Reaches s' ∧ s'.emit?.1 = some e ∧ e.wire = w

/-- what the sender hands out at some time can be read as this burst -/
def ReadAs (s : Sender) (m : Nat) (b : Burst) : Prop :=
  ∃ w, s.HandsOut w ∧ Burst.parse m w = .ok (some (b, w.length))

section
variable {fs : List Framed} {s : Sender}

theorem wire_of_handsOut (h : Each (Tables fs) s.packets) {w : Bytes} (hw : s.HandsOut w) :
    ∃ (n : Nat) (f : Framed) (i : Nat) (k : BurstKind), fs[n]? = some f ∧ f.kind? i = some k ∧
      w = Burst.wire ⟨f.key, k⟩ := by
  obtain ⟨s', e, hr, he, rfl⟩ := hw
  have ht := tables_of_reaches h hr
  obtain ⟨n, x, i, k, -, -, hx, -, -, hk, hwire, -⟩ :=
    emit?_some (Prod.ext he rfl) (exists_tabled ht)
  obtain ⟨f, hf, hfx⟩ := ht n x hx
  rw [hfx.framed_eq] at hk hwire
  exact ⟨n, f, i, k, hf, hk, hwire⟩

/-- a sender that has sent nothing has something to send -/
theorem exists_handsOut {f : Framed} (h : .new f ∈ s.packets)
    (ht : ∀ x ∈ s.packets, ∃ f, Tabled f x) : ∃ w, s.HandsOut w := by
  match he : s.emit? with
  | (none, s₁) =>
    obtain ⟨-, -, -, hall⟩ := emit?_none he ht
    have hsent := BurstTable.allSent_iff.mp (hall _ h) 0
    exact absurd (BurstTable.unsent_new.mpr (Nat.succ_pos _)) hsent
  | (some e, s₁) => exact ⟨e.wire, s, e, .refl, by rw [he], rfl⟩

end

end Sender

/-! ## A packet put together -/

/-- the pieces of a parcel are taken for its packet exactly under the key that the packet states -/
theorem Parcel.Sound.rebuild_iff {key : ProfileKey} {limit n : Nat} {q : Parcel}
    (h : q.Sound key limit n) {s : ProfileAssembly}
    (hbytes : (s.packet (UInt16.ofNat n)).bytes = q.framed.packet) :
    (s.rebuild (UInt16.ofNat n)).2 = .rebuilt (UInt16.ofNat n) ↔ s.received.key = key := by
  have hkey : q.content.key = ⟨key, UInt16.ofNat n⟩ := h.content_key.trans h.key_eq
  have hdecoded : s.decoded? (UInt16.ofNat n) =
      if (⟨key, UInt16.ofNat n⟩ : PacketKey) = ⟨s.received.key, UInt16.ofNat n⟩ then
        some q.content
      else none := by
    rw [ProfileAssembly.decoded?, hbytes, h.decode_eq]
    dsimp only
    rw [hkey]
  constructor
  · intro ha
    by_contra hne
    rw [if_neg fun he => hne (congrArg PacketKey.toProfileKey he).symm] at hdecoded
    rw [ProfileAssembly.rebuild_of_none _ _ hdecoded] at ha
    exact absurd ha (by simp)
  · rintro rfl
    rw [if_pos rfl] at hdecoded
    rw [ProfileAssembly.rebuild_of_some _ _ hdecoded]

/-! ## The bursts of a profile -/

namespace Sender
open Outbound

/-- the bursts of a package: what each is read as, and what its packet states -/
theorem handsOut_of_new [Deflate.Encoder] {p : Profile} {i : Instructions} {pkg : Package}
    {sc : SenderConfig} {t : Nat} {s : Sender} (hpkg : p.package i = .ok pkg)
    (hs : Sender.new pkg sc t = .ok s) {m : Nat} (hm : i.burstSize ≤ m) :
    s.key = ⟨p.serial, p.profile⟩ ∧ (∃ w, s.HandsOut w) ∧
      (∀ (n : Nat) x, s.packets[n]? = some x → ∃ q : Parcel, q.framed = x.framed ∧
        q.Sound s.key i.burstSize n) ∧
      ∀ w, s.HandsOut w → ∃ (n : Nat) (x : Outbound) (j : Nat) (k : BurstKind),
        s.packets[n]? = some x ∧ x.framed.kind? j = some k ∧ w = Burst.wire ⟨x.framed.key, k⟩ ∧
        Burst.parse m w = .ok (some (⟨⟨s.key.shown, UInt16.ofNat n⟩, k⟩, w.length)) := by
  obtain ⟨-, -, hsize, hpackaged⟩ := Profile.package_eq_ok hpkg
  obtain ⟨parcels, hlen, hle, rfl, hall⟩ := parcels_of_new hpkg hs
  have hlimit : pkg.burstSize ≤ Burst.mostPayload := (Framed.mem_burstSizes hpackaged.burstSize).2
  have htabled : Each (Tables (parcels.map Parcel.framed)) (parcels.map fun q => .new q.framed) := by
    have := tables_new (parcels.map Parcel.framed)
    rwa [List.map_map] at this
  have hget (n : Nat) (x : Outbound)
      (hx : (parcels.map fun q => Outbound.new q.framed)[n]? = some x) :
      ∃ q, parcels[n]? = some q ∧ Outbound.new q.framed = x := by
    rwa [List.getElem?_map, Option.map_eq_some_iff] at hx
  refine ⟨rfl, ?_, fun n x hx => ?_, fun w hw => ?_⟩
  · obtain ⟨q, hq⟩ : ∃ q, q ∈ parcels :=
      List.exists_mem_of_length_pos (by omega)
    exact exists_handsOut (List.mem_map.mpr ⟨q, hq, rfl⟩) (exists_tabled htabled)
  · obtain ⟨q, hq, rfl⟩ := hget n x hx
    exact ⟨q, rfl, hsize ▸ (hall n q hq).1⟩
  · obtain ⟨n, f, j, k, hf, hk, hwire⟩ := wire_of_handsOut htabled hw
    rw [List.getElem?_map, Option.map_eq_some_iff] at hf
    obtain ⟨q, hq, rfl⟩ := hf
    have hn := (List.getElem?_eq_some_iff.mp hq).1
    refine ⟨n, .new q.framed, j, k, ?_, hk, hwire, ?_⟩
    · show (parcels.map _)[n]? = _
      rw [List.getElem?_map, hq]
      rfl
    · rw [hwire]
      exact (hall n q hq).1.parse hlimit (by omega) (hsize ▸ hm) hk

/-- whatever is read of a profile's bursts is read under its shown key, and something is -/
theorem key_of_readAs [Deflate.Encoder] {p : Profile} {i : Instructions} {pkg : Package}
    {sc : SenderConfig} {t : Nat} {s : Sender} (hpkg : p.package i = .ok pkg)
    (hs : Sender.new pkg sc t = .ok s) {m : Nat} (hm : i.burstSize ≤ m) :
    (∃ b, s.ReadAs m b) ∧ ∀ b, s.ReadAs m b → b.key.toProfileKey = s.key.shown := by
  obtain ⟨-, ⟨w, hw⟩, -, hread⟩ := handsOut_of_new hpkg hs hm
  refine ⟨?_, fun b hb => ?_⟩
  · obtain ⟨n, x, j, k, -, -, -, hp⟩ := hread w hw
    exact ⟨_, w, hw, hp⟩
  · obtain ⟨w, hw, hparse⟩ := hb
    obtain ⟨n, x, j, k, -, -, -, hp⟩ := hread w hw
    rw [hp] at hparse
    rw [← (Prod.mk.inj (Option.some.inj (Except.ok.inj hparse))).1]

/-- a profile keeps its identity on the way exactly when four digits hold its serial -/
theorem identity_kept_iff [Deflate.Encoder] {p p' : Profile} {i i' : Instructions}
    {pkg pkg' : Package} {sc sc' : SenderConfig} {t t' : Nat} {s s' : Sender}
    (hpkg : p.package i = .ok pkg) (hs : Sender.new pkg sc t = .ok s)
    (hpkg' : p'.package i' = .ok pkg') (hs' : Sender.new pkg' sc' t' = .ok s')
    {m : Nat} (hm : i.burstSize ≤ m) (hm' : i'.burstSize ≤ m) :
    -- what is handed out is read as a burst of its packet, under the shown key
    (∀ w, s.HandsOut w → ∃ (n : Nat) (x : Outbound) (j : Nat) (k : BurstKind) (q : Packet),
      s.packets[n]? = some x ∧ x.framed.render? j = some w ∧
        Packet.decode x.framed.packet = .ok q ∧ q.key = ⟨s.key, UInt16.ofNat n⟩ ∧
        Burst.parse m w = .ok (some (⟨⟨s.key.shown, UInt16.ofNat n⟩, k⟩, w.length))) ∧
    -- which is the key that the sender answers to when the serial has four digits
    ((∀ b, s.ReadAs m b → b.key.toProfileKey = s.key) ↔ p.serial.toNat ≤ 9999) ∧
    -- bursts of two profiles meet in one assembly when the shown keys are the same
    ((∃ b b', s.ReadAs m b ∧ s'.ReadAs m b' ∧ b.key.toProfileKey = b'.key.toProfileKey) ↔
      p.serial.toNat % 10000 = p'.serial.toNat % 10000 ∧ p.profile = p'.profile) ∧
    -- a packet put together from its bursts is taken for theirs when the serial has four digits
    ∀ (n : Nat) (x : Outbound) (a : ProfileAssembly), s.packets[n]? = some x →
      a.received.key = s.key.shown → (a.packet (UInt16.ofNat n)).bytes = x.framed.packet →
      ((a.rebuild (UInt16.ofNat n)).2 = .rebuilt (UInt16.ofNat n) ↔ p.serial.toNat ≤ 9999) := by
  obtain ⟨hkey, -, hpackets, hread⟩ := handsOut_of_new hpkg hs hm
  obtain ⟨hkey', -, -, -⟩ := handsOut_of_new hpkg' hs' hm'
  obtain ⟨⟨b, hb⟩, hreads⟩ := key_of_readAs hpkg hs hm
  obtain ⟨⟨b', hb'⟩, hreads'⟩ := key_of_readAs hpkg' hs' hm'
  have hown : s.key.shown = s.key ↔ p.serial.toNat ≤ 9999 := by
    rw [ProfileKey.shown_eq_self_iff, hkey]
  have hboth : s.key.shown = s'.key.shown ↔
      p.serial.toNat % 10000 = p'.serial.toNat % 10000 ∧ p.profile = p'.profile := by
    rw [hkey, hkey']
    exact ProfileKey.shown_eq_iff
  refine ⟨fun w hw => ?_, ?_, ?_, fun n x a hx ha hbytes => ?_⟩
  · obtain ⟨n, x, j, k, hx, hk, hwire, hp⟩ := hread w hw
    obtain ⟨q, hq, hsound⟩ := hpackets n x hx
    refine ⟨n, x, j, k, q.content, hx, ?_, hq ▸ hsound.decode_eq,
      hsound.content_key.trans hsound.key_eq, hp⟩
    rw [Framed.render?, Framed.burst?, hk, hwire]
    rfl
  · rw [← hown]
    exact ⟨fun h => (hreads b hb).symm.trans (h b hb), fun h b hb => (hreads b hb).trans h⟩
  · rw [← hboth]
    constructor
    · rintro ⟨c, c', hc, hc', he⟩
      rw [← hreads c hc, ← hreads' c' hc', he]
    · exact fun h => ⟨b, b', hb, hb', by rw [hreads b hb, hreads' b' hb', h]⟩
  · obtain ⟨q, hq, hsound⟩ := hpackets n x hx
    rw [← hown, ← ha]
    exact hsound.rebuild_iff (hbytes.trans (congrArg Framed.packet hq.symm))

/-- nothing was acquired -/
def emptyCast (serial : UInt16) : Profile :=
  ⟨serial, 12345, .of fun s => .ofText s.name, .of fun _ => []⟩

/-- profiles 770 and 10770 meet, and only the first is known by its bursts -/
theorem serials_meet :
    ∃ pkg pkg' s s', (emptyCast 770).package (.identity 128) = .ok pkg ∧
      Sender.new pkg .standard 0 = .ok s ∧
      (emptyCast 10770).package (.identity 128) = .ok pkg' ∧
      Sender.new pkg' .standard 0 = .ok s' ∧
      (∀ b, s.ReadAs 8192 b → b.key.toProfileKey = s.key) ∧
      (∃ b, s'.ReadAs 8192 b ∧ b.key.toProfileKey ≠ s'.key) ∧
      ∃ b b', s.ReadAs 8192 b ∧ s'.ReadAs 8192 b' ∧
        b.key.toProfileKey = b'.key.toProfileKey := by
  have heval (serial : UInt16) (h : serial = 770 ∨ serial = 10770) :
      Exchange.passes (emptyCast serial) (.identity 128) (fun _ _ => true) = true := by
    rcases h with rfl | rfl <;> decide +kernel
  obtain ⟨pkg, s, hpkg, hs, -⟩ := Exchange.exists_of_passes (heval 770 (Or.inl rfl))
  obtain ⟨pkg', s', hpkg', hs', -⟩ := Exchange.exists_of_passes (heval 10770 (Or.inr rfl))
  have hm : (Instructions.identity 128).burstSize ≤ 8192 := by decide
  obtain ⟨-, hown, hmeet, -⟩ := identity_kept_iff hpkg hs hpkg' hs' hm hm
  obtain ⟨-, hwide, -⟩ := identity_kept_iff hpkg' hs' hpkg hs hm hm
  refine ⟨pkg, pkg', s, s', hpkg, hs, hpkg', hs', hown.mpr (by decide), ?_,
    hmeet.mpr (by decide)⟩
  have hnot : ¬ ∀ b, s'.ReadAs 8192 b → b.key.toProfileKey = s'.key :=
    mt hwide.mp (by decide)
  obtain ⟨b, hb⟩ := not_forall.mp hnot
  exact ⟨b, Classical.not_imp.mp hb⟩

/-- the keys that these bursts are read under -/
def keysRead (ws : List Bytes) : List (Option PacketKey) :=
  ws.map fun w => (Burst.parse 8192 w).toOption.bind fun x => x.map (·.1.key)

/-- three bursts, all of them delivered, and the answer -/
def promptActs : List Exchange.Act :=
  List.replicate 3 .transmit ++ [.deliver 0 0, .deliver 1 0, .deliver 2 0, .respond, .hear 0 0]

set_option maxRecDepth 2000 in
/-- with nothing lost, the bursts of serial 10770 are read as those of 770, the packet put together
from them is refused, and the sender does not answer to the request -/
theorem wide_serial_refused :
    ∃ pkg s, (emptyCast 10770).package (.identity 128) = .ok pkg ∧
      Sender.new pkg .standard 0 = .ok s ∧
      (let e := (Exchange.start s (.new .standard 0) 0).run promptActs
       s.key = ⟨10770, 12345⟩ ∧ keysRead e.bursts = List.replicate 3 (some ⟨⟨770, 12345⟩, 0⟩) ∧
        e.lines = [ControlLine.wire (.resendPacket ⟨⟨770, 12345⟩, 0⟩)] ∧
        e.sender.emit?.1 = none ∧ e.sender.isComplete = false) := by
  have heval : Exchange.passes (emptyCast 10770) (.identity 128) (fun _ s =>
      let e := (Exchange.start s (.new .standard 0) 0).run promptActs
      decide (s.key = ⟨10770, 12345⟩ ∧ keysRead e.bursts = List.replicate 3 (some ⟨⟨770, 12345⟩, 0⟩) ∧
        e.lines = [ControlLine.wire (.resendPacket ⟨⟨770, 12345⟩, 0⟩)] ∧
        e.sender.emit?.1 = none ∧ e.sender.isComplete = false)) = true := by decide +kernel
  obtain ⟨pkg, s, hpkg, hs, heval⟩ := Exchange.exists_of_passes heval
  exact ⟨pkg, s, hpkg, hs, of_decide_eq_true heval⟩

end Sender

end Shoreline
