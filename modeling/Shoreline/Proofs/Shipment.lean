import Shoreline.Receiver.Assembly
import Shoreline.Sender
import Shoreline.Proofs.BurstWire
import Shoreline.Proofs.Package

/-!
# Shipments

What a sender has to hand over, without the machine that hands it over: the framed packets of one
profile, each with the packet that its bytes decode to.  Everything that is proved of transfers rests
on the laws of `Shipment` alone; `exists_shipment` says that every sender that was built for a package
has one.

* `Framed.of_frame`    framing keeps the bytes and respects its limits;
* `Framed.kind?_cases` the bursts of a framed packet;
* `Framed.fits`        they fit into their fields;
* `Shipment.fits`      every burst of a shipment fits into its fields.
-/

namespace Shoreline

/-! ## Framed packets -/

namespace Framed

theorem mem_burstSizes {size : Nat} (h : size ∈ burstSizes) : 128 ≤ size ∧ size ≤ 8192 := by
  revert h
  revert size
  decide

/-- the permitted sizes are the powers of two between the smallest and the largest -/
theorem mem_burstSizes_iff {size : Nat} :
    size ∈ burstSizes ↔ size.isPowerOfTwo ∧ 128 ≤ size ∧ size ≤ 8192 := by
  constructor
  · intro h
    obtain ⟨k, -, hk⟩ := List.mem_map.mp h
    exact ⟨⟨k, hk.symm⟩, mem_burstSizes h⟩
  · rintro ⟨⟨k, rfl⟩, hmin, hmax⟩
    have hlow : 7 ≤ k := (Nat.pow_le_pow_iff_right (by decide : 1 < 2)).mp hmin
    have hhigh : k ≤ 13 := (Nat.pow_le_pow_iff_right (by decide : 1 < 2)).mp hmax
    exact List.mem_map.mpr ⟨k, List.mem_range'_1.mpr ⟨hlow, by omega⟩, rfl⟩

theorem frame_eq_ok_iff {key : PacketKey} {packet : Bytes} {size : Nat} {f : Framed} :
    frame key packet size = .ok f ↔ size ∈ burstSizes ∧
      needed packet.length size ≤ mostBursts ∧ f = ⟨key, chunks size packet⟩ := by
  rw [frame]
  split
  · next hsize => exact ⟨fun h => absurd h (by simp), fun h => absurd h.1 hsize⟩
  next hsize =>
  split
  · next hcount =>
    exact ⟨fun h => absurd h (by simp), fun h => absurd h.2.1 (Nat.not_le.mpr hcount)⟩
  · next hcount =>
    refine ⟨fun h => ?_, fun h => by rw [h.2.2]⟩
    exact ⟨Decidable.not_not.mp hsize, Nat.le_of_not_lt hcount, (Except.ok.inj h).symm⟩

theorem of_frame {key : PacketKey} {packet : Bytes} {size : Nat} {f : Framed}
    (h : frame key packet size = .ok f) :
    f.key = key ∧ f.packet = packet ∧ f.count ≤ mostBursts ∧
      ∀ b ∈ f.pieces, 1 ≤ b.length ∧ b.length ≤ size := by
  obtain ⟨hsize, hcount, rfl⟩ := frame_eq_ok_iff.mp h
  have hpos : 0 < size := by
    have := mem_burstSizes hsize
    omega
  refine ⟨rfl, chunks_flatten size hpos packet, ?_, fun b hb => ⟨?_, ?_⟩⟩
  · show (chunks size packet).length ≤ mostBursts
    rw [length_chunks hpos]
    exact hcount
  · exact List.length_pos_iff.mpr (ne_nil_of_mem_chunks hpos packet b hb)
  · exact length_le_of_mem_chunks size hpos packet b hb

theorem kind?_cases {f : Framed} {i : Nat} {k : BurstKind} (h : f.kind? i = some k) :
    (i = 0 ∧ k = .announce (UInt16.ofNat f.count)) ∨
    (∃ j b, i = j + 1 ∧ f.pieces[j]? = some b ∧ k = .data (UInt16.ofNat (j + 1)) b) ∨
    (i = f.count + 1 ∧ k = .terminal) := by
  cases i with
  | zero => exact Or.inl ⟨rfl, (Option.some.inj h).symm⟩
  | succ j =>
    rw [kind?] at h
    split at h
    · next b hb => exact Or.inr (Or.inl ⟨j, b, rfl, hb, (Option.some.inj h).symm⟩)
    · split at h
      · next hj =>
        exact Or.inr (Or.inr ⟨by rw [hj], (Option.some.inj h).symm⟩)
      · exact absurd h (by simp)

/-- the index of a burst of this kind -/
def indexOf (f : Framed) : BurstKind → Nat
  | .announce _ => 0
  | .data i _ => i.toNat
  | .terminal => f.terminalIndex

theorem eq_indexOf {f : Framed} (hcount : f.count ≤ mostBursts) {i : Nat} {k : BurstKind}
    (h : f.kind? i = some k) : i = f.indexOf k := by
  rcases kind?_cases h with ⟨hi, rfl⟩ | ⟨j, b, hi, hb, rfl⟩ | ⟨hi, rfl⟩
  · exact hi
  · have hj : j < f.pieces.length := (List.getElem?_eq_some_iff.mp hb).1
    have hmost : f.pieces.length ≤ 998 := hcount
    rw [hi, indexOf, UInt16.toNat_ofNat']
    omega
  · exact hi

theorem kind?_zero (f : Framed) : f.kind? 0 = some (.announce (UInt16.ofNat f.count)) := rfl

theorem kind?_data {f : Framed} {j : Nat} {b : Bytes} (h : f.pieces[j]? = some b) :
    f.kind? (j + 1) = some (.data (UInt16.ofNat (j + 1)) b) := by
  rw [kind?, h]

theorem kind?_terminal (f : Framed) : f.kind? (f.count + 1) = some .terminal := by
  rw [kind?, show f.pieces[f.count]? = none from List.getElem?_eq_none (Nat.le_refl _)]
  exact if_pos rfl

theorem exists_kind? {f : Framed} {i : Nat} (h : i < f.count + 2) : ∃ k, f.kind? i = some k := by
  cases i with
  | zero => exact ⟨_, kind?_zero f⟩
  | succ j =>
    by_cases hj : j < f.pieces.length
    · exact ⟨_, kind?_data (List.getElem?_eq_getElem hj)⟩
    · obtain rfl : j = f.count := Nat.le_antisymm (by omega) (Nat.le_of_not_lt hj)
      exact ⟨_, kind?_terminal f⟩

theorem render?_eq {f : Framed} {i : Nat} {k : BurstKind} (hk : f.kind? i = some k) :
    f.render? i = some (Burst.wire ⟨f.key, k⟩) := by
  rw [render?, burst?, hk]
  rfl

/-- the bursts of a framed packet fit into their fields, if the numbers of their key do -/
theorem fits {f : Framed} {limit : Nat} (hcount : f.count ≤ mostBursts)
    (hpiece : ∀ b ∈ f.pieces, 1 ≤ b.length ∧ b.length ≤ limit) (hlimit : limit ≤ Burst.mostPayload)
    {stated : PacketKey} (hserial : stated.serial.toNat ≤ 9999)
    (hpacket : stated.packet.toNat ≤ 9999) {i : Nat} {k : BurstKind} (hk : f.kind? i = some k) :
    Burst.Fits ⟨stated, k⟩ ∧ (Burst.payload ⟨stated, k⟩).length ≤ limit := by
  have hcount : f.pieces.length ≤ 998 := hcount
  have hmost : limit ≤ 8192 := hlimit
  rcases kind?_cases hk with ⟨-, rfl⟩ | ⟨j, b, -, hb, rfl⟩ | ⟨-, rfl⟩
  · refine ⟨⟨hserial, hpacket, ?_⟩, Nat.zero_le _⟩
    show (UInt16.ofNat f.pieces.length).toNat ≤ 9999
    rw [UInt16.toNat_ofNat']
    omega
  · obtain ⟨hj, -⟩ := List.getElem?_eq_some_iff.mp hb
    obtain ⟨hpos, hle⟩ := hpiece b (List.mem_of_getElem? hb)
    have hindex : (UInt16.ofNat (j + 1)).toNat = j + 1 := by
      rw [UInt16.toNat_ofNat']
      omega
    refine ⟨⟨hserial, hpacket, ?_⟩, hle⟩
    show 1 ≤ (UInt16.ofNat (j + 1)).toNat ∧ (UInt16.ofNat (j + 1)).toNat ≤ 999 ∧
      1 ≤ b.length ∧ b.length ≤ 9999
    rw [hindex]
    omega
  · exact ⟨⟨hserial, hpacket, trivial⟩, Nat.zero_le _⟩

end Framed

/-! ## Shipments -/

/-- a framed packet and what its bytes decode to -/
structure Parcel where
  framed : Framed
  content : Packet

/-- a parcel that travels as packet `n` of a profile in pieces of at most `limit` bytes -/
structure Parcel.Sound (key : ProfileKey) (limit n : Nat) (p : Parcel) : Prop where
  key_eq : p.framed.key = { key with packet := UInt16.ofNat n }
  decode_eq : Packet.decode p.framed.packet = .ok p.content
  content_key : p.content.key = p.framed.key
  count_le : p.framed.count ≤ mostBursts
  piece : ∀ b ∈ p.framed.pieces, 1 ≤ b.length ∧ b.length ≤ limit

theorem Parcel.Sound.fits {key : ProfileKey} {limit n : Nat} {p : Parcel} (h : p.Sound key limit n)
    (hlimit : limit ≤ Burst.mostPayload) {stated : PacketKey}
    (hserial : stated.serial.toNat ≤ 9999) (hpacket : stated.packet.toNat ≤ 9999) {i : Nat}
    {k : BurstKind} (hk : p.framed.kind? i = some k) :
    Burst.Fits ⟨stated, k⟩ ∧ (Burst.payload ⟨stated, k⟩).length ≤ limit :=
  Framed.fits h.count_le h.piece hlimit hserial hpacket hk

/-- the packets of one profile, framed -/
structure Shipment where
  key : ProfileKey
  info : InfoPacket
  /-- the most bytes of a piece -/
  limit : Nat
  /-- packets 0, 1, … -/
  parcels : List Parcel
  serial_le : key.serial.toNat ≤ 9999
  limit_le : limit ≤ Burst.mostPayload
  length_eq : parcels.length = info.definition.total + 1
  length_le : parcels.length ≤ 10000
  sound : ∀ (n : Nat) p, parcels[n]? = some p → p.Sound key limit n
  info_eq : ∀ p, parcels[0]? = some p → p.content = .info info

namespace Shipment

/-- packet `n` of the shipment has a burst of this kind -/
def Has (s : Shipment) (n : UInt16) (k : BurstKind) : Prop :=
  ∃ p i, s.parcels[n.toNat]? = some p ∧ p.framed.kind? i = some k

theorem toNat_lt {s : Shipment} {n : Nat} {p : Parcel} (h : s.parcels[n]? = some p) :
    n < 10000 ∧ (UInt16.ofNat n).toNat = n := by
  obtain ⟨hlt, -⟩ := List.getElem?_eq_some_iff.mp h
  have := s.length_le
  rw [UInt16.toNat_ofNat']
  omega

theorem key_of_parcel {s : Shipment} {n : UInt16} {p : Parcel}
    (h : s.parcels[n.toNat]? = some p) : p.framed.key = ⟨s.key, n⟩ := by
  rw [(s.sound _ p h).key_eq, UInt16.ofNat_toNat]

theorem fits {s : Shipment} {n : UInt16} {k : BurstKind} (h : s.Has n k) :
    Burst.Fits ⟨⟨s.key, n⟩, k⟩ ∧ (Burst.payload ⟨⟨s.key, n⟩, k⟩).length ≤ s.limit := by
  obtain ⟨p, i, hp, hk⟩ := h
  have hn := (toNat_lt hp).1
  exact (s.sound _ _ hp).fits s.limit_le s.serial_le (by show n.toNat ≤ 9999; omega) hk

end Shipment

/-! ## The shipment of a package -/

/-- the framed packet with what its bytes decode to, if they do -/
def Framed.parcel (otherwise : Packet) (f : Framed) : Parcel :=
  ⟨f, match Packet.decode f.packet with
    | .ok p => p
    | .error _ => otherwise⟩

theorem Framed.content_parcel {f : Framed} (otherwise : Packet) {p : Packet}
    (h : Packet.decode f.packet = .ok p) : (f.parcel otherwise).content = p := by
  rw [parcel, h]

/-- packet `n` of the package as a sender frames it: the Info Packet, or a Data Packet with its payload
rounded and its header completed -/
def Package.Holds (pkg : Package) (n : Nat) (q : Packet) : Prop :=
  match n with
  | 0 => q = .info pkg.info
  | n + 1 => ∃ (o : DataPacket) (header : DataHeader), pkg.data[n]? = some o ∧
      header = { o.header with
        stages := pkg.stages
        compressedSize := header.compressedSize
        encodedSize := header.encodedSize } ∧
      q = .data ⟨header, Body.rounded (.ofSensor o.header.sensor) pkg.stages.noise o.payload⟩

theorem Sender.of_new [Deflate.Encoder] {pkg : Package} {config : SenderConfig} {now : Nat}
    {s : Sender} (h : Sender.new pkg config now = .ok s) :
    ∃ (info : Framed) (data : List Framed),
      Framed.frame ⟨⟨pkg.info.serial, pkg.info.profile⟩, 0⟩ pkg.info.render pkg.burstSize =
        .ok info ∧
      pkg.data.length = data.length ∧
      (∀ (n : Nat) f, data[n]? = some f → ∃ o packet, pkg.data[n]? = some o ∧
        o.encode pkg.stages = .ok packet ∧
        Framed.frame ⟨⟨pkg.info.serial, pkg.info.profile⟩, o.header.packet⟩ packet
          pkg.burstSize = .ok f) ∧
      s = ⟨config, ⟨pkg.info.serial, pkg.info.profile⟩, (info :: data).map .new, .new, now, now,
        0, 0, 0, 0⟩ := by
  obtain ⟨info, hinfo, h⟩ := bind_eq_ok h
  obtain ⟨data, hdata, h⟩ := bind_eq_ok h
  obtain ⟨hlen, hget⟩ := mapM_eq_ok hdata
  refine ⟨info, data, hinfo, hlen.symm, fun n f hf => ?_, (Except.ok.inj h).symm⟩
  obtain ⟨o, ho, hok⟩ := hget n f hf
  obtain ⟨packet, hpacket, hframe⟩ := bind_eq_ok hok
  exact ⟨o, packet, ho, hpacket, hframe⟩

theorem decode_of_new [Deflate.Encoder] {pkg : Package} (hpkg : pkg.Packaged) {info : Framed}
    {data : List Framed}
    (hinfo : Framed.frame ⟨⟨pkg.info.serial, pkg.info.profile⟩, 0⟩ pkg.info.render
      pkg.burstSize = .ok info)
    (hdata : ∀ (n : Nat) f, data[n]? = some f → ∃ o packet, pkg.data[n]? = some o ∧
      o.encode pkg.stages = .ok packet ∧
      Framed.frame ⟨⟨pkg.info.serial, pkg.info.profile⟩, o.header.packet⟩ packet
        pkg.burstSize = .ok f)
    (n : Nat) (f : Framed) (hf : (info :: data)[n]? = some f) :
    ∃ q, Packet.decode f.packet = .ok q ∧ pkg.Holds n q ∧ q.key = f.key ∧
      f.key = ⟨⟨pkg.info.serial, pkg.info.profile⟩, UInt16.ofNat n⟩ ∧ f.count ≤ mostBursts ∧
      ∀ b ∈ f.pieces, 1 ≤ b.length ∧ b.length ≤ pkg.burstSize := by
  cases n with
  | zero =>
    obtain rfl := Option.some.inj hf
    obtain ⟨hkey, hpacket, hcount, hpieces⟩ := Framed.of_frame hinfo
    refine ⟨.info pkg.info, ?_, rfl, hkey.symm, hkey, hcount, hpieces⟩
    rw [hpacket]
    exact Packet.decode_render pkg.info hpkg.fits
  | succ n =>
    obtain ⟨o, packet, ho, hencode, hframe⟩ := hdata n f hf
    obtain ⟨hkey, hpacket, hcount, hpieces⟩ := Framed.of_frame hframe
    have hmem := List.mem_of_getElem? ho
    obtain ⟨header, hheader, -, hdecode⟩ :=
      Packet.decode_encode (hpkg.wellFormed o hmem) hpkg.bits hencode
    obtain ⟨hserial, hprofile⟩ := hpkg.serial o hmem
    refine ⟨_, by rw [hpacket, hdecode], ⟨o, header, ho, hheader, rfl⟩, ?_, ?_, hcount, hpieces⟩
    · rw [hkey, Packet.key, hheader, hserial, hprofile]
    · rw [hkey, hpkg.numbered n o ho]

def Shipment.sender (S : Shipment) (config : SenderConfig) (now : Nat) : Sender :=
  ⟨config, S.key, S.parcels.map fun p => .new p.framed, .new, now, now, 0, 0, 0, 0⟩

theorem Shipment.packet_sender {S : Shipment} {config : SenderConfig} {now n : Nat}
    {x : Outbound} : (S.sender config now).packets[n]? = some x ↔
      ∃ q, S.parcels[n]? = some q ∧ .new q.framed = x := by
  show (S.parcels.map _)[n]? = _ ↔ _
  rw [List.getElem?_map, Option.map_eq_some_iff]

/-- the parcels of a package, as a sender is made of them -/
theorem Sender.parcels_of_new [Deflate.Encoder] {p : Profile} {i : Instructions} {pkg : Package}
    {config : SenderConfig} {now : Nat} {s : Sender} (hpkg : p.package i = .ok pkg)
    (h : Sender.new pkg config now = .ok s) :
    ∃ parcels : List Parcel, parcels.length = p.definition.total + 1 ∧ parcels.length ≤ 10000 ∧
      s = ⟨config, ⟨p.serial, p.profile⟩, parcels.map fun q => .new q.framed, .new, now, now,
        0, 0, 0, 0⟩ ∧
      ∀ (n : Nat) q, parcels[n]? = some q →
        q.Sound ⟨p.serial, p.profile⟩ pkg.burstSize n ∧ pkg.Holds n q.content := by
  obtain ⟨hpkginfo, -, -, hpackaged⟩ := Profile.package_eq_ok hpkg
  obtain ⟨info, data, hinfo, hlen, hdata, hs⟩ := Sender.of_new h
  have hdecode := decode_of_new hpackaged hinfo hdata
  have hserial : pkg.info.serial = p.serial := by rw [hpkginfo]
  have hprofile : pkg.info.profile = p.profile := by rw [hpkginfo]
  have htotal := hpackaged.total
  have hmost : pkg.data.length ≤ 9999 := hpackaged.length_le
  rw [hserial, hprofile] at hdecode hs
  rw [hpkginfo] at htotal
  refine ⟨(info :: data).map (Framed.parcel (.info pkg.info)), ?_, ?_, ?_, fun n q hq => ?_⟩
  · rw [List.length_map, List.length_cons, ← hlen, htotal]
  · rw [List.length_map, List.length_cons, ← hlen]
    omega
  · rw [hs, List.map_map]
    rfl
  · rw [List.getElem?_map, Option.map_eq_some_iff] at hq
    obtain ⟨f, hf, rfl⟩ := hq
    obtain ⟨q, hq, hholds, hqkey, hkey, hcount, hpieces⟩ := hdecode n f hf
    have hcontent := Framed.content_parcel (.info pkg.info) hq
    exact ⟨⟨hkey, hq.trans (congrArg Except.ok hcontent.symm), hcontent ▸ hqkey, hcount, hpieces⟩,
      hcontent ▸ hholds⟩

theorem exists_shipment [Deflate.Encoder] {p : Profile} {i : Instructions} {pkg : Package}
    {config : SenderConfig} {now : Nat} {s : Sender} (hserial : p.serial.toNat ≤ 9999)
    (hpkg : p.package i = .ok pkg) (h : Sender.new pkg config now = .ok s) :
    ∃ S : Shipment, S.key = ⟨p.serial, p.profile⟩ ∧
      S.info = ⟨p.serial, p.profile, p.definition⟩ ∧ pkg.info = S.info ∧
      S.limit = pkg.burstSize ∧ s = S.sender config now ∧
      ∀ (n : Nat) q, S.parcels[n]? = some q → pkg.Holds n q.content := by
  obtain ⟨hpkginfo, -, -, hpackaged⟩ := Profile.package_eq_ok hpkg
  obtain ⟨parcels, hlen, hle, hs, hall⟩ := Sender.parcels_of_new hpkg h
  exact ⟨{
    key := ⟨p.serial, p.profile⟩
    info := pkg.info
    limit := pkg.burstSize
    parcels
    serial_le := hserial
    limit_le := (Framed.mem_burstSizes hpackaged.burstSize).2
    length_eq := by rw [hpkginfo, hlen]
    length_le := hle
    sound := fun n q hq => (hall n q hq).1
    info_eq := fun q hq => (hall 0 q hq).2 }, rfl, hpkginfo, rfl, rfl, hs,
    fun n q hq => (hall n q hq).2⟩

end Shoreline
