import Mathlib.Algebra.Order.Floor.Div
import Shoreline.Proofs.BurstStream
import Shoreline.Proofs.Gathering
import Shoreline.Proofs.InOrder

/-!
# Framing keeps every byte

A packet is framed in bursts of a permitted size if it needs no more of them than can be numbered.
Then there are as many as its bytes need, each full but the last, between the announcing and the
terminal one; and whoever reads their bytes, cut up in any way, gets them back.

* `exists_frame_iff`     what can be framed;
* `count_of_frame`       how many data bursts there are;
* `map_payload`          their payloads are the pieces;
* `exists_piece_of_le`   each of them;
* `feedAll_wires`        the bursts are read back;
* `frame_conserves`      all of it.
-/

namespace Shoreline.Framed

/-- the bursts of the packet in order, from the announcing to the terminal one -/
def bursts (f : Framed) : List Burst := (List.range (f.count + 2)).filterMap f.burst?

variable {f : Framed} {key : PacketKey} {packet : Bytes} {size i : Nat} {k : BurstKind}

theorem burst?_eq (h : f.kind? i = some k) : f.burst? i = some ⟨f.key, k⟩ := by
  rw [burst?, h]
  rfl

theorem render?_eq_none (h : f.count + 1 < i) : f.render? i = none := by
  have hnone : f.kind? i = none := by
    refine Option.eq_none_iff_forall_ne_some.mpr fun k hk => ?_
    exact absurd (le_of_kind? hk) (Nat.not_le.mpr h)
  rw [render?, burst?, hnone]
  rfl

theorem map_burst? (f : Framed) : (List.range (f.count + 2)).map f.burst? = f.bursts.map some := by
  rw [bursts, List.map_filterMap, eq_comm, List.filterMap_eq_map_iff_forall_eq_some]
  intro i hi
  obtain ⟨k, hk⟩ := exists_kind? (List.mem_range.mp hi)
  rw [burst?_eq hk]
  rfl

theorem wires_eq (f : Framed) : f.wires = f.bursts.map Burst.wire := List.map_filterMap.symm

theorem of_mem_bursts {b : Burst} (h : b ∈ f.bursts) :
    ∃ i k, f.kind? i = some k ∧ b = ⟨f.key, k⟩ := by
  obtain ⟨i, -, hi⟩ := List.mem_filterMap.mp h
  obtain ⟨k, hk, rfl⟩ := Option.map_eq_some_iff.mp hi
  exact ⟨i, k, hk, rfl⟩

/-! ## What is framed -/

theorem exists_frame_iff (key : PacketKey) (packet : Bytes) (size : Nat) :
    (∃ f, frame key packet size = .ok f) ↔
      size.isPowerOfTwo ∧ 128 ≤ size ∧ size ≤ 8192 ∧ packet.length ⌈/⌉ size ≤ 998 := by
  have hsize : size ∈ burstSizes ↔ size.isPowerOfTwo ∧ 128 ≤ size ∧ size ≤ 8192 :=
    mem_burstSizes_iff
  constructor
  · rintro ⟨f, h⟩
    obtain ⟨hmem, hcount, -⟩ := frame_eq_ok_iff.mp h
    obtain ⟨hpower, hmin, hmax⟩ := hsize.mp hmem
    exact ⟨hpower, hmin, hmax, hcount⟩
  · rintro ⟨hpower, hmin, hmax, hcount⟩
    exact ⟨_, frame_eq_ok_iff.mpr ⟨hsize.mpr ⟨hpower, hmin, hmax⟩, hcount, rfl⟩⟩

theorem count_of_frame (h : frame key packet size = .ok f) :
    f.count = packet.length ⌈/⌉ size := by
  obtain ⟨hsize, -, rfl⟩ := frame_eq_ok_iff.mp h
  have hmin := (mem_burstSizes hsize).1
  exact length_chunks (by omega) packet

/-- the payloads of the data bursts are the pieces, in order -/
theorem map_payload (f : Framed) :
    (List.range' 1 f.count).map (fun i => (f.burst? i).map Burst.payload) = f.pieces.map some := by
  refine List.ext_getElem (by rw [List.length_map, List.length_map, List.length_range']; rfl) ?_
  intro j _ hj
  rw [List.length_map] at hj
  rw [List.getElem_map, List.getElem_range', List.getElem_map, Nat.one_mul, Nat.add_comm,
    burst?_eq (kind?_data (List.getElem?_eq_getElem hj))]
  rfl

/-- each data burst holds a piece that is not empty, and a full one if another follows -/
theorem exists_piece_of_le (h : frame key packet size = .ok f) (hpos : 1 ≤ i)
    (hle : i ≤ f.count) :
    ∃ index piece, f.burst? i = some ⟨key, .data index piece⟩ ∧ index.toNat = i ∧
      1 ≤ piece.length ∧ piece.length ≤ size ∧ (i < f.count → piece.length = size) := by
  obtain ⟨j, rfl⟩ : ∃ j, i = j + 1 := ⟨i - 1, by omega⟩
  obtain ⟨hkey, -, hcount, -⟩ := of_frame h
  have hmost : f.count ≤ 998 := hcount
  obtain ⟨hsize, -, rfl⟩ := frame_eq_ok_iff.mp h
  have hmin := (mem_burstSizes hsize).1
  have hget : (chunks size packet)[j]? = some (chunks size packet)[j] :=
    List.getElem?_eq_getElem hle
  refine ⟨UInt16.ofNat (j + 1), _, burst?_eq (kind?_data hget), ?_,
    length_of_getElem?_chunks (by omega) hget⟩
  rw [UInt16.toNat_ofNat']
  omega

/-! ## Reading the bursts back -/

theorem feedAll_wires (h : frame key packet size = .ok f) (hserial : key.serial.toNat ≤ 9999)
    (hpacket : key.packet.toNat ≤ 9999) {m : Nat} (hm : size ≤ m) {pieces : List Bytes}
    (hpieces : pieces.flatten = f.wires.flatten) :
    (BurstReader.new m).feedAll pieces = (f.bursts, .new m) := by
  obtain ⟨hkey, -, hcount, hpiece⟩ := of_frame h
  have hsize := (mem_burstSizes (frame_eq_ok_iff.mp h).1).2
  -- a segment is a burst without noise in front of it
  let segments : List BurstReader.Segment := f.bursts.map fun b => ⟨[], b⟩
  have hclear : ∀ s ∈ segments, s.Clear m := by
    intro s hs
    obtain ⟨b, hb, rfl⟩ := List.mem_map.mp hs
    obtain ⟨i, k, hk, rfl⟩ := of_mem_bursts hb
    rw [hkey]
    obtain ⟨hfits, hlen⟩ := fits hcount hpiece hsize hserial hpacket hk
    exact ⟨(by decide : BurstReader.IsNoise []), hfits, Nat.le_trans hlen hm⟩
  have hbytes : f.wires.flatten = segments.flatMap BurstReader.Segment.bytes := by
    rw [wires_eq, List.flatMap_def, List.map_map]
    rfl
  rw [BurstReader.feedAll_eq_feed (BurstReader.feed_nil rfl), hpieces, hbytes,
    BurstReader.feed_segments rfl hclear, List.map_map]
  exact congrArg (·, BurstReader.new m) (List.map_id _)

/-- what can be framed, and what becomes of its bytes -/
theorem frame_conserves (key : PacketKey) (packet : Bytes) (size : Nat) :
    ((∃ f, frame key packet size = .ok f) ↔
      size.isPowerOfTwo ∧ 128 ≤ size ∧ size ≤ 8192 ∧ packet.length ⌈/⌉ size ≤ 998) ∧
    ∀ f, frame key packet size = .ok f →
      f.count = packet.length ⌈/⌉ size ∧
      ((List.range' 1 f.count).map (fun i => (f.burst? i).map Burst.payload) = f.pieces.map some ∧
        f.pieces.flatten = packet) ∧
      (∀ i, 1 ≤ i → i ≤ f.count →
        ∃ index piece, f.burst? i = some ⟨key, .data index piece⟩ ∧ index.toNat = i ∧
          1 ≤ piece.length ∧ piece.length ≤ size ∧ (i < f.count → piece.length = size)) ∧
      (∃ n, f.burst? 0 = some ⟨key, .announce n⟩ ∧ n.toNat = f.count) ∧
      f.burst? (f.count + 1) = some ⟨key, .terminal⟩ ∧
      (∀ i, f.count + 1 < i → f.render? i = none) ∧
      (List.range (f.count + 2)).map f.render? = f.wires.map some ∧
      (key.serial.toNat ≤ 9999 → key.packet.toNat ≤ 9999 → ∀ m, size ≤ m →
        ∀ pieces : List Bytes, pieces.flatten = f.wires.flatten →
          let read := (BurstReader.new m).feedAll pieces
          read.1.map some = (List.range (f.count + 2)).map f.burst? ∧
          read.2.rejected = 0 ∧ read.2.buffer = []) := by
  refine ⟨exists_frame_iff key packet size, fun f h => ?_⟩
  obtain ⟨hkey, hbytes, hcount, -⟩ := of_frame h
  refine ⟨count_of_frame h, ⟨f.map_payload, hbytes⟩, fun i => exists_piece_of_le h,
    ⟨UInt16.ofNat f.count, ?_, PacketAssembly.toNat_count hcount⟩, ?_, fun i => render?_eq_none,
    f.map_render?, ?_⟩
  · rw [burst?_eq f.kind?_zero, hkey]
  · rw [burst?_eq f.kind?_terminal, hkey]
  · intro hserial hpacket m hm pieces hpieces
    dsimp only
    rw [feedAll_wires h hserial hpacket hm hpieces]
    exact ⟨f.map_burst?.symm, rfl, rfl⟩

/-- the longest packet that can be framed in bursts of 128 bytes, less one byte -/
theorem longest_packet_conserved :
    ∃ f, frame ⟨⟨770, 12345⟩, 3⟩ (List.replicate 127743 7) 128 = .ok f ∧ f.count = 998 ∧
      f.pieces.flatten = List.replicate 127743 7 ∧
      (∃ index piece, f.burst? 997 = some ⟨⟨⟨770, 12345⟩, 3⟩, .data index piece⟩ ∧
        index.toNat = 997 ∧ piece.length = 128) ∧
      f.burst? 999 = some ⟨⟨⟨770, 12345⟩, 3⟩, .terminal⟩ ∧ f.render? 1000 = none ∧
      ((BurstReader.new 128).feedAll f.wires).1.map some = (List.range 1000).map f.burst? := by
  have hlen : (List.replicate 127743 (7 : UInt8)).length ⌈/⌉ 128 = 998 := by
    rw [List.length_replicate]
    rfl
  obtain ⟨hframed, hall⟩ := frame_conserves ⟨⟨770, 12345⟩, 3⟩ (List.replicate 127743 7) 128
  obtain ⟨f, h⟩ := hframed.mpr ⟨⟨7, rfl⟩, by decide, by decide, Nat.le_of_eq hlen⟩
  obtain ⟨hcount, ⟨-, hbytes⟩, hdata, -, hterminal, hnone, -, hread⟩ := hall f h
  rw [hlen] at hcount
  rw [hcount] at hdata hterminal hnone hread
  obtain ⟨index, piece, hburst, hindex, -, -, hfull⟩ := hdata 997 (by decide) (by decide)
  exact ⟨f, h, hcount, hbytes, ⟨index, piece, hburst, hindex, hfull (by decide)⟩, hterminal,
    hnone 1000 (by decide), (hread (by decide) (by decide) 128 (Nat.le_refl _) f.wires rfl).1⟩

end Shoreline.Framed
