import Shoreline.Proofs.BurstPieces
import Mathlib.Data.List.Infix

/-!
# A stream of bursts is read back

Bursts that fit, each behind noise without the magic, come out of the reader one by one, in order and
whole, wherever the stream is cut (`stream_read_back`).  Noise may end like the magic begins: the magic
does not overlap itself, so what is found first is the magic of the burst behind it.  A payload may
hold whole bursts: it is taken with its burst, and the search goes on behind it.

* `seek?_noise`    the first magic behind noise;
* `feed_segment`   a reader that holds nothing, after noise and a burst;
* `feed_segments`  after many.
-/

namespace Shoreline.BurstReader
open Burst

/-! ## Noise -/

/-- bytes that the magic does not occur in -/
def IsNoise (b : Bytes) : Prop := ¬ magic <:+: b

instance (b : Bytes) : Decidable (IsNoise b) := inferInstanceAs (Decidable (¬ _))

theorem IsNoise.tail {x : UInt8} {b : Bytes} (h : IsNoise (x :: b)) : IsNoise b :=
  fun hb => h (hb.trans (List.suffix_cons x b).isInfix)

theorem IsNoise.magic_eq_false {b : Bytes} (h : IsNoise b) : magic.isPrefixOf b = false := by
  rw [Bool.eq_false_iff]
  exact fun hp => h (List.isPrefixOf_iff_prefix.mp hp).isInfix

theorem seek?_of_isNoise {b : Bytes} (h : IsNoise b) : seek? b = none := by
  induction b with
  | nil => rfl
  | cons x b ih =>
    rw [seek?, if_neg (by rw [h.magic_eq_false]; decide)]
    exact ih h.tail

/-- no magic begins in noise, and none goes through its end where another one begins behind it -/
theorem IsNoise.magic_append {b t : Bytes} (h : IsNoise b) (hb : b ≠ [])
    (ht : magic.isPrefixOf t = true) : magic.isPrefixOf (b ++ t) = false := by
  by_cases hlen : 4 ≤ b.length
  · rw [isPrefixOf_append hlen]
    exact h.magic_eq_false
  · rw [Bool.eq_false_iff]
    intro hp
    have hover := magic_drop hp (List.length_pos_of_ne_nil hb) (by omega)
    rw [List.drop_left, ht] at hover
    exact absurd hover (by decide)

theorem seek?_noise {b t : Bytes} (h : IsNoise b) (ht : magic.isPrefixOf t = true) :
    seek? (b ++ t) = some t := by
  induction b with
  | nil => exact seek?_of_magic ht
  | cons x b ih =>
    have hp := h.magic_append (List.cons_ne_nil x b) ht
    rw [List.cons_append] at hp ⊢
    rw [seek?, if_neg (by rw [hp]; decide)]
    exact ih h.tail

/-! ## Noise and a burst -/

/-- a burst and the noise in front of it -/
structure Segment where
  noise : Bytes
  burst : Burst

namespace Segment

def bytes (s : Segment) : Bytes := s.noise ++ s.burst.wire

/-- a burst that a reader for payloads of at most `m` bytes takes, behind noise -/
def Clear (m : Nat) (s : Segment) : Prop :=
  IsNoise s.noise ∧ s.burst.Fits ∧ s.burst.payload.length ≤ m

end Segment

/-- the segments and the noise behind the last one -/
def stream (segments : List Segment) (rest : Bytes) : Bytes :=
  segments.flatMap Segment.bytes ++ rest

variable {r : BurstReader}

theorem feed_segment (hr : r.buffer = []) {s : Segment} (hs : s.Clear r.mostPayload) :
    r.feed s.bytes = ([s.burst], r) := by
  obtain ⟨hnoise, hfits, hsize⟩ := hs
  have hwire := parse_whole s.burst r.mostPayload hfits hsize
  have hmagic := magic_of_begins ⟨_, hwire⟩
  have hnext : (r.push s.bytes).next = { r with buffer := s.burst.wire }.next := by
    rw [next_push, hr, List.nil_append, Segment.bytes,
      scan_of_seek?_some r (seek?_noise hnoise hmagic)]
    exact (scan_withBuffer r s.burst.wire s.burst.wire).symm
  rw [feed, drain, drainOnto_congr [] hnext]
  refine (drain_whole (r := { r with buffer := s.burst.wire }) hwire rfl).trans ?_
  rw [← hr]

theorem feed_segments (hr : r.buffer = []) {segments : List Segment}
    (h : ∀ s ∈ segments, s.Clear r.mostPayload) :
    r.feed (segments.flatMap Segment.bytes) = (segments.map Segment.burst, r) := by
  induction segments with
  | nil => exact feed_nil hr
  | cons s segments ih =>
    rw [List.flatMap_cons, feed_append, feed_segment hr (h s List.mem_cons_self),
      ih fun s' hs' => h s' (List.mem_cons_of_mem s hs'), List.map_cons, List.singleton_append]

theorem feed_noise (hr : r.buffer = []) {b : Bytes} (h : IsNoise b) :
    r.feed b = ([], { r with buffer := lastPart b }) := by
  refine drainOnto_none [] ?_
  rw [next_push, hr, List.nil_append, scan_of_seek?_none r (seek?_of_isNoise h)]

/-! ## The stream in pieces -/

theorem rejected_feedAll_take (r : BurstReader) (bs : List Bytes) (k : Nat) :
    (r.feedAll (bs.take k)).2.rejected ≤ (r.feedAll bs).2.rejected := by
  induction bs generalizing r k with
  | nil => rw [List.take_nil]
  | cons b bs ih =>
    cases k with
    | zero =>
      have hfirst := rejected_feed r b
      have hrest := ih (r.feed b).2 0
      rw [List.take_zero, feedAll] at hrest ⊢
      rw [feedAll]
      exact Nat.le_trans hfirst hrest
    | succ k => exact ih (r.feed b).2 k

/-- the bursts come out in order, nothing is rejected at any time, and of the noise behind the last
burst no more is kept than may begin a magic -/
theorem stream_read_back (m : Nat) (segments : List Segment) (rest : Bytes)
    (hsegments : ∀ s ∈ segments, s.Clear m) (hrest : IsNoise rest) (pieces : List Bytes)
    (hpieces : pieces.flatten = stream segments rest) :
    ((new m).feedAll pieces).1 = segments.map Segment.burst ∧
      (∀ k, ((new m).feedAll (pieces.take k)).2.rejected = 0) ∧
      ((new m).feedAll pieces).2.buffer = lastPart rest ∧
      (rest = [] → ((new m).feedAll pieces).2.buffer = []) := by
  have hread : (new m).feedAll pieces =
      (segments.map Segment.burst, { new m with buffer := lastPart rest }) := by
    rw [feedAll_eq_feed (feed_nil rfl), hpieces, stream, feed_append,
      feed_segments (r := new m) rfl hsegments, feed_noise rfl hrest, List.append_nil]
  have hrejected := rejected_feedAll_take (new m) pieces
  rw [hread] at hrejected ⊢
  exact ⟨rfl, fun k => Nat.le_zero.mp (hrejected k), rfl, fun h => congrArg lastPart h⟩

/-- noise that ends like a magic begins, and a payload that is a whole burst, byte by byte -/
theorem bursts_inside_bursts_read_back :
    let inner : Burst := ⟨⟨⟨770, 12345⟩, 0⟩, .announce 2⟩
    let outer : Burst := ⟨⟨⟨770, 12345⟩, 3⟩, .data 1 (inner.wire ++ [66, 82, 83])⟩
    let segments : List Segment := [⟨[0, 66, 82, 83], outer⟩, ⟨[], inner⟩, ⟨[84, 66], outer⟩]
    let pieces := (stream segments []).map fun x => [x]
    ((∀ s ∈ segments, s.Clear 128) ∧ IsNoise [] ∧ pieces.flatten = stream segments []) ∧
      ((new 128).feedAll pieces).1 = [outer, inner, outer] ∧
      ((new 128).feedAll pieces).2.buffer = [] := by
  intro inner outer segments pieces
  have hfits : inner.Fits := ⟨by decide, by decide, by decide⟩
  have hfits' : outer.Fits := ⟨by decide, by decide, by decide, by decide, by decide, by decide⟩
  have hsegments : ∀ s ∈ segments, s.Clear 128 := by
    intro s hs
    simp only [segments, List.mem_cons, List.not_mem_nil, or_false] at hs
    obtain rfl | rfl | rfl := hs
    · exact ⟨by decide, hfits', by decide⟩
    · exact ⟨by decide, hfits, by decide⟩
    · exact ⟨by decide, hfits', by decide⟩
  have hflat : pieces.flatten = stream segments [] := by
    rw [← List.flatMap_def, List.flatMap_singleton']
  obtain ⟨hbursts, -, -, hempty⟩ :=
    stream_read_back 128 segments [] hsegments (by decide) pieces hflat
  exact ⟨⟨hsegments, by decide, hflat⟩, hbursts, hempty rfl⟩

end Shoreline.BurstReader
