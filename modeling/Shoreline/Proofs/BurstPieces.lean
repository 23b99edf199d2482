import Shoreline.Proofs.BurstScan

/-!
# A stream in pieces

A reader that is drained after every piece gives the same bursts wherever the stream is cut, rejects
the same units and keeps the same bytes (`feedAll_of_flatten_eq`).  What stands at the front of a
string is decided once: a burst or a fault that is read there stays when more bytes come.  And where
no magic is found, the three bytes that are kept are enough for one that the cut goes through.

* `parse_append_of_decided`   what is read at the front of a string is read with more bytes behind it;
* `next_push_some`, `next_push_none`   a search goes on where it ended;
* `feed_append`               two pieces are one.
-/

namespace Shoreline

namespace Burst

theorem slice_append {i n : Nat} {b : Bytes} (h : i + n ≤ b.length) (c : Bytes) :
    slice i n (b ++ c) = slice i n b := by
  rw [slice, slice, List.drop_append_of_le_length (by omega), List.take_append_of_le_length]
  rw [List.length_drop]
  omega

theorem parseData_append {m size : Nat} {key : PacketKey} {index : UInt16} {found : UInt32}
    {b : Bytes} (hlen : overhead ≤ b.length) (h : parseData m key index size found b ≠ .ok none)
    (c : Bytes) :
    parseData m key index size found (b ++ c) = parseData m key index size found b := by
  rw [parseData] at h
  rw [parseData, parseData]
  split
  · rfl
  next hrange =>
  rw [if_neg hrange] at h
  dsimp only at h ⊢
  have hwhole : ¬ (slice overhead size b).length < size := fun hlt => h (if_pos hlt)
  have hsize : overhead + size ≤ b.length := by
    rw [slice, List.length_take, List.length_drop] at hwhole
    omega
  have hhead : headerSize ≤ b.length := Nat.le_trans (by decide) hlen
  rw [slice_append hsize, List.take_append_of_le_length hhead]

/-- a burst or a fault at the front of a string stays when more bytes come -/
theorem parse_append_of_decided {m : Nat} {b : Bytes} (h : parse m b ≠ .ok none) (c : Bytes) :
    parse m (b ++ c) = parse m b := by
  rw [parse] at h
  have hfour : ¬ (b.take 4).length < 4 := fun hlt => h (if_pos hlt)
  have hlen4 : 4 ≤ b.length := by
    rw [List.length_take] at hfour
    omega
  rw [if_neg hfour] at h
  rw [parse, parse, List.take_append_of_le_length hlen4, if_neg hfour, if_neg hfour]
  split
  · rfl
  next hmagic =>
  rw [if_neg hmagic] at h
  have hover : ¬ (b.take overhead).length < overhead := fun hlt => h (if_pos hlt)
  have hlen : overhead ≤ b.length := by
    rw [List.length_take] at hover
    omega
  have hhead : headerSize ≤ b.length := Nat.le_trans (by decide) hlen
  rw [if_neg hover] at h
  rw [List.take_append_of_le_length hlen, if_neg hover, if_neg hover,
    List.take_append_of_le_length hhead, slice_append (i := headerSize) (n := 8) hlen]
  dsimp only at h ⊢
  -- both read the same fields; only a payload lies behind the header
  cases hkey : parseKey (b.take headerSize) with
  | error e => rfl
  | ok key =>
  cases hfound : Field.checksumIn (slice headerSize 8 b) with
  | error e => rfl
  | ok found =>
  rw [hkey, hfound] at h
  dsimp only [bind, Except.bind] at h ⊢
  split
  · rfl
  next hmark =>
  rw [if_neg hmark] at h
  cases hindex : Field.burstNumber.word (slice 17 3 (b.take headerSize)) with
  | error e => rfl
  | ok index =>
  cases hsize : Field.burstSize.number (slice 20 4 (b.take headerSize)) with
  | error e => rfl
  | ok size =>
  rw [hindex, hsize] at h
  dsimp only at h ⊢
  split
  · rfl
  next hzero =>
  rw [if_neg hzero] at h
  exact parseData_append hlen h c

end Burst

namespace BurstReader
open Burst

/-! ## Where a search begins -/

theorem isPrefixOf_append {b : Bytes} (h : 4 ≤ b.length) (c : Bytes) :
    magic.isPrefixOf (b ++ c) = magic.isPrefixOf b := by
  rw [Bool.eq_iff_iff, List.isPrefixOf_iff_prefix, List.isPrefixOf_iff_prefix]
  constructor
  · intro hp
    exact List.prefix_of_prefix_length_le hp (List.prefix_append b c) h
  · exact fun hp => hp.trans (List.prefix_append b c)

theorem seek?_append_some {b t : Bytes} (h : seek? b = some t) (c : Bytes) :
    seek? (b ++ c) = some (t ++ c) := by
  induction b with
  | nil => exact absurd h (by simp [seek?])
  | cons x b ih =>
    rw [seek?] at h
    rw [List.cons_append, seek?]
    split at h
    · next hp =>
      obtain rfl := Option.some.inj h
      rw [if_pos]
      · rfl
      · rw [← List.cons_append, isPrefixOf_append (length_of_magic hp), hp]
    · next hp =>
      have hlen := length_seek? h
      rw [if_neg, ih h]
      rwa [← List.cons_append, isPrefixOf_append (by rw [List.length_cons]; omega)]

/-- where no magic is found, the bytes that are kept are all that a magic can begin in -/
theorem seek?_append_none {b : Bytes} (h : seek? b = none) (c : Bytes) :
    seek? (b ++ c) = seek? (lastPart b ++ c) := by
  induction b with
  | nil => rfl
  | cons x b ih =>
    by_cases hlen : (x :: b).length < 4
    · rw [lastPart_of_short hlen]
    · rw [List.length_cons] at hlen
      have hlast : lastPart (x :: b) = lastPart b := by
        rw [lastPart, lastPart, List.length_cons, show b.length + 1 - 3 = b.length - 3 + 1 by omega,
          List.drop_succ_cons]
      rw [seek?] at h
      split at h
      · exact absurd h (by simp)
      next hp =>
      rw [hlast, ← ih h, List.cons_append, seek?, if_neg]
      rwa [← List.cons_append, isPrefixOf_append (by rw [List.length_cons]; omega)]

theorem lastPart_append_left (a : Bytes) {b : Bytes} (h : 3 ≤ b.length) :
    lastPart (a ++ b) = lastPart b := by
  rw [lastPart, lastPart, List.length_append,
    show a.length + b.length - 3 = a.length + (b.length - 3) by omega, ← List.drop_drop,
    List.drop_left]

theorem lastPart_append (b c : Bytes) : lastPart (lastPart b ++ c) = lastPart (b ++ c) := by
  by_cases h : b.length < 4
  · rw [lastPart_of_short h]
  · have hkept : 3 ≤ (lastPart b ++ c).length := by
      rw [List.length_append, lastPart, List.length_drop]
      omega
    rw [← lastPart_append_left (b.take (b.length - 3)) hkept, ← List.append_assoc]
    conv => rhs; rw [← List.take_append_drop (b.length - 3) b]
    rfl

/-! ## One search goes on -/

variable {r r' : BurstReader} {b : Bytes} {burst : Burst}

theorem scan_of_seek?_none (r : BurstReader) (h : seek? b = none) :
    r.scan b = (none, { r with buffer := lastPart b }) := by
  rw [scan]
  split
  · rfl
  · next t ht =>
    rw [h] at ht
    exact absurd ht (by simp)

theorem scan_of_seek?_some (r : BurstReader) {t : Bytes} (h : seek? b = some t) :
    r.scan b = r.scan t := by
  obtain ⟨-, -, hmagic, -⟩ := seek?_some h 0
  rw [scan_of_magic r hmagic, scan]
  split
  · next hs =>
    rw [h] at hs
    exact absurd hs (by simp)
  · next t' ht' =>
    obtain rfl : t = t' := Option.some.inj (h.symm.trans ht')
    rfl

/-- the bytes that are searched take the place of the buffer -/
theorem scan_withBuffer (r : BurstReader) (b x : Bytes) :
    scan { r with buffer := x } b = r.scan b := by
  fun_induction scan r b with
  | case1 r b hs => rw [scan_of_seek?_none _ hs]
  | case2 r b t hs burst used hp =>
    obtain ⟨-, -, hmagic, -⟩ := seek?_some hs 0
    rw [scan_of_seek?_some _ hs, scan_of_magic _ hmagic, hp]
  | case3 r b t hs hp =>
    obtain ⟨-, -, hmagic, -⟩ := seek?_some hs 0
    rw [scan_of_seek?_some _ hs, scan_of_magic _ hmagic, hp]
  | case4 r b t hs e hp hl ih =>
    obtain ⟨-, -, hmagic, -⟩ := seek?_some hs 0
    rw [scan_of_seek?_some _ hs, scan_of_magic _ hmagic, hp]
    exact ih

theorem next_push (r : BurstReader) (c : Bytes) : (r.push c).next = r.scan (r.buffer ++ c) :=
  scan_withBuffer r _ _

theorem scan_append_some (h : r.scan b = (some burst, r')) (c : Bytes) :
    r.scan (b ++ c) = (some burst, r'.push c) := by
  fun_induction scan r b with
  | case1 r b hs => exact absurd h (by simp)
  | case2 r b t hs found used hp =>
    obtain ⟨hfound, rfl⟩ := Prod.mk.inj h
    obtain ⟨-, -, hmagic, -⟩ := seek?_some hs 0
    rw [scan_of_seek?_some _ (seek?_append_some hs c),
      scan_of_magic _ ((isPrefixOf_append (length_of_magic hmagic) c).trans hmagic),
      parse_append_of_decided (by rw [hp]; simp) c, hp]
    dsimp only
    rw [hfound, List.drop_append_of_le_length (le_length_of_parse hp), push]
  | case3 r b t hs hp => exact absurd h (by simp)
  | case4 r b t hs e hp hl ih =>
    obtain ⟨-, -, hmagic, -⟩ := seek?_some hs 0
    have hfour := length_of_magic hmagic
    rw [scan_of_seek?_some _ (seek?_append_some hs c),
      scan_of_magic _ ((isPrefixOf_append hfour c).trans hmagic),
      parse_append_of_decided (by rw [hp]; simp) c, hp]
    dsimp only
    rw [List.drop_append_of_le_length hfour]
    exact ih h

/-- a search that gave nothing goes on from what it has left -/
theorem scan_append_none (h : r.scan b = (none, r')) (c : Bytes) :
    r.scan (b ++ c) = (r'.push c).next := by
  rw [next_push]
  fun_induction scan r b with
  | case1 r b hs =>
    obtain ⟨-, rfl⟩ := Prod.mk.inj h
    refine Eq.trans ?_ (scan_withBuffer r _ _).symm
    have hseek := seek?_append_none hs c
    cases hc : seek? (b ++ c) with
    | none =>
      rw [scan_of_seek?_none _ hc, scan_of_seek?_none _ (hseek.symm.trans hc), lastPart_append]
    | some t => rw [scan_of_seek?_some _ hc, scan_of_seek?_some _ (hseek.symm.trans hc)]
  | case2 r b t hs found used hp => exact absurd h (by simp)
  | case3 r b t hs hp =>
    obtain ⟨-, rfl⟩ := Prod.mk.inj h
    rw [scan_of_seek?_some _ (seek?_append_some hs c)]
    exact (scan_withBuffer r _ _).symm
  | case4 r b t hs e hp hl ih =>
    obtain ⟨-, -, hmagic, -⟩ := seek?_some hs 0
    have hfour := length_of_magic hmagic
    rw [scan_of_seek?_some _ (seek?_append_some hs c),
      scan_of_magic _ ((isPrefixOf_append hfour c).trans hmagic),
      parse_append_of_decided (by rw [hp]; simp) c, hp]
    dsimp only
    rw [List.drop_append_of_le_length hfour]
    exact ih h

theorem next_push_some (h : r.next = (some burst, r')) (c : Bytes) :
    (r.push c).next = (some burst, r'.push c) :=
  (next_push r c).trans (scan_append_some h c)

theorem next_push_none (h : r.next = (none, r')) (c : Bytes) :
    (r.push c).next = (r'.push c).next :=
  (next_push r c).trans (scan_append_none h c)

/-! ## All bursts of a piece -/

theorem drainOnto_congr (acc : List Burst) (h : r.next = r'.next) :
    drainOnto acc r = drainOnto acc r' := by
  match hn : r'.next with
  | (none, x) => rw [drainOnto_none acc hn, drainOnto_none acc (h.trans hn)]
  | (some burst, x) => rw [drainOnto_some acc hn, drainOnto_some acc (h.trans hn)]

theorem drainOnto_push (acc : List Burst) (r : BurstReader) (c : Bytes) :
    drainOnto acc (r.push c) =
      drainOnto (drainOnto acc r).1.reverse ((drainOnto acc r).2.push c) := by
  fun_induction drainOnto acc r with
  | case1 acc r r' h => rw [List.reverse_reverse, drainOnto_congr acc (next_push_none h c)]
  | case2 acc r burst r' h hlt ih => rw [drainOnto_some acc (next_push_some h c), ih]

theorem drainOnto_append (acc acc' : List Burst) (r : BurstReader) :
    drainOnto (acc ++ acc') r = (acc'.reverse ++ (drainOnto acc r).1, (drainOnto acc r).2) := by
  fun_induction drainOnto acc r with
  | case1 acc r r' h => rw [drainOnto_none _ h, List.reverse_append]
  | case2 acc r burst r' h hlt ih => rw [drainOnto_some _ h, ← List.cons_append, ih]

theorem feed_append (r : BurstReader) (b c : Bytes) :
    r.feed (b ++ c) =
      ((r.feed b).1 ++ ((r.feed b).2.feed c).1, ((r.feed b).2.feed c).2) := by
  have hpush : r.push (b ++ c) = (r.push b).push c := by
    rw [push, push, push, List.append_assoc]
  rw [feed, drain, hpush, drainOnto_push, ← List.nil_append (drainOnto [] (r.push b)).1.reverse,
    drainOnto_append, List.reverse_reverse]
  rfl

/-- a reader that was drained gives nothing more until more bytes come -/
theorem feed_feed_nil (r : BurstReader) (b : Bytes) :
    (r.feed b).2.feed [] = ([], (r.feed b).2) := by
  have h := feed_append r b []
  rw [List.append_nil] at h
  obtain ⟨h₁, h₂⟩ := Prod.mk.inj h
  refine Prod.ext ?_ h₂.symm
  exact List.append_right_eq_self.mp h₁.symm

/-! ## Piece after piece -/

/-- takes in the pieces one after the other, and is drained after each -/
def feedAll (r : BurstReader) : List Bytes → List Burst × BurstReader
  | [] => ([], r)
  | b :: bs => ((r.feed b).1 ++ ((r.feed b).2.feedAll bs).1, ((r.feed b).2.feedAll bs).2)

/-- to a reader that has nothing to give, the pieces are the stream that they make -/
theorem feedAll_eq_feed (h : r.feed [] = ([], r)) (bs : List Bytes) :
    r.feedAll bs = r.feed bs.flatten := by
  induction bs generalizing r with
  | nil => exact h.symm
  | cons b bs ih => rw [feedAll, ih (feed_feed_nil r b), List.flatten_cons, feed_append]

/-- wherever a stream is cut, the same bursts come out, the same units are rejected and the same bytes
are kept -/
theorem feedAll_of_flatten_eq (m : Nat) {bs cs : List Bytes} (h : bs.flatten = cs.flatten) :
    ((new m).feedAll bs).1 = ((new m).feedAll cs).1 ∧
      ((new m).feedAll bs).2.rejected = ((new m).feedAll cs).2.rejected ∧
      ((new m).feedAll bs).2.buffer = ((new m).feedAll cs).2.buffer := by
  have hnew : (new m).feed [] = ([], new m) := feed_nil rfl
  rw [feedAll_eq_feed hnew, feedAll_eq_feed hnew, h]
  exact ⟨rfl, rfl, rfl⟩

/-- noise with a false magic, a burst with a wrong checksum and a whole one, byte by byte and at
once -/
theorem single_bytes_read_alike :
    let burst : Burst := ⟨⟨⟨770, 12345⟩, 0⟩, .announce 0⟩
    let s := [66, 82] ++ burst.wire.take 31 ++ [90] ++ burst.wire ++ [66, 82, 83, 84, 48]
    let bytes := s.map fun x => [x]
    bytes.flatten = [s].flatten ∧ ((new 8192).feedAll bytes).1 = ((new 8192).feedAll [s]).1 ∧
      ((new 8192).feedAll bytes).1 = [burst] ∧ ((new 8192).feedAll bytes).2.rejected = 1 ∧
      ((new 8192).feedAll bytes).2.buffer = [66, 82, 83, 84, 48] := by
  intro burst s bytes
  have hflat : bytes.flatten = [s].flatten := by decide +kernel
  obtain ⟨hbursts, hrejected, hbuffer⟩ := feedAll_of_flatten_eq 8192 hflat
  have hwhole : ((new 8192).feedAll [s]).1 = [burst] ∧ ((new 8192).feedAll [s]).2.rejected = 1 ∧
      ((new 8192).feedAll [s]).2.buffer = [66, 82, 83, 84, 48] := by decide +kernel
  exact ⟨hflat, hbursts, hbursts.trans hwhole.1, hrejected.trans hwhole.2.1,
    hbuffer.trans hwhole.2.2⟩

end BurstReader

end Shoreline
