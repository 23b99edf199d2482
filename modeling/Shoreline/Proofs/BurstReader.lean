import Shoreline.Proofs.BurstWire
import Shoreline.Burst.Reader

/-!
# Scanning whole bursts and their beginnings

A reader that holds nothing, given a burst whole, gives that burst and holds nothing again.  Given the
burst in parts it holds what has come of it, and gives the burst with its last byte.  What a reader
has rejected is never taken back.

* `feed_whole`       a burst in one piece;
* `feed_part`        a beginning of it is held;
* `rejected_feed`    the count of rejected units does not fall;
* `skipStalled_of_magic`   giving up a burst is counted.
-/

namespace Shoreline.BurstReader

/-! ## One step of the scan -/

theorem seek?_of_magic {b : Bytes} (h : Burst.magic.isPrefixOf b = true) : seek? b = some b := by
  cases b with
  | nil => exact absurd h (by decide)
  | cons x b => rw [seek?, if_pos h]

theorem seek?_of_short {b : Bytes} (h : b.length < 4) : seek? b = none := by
  cases hs : seek? b with
  | none => rfl
  | some t =>
    have := length_seek? hs
    omega

theorem lastPart_of_short {b : Bytes} (h : b.length < 4) : lastPart b = b := by
  rw [lastPart, show b.length - 3 = 0 by omega, List.drop_zero]

theorem scan_of_short (r : BurstReader) {b : Bytes} (h : b.length < 4) :
    r.scan b = (none, { r with buffer := b }) := by
  rw [scan]
  split
  · rw [lastPart_of_short h]
  · next t ht =>
    rw [seek?_of_short h] at ht
    exact absurd ht (by simp)

theorem scan_of_magic (r : BurstReader) {b : Bytes} (h : Burst.magic.isPrefixOf b = true) :
    r.scan b = match Burst.parse r.mostPayload b with
      | .ok (some (burst, used)) => (some burst, { r with buffer := b.drop used })
      | .ok none => (none, { r with buffer := b })
      | .error e => (r.reject e).scan (b.drop 4) := by
  rw [scan]
  split
  · next hs =>
    rw [seek?_of_magic h] at hs
    exact absurd hs (by simp)
  · next t ht =>
    obtain rfl : b = t := Option.some.inj ((seek?_of_magic h).symm.trans ht)
    rfl

theorem drainOnto_none {r r' : BurstReader} (acc : List Burst) (h : r.next = (none, r')) :
    drainOnto acc r = (acc.reverse, r') := by
  rw [drainOnto]
  split
  · next r₂ h₂ =>
    rw [h] at h₂
    rw [(Prod.mk.inj h₂).2]
  · next h₂ =>
    rw [h] at h₂
    exact absurd h₂ (by simp)

theorem drainOnto_some {r r' : BurstReader} {burst : Burst} (acc : List Burst)
    (h : r.next = (some burst, r')) : drainOnto acc r = drainOnto (burst :: acc) r' := by
  rw [drainOnto]
  split
  · next h₂ =>
    rw [h] at h₂
    exact absurd h₂ (by simp)
  · next b₂ r₂ h₂ =>
    rw [h] at h₂
    obtain ⟨h₃, rfl⟩ := Prod.mk.inj h₂
    rw [Option.some.inj h₃]

/-! ## A burst and its beginnings -/

section
variable {r : BurstReader} {w : Bytes} {burst : Burst}

theorem drain_part (h : Burst.parse r.mostPayload w = .ok (some (burst, w.length))) {k : Nat}
    (hk : k < w.length) (hb : r.buffer = w.take k) : r.drain = ([], r) := by
  have hself : { r with buffer := w.take k } = r := by rw [← hb]
  refine drainOnto_none [] ?_
  rw [next, hb]
  by_cases h4 : k < 4
  · rw [scan_of_short r (by rw [List.length_take]; omega), hself]
  · rw [scan_of_magic r (Burst.magic_take h (by omega)), Burst.parse_take h hk]
    simp only [hself]

theorem drain_whole (h : Burst.parse r.mostPayload w = .ok (some (burst, w.length)))
    (hb : r.buffer = w) : r.drain = ([burst], { r with buffer := [] }) := by
  have hmagic : Burst.magic.isPrefixOf w = true := by
    have := Burst.magic_take h (k := w.length)
      (Nat.le_trans (by decide) (Burst.overhead_le_of_parse h))
    rwa [List.take_length] at this
  have hfirst : r.next = (some burst, { r with buffer := [] }) := by
    rw [next, hb, scan_of_magic r hmagic, h]
    simp
  rw [drain, drainOnto_some [] hfirst]
  refine drainOnto_none [burst] ?_
  rw [next, scan_of_short _ (by simp)]

theorem feed_part (h : Burst.parse r.mostPayload w = .ok (some (burst, w.length))) {k : Nat}
    {piece : Bytes} (hk : k < w.length) (hb : r.buffer ++ piece = w.take k) :
    r.feed piece = ([], { r with buffer := w.take k }) := by
  have hp : r.push piece = { r with buffer := w.take k } := by rw [push, hb]
  rw [feed, hp]
  exact drain_part (r := { r with buffer := w.take k }) h hk rfl

theorem feed_last (h : Burst.parse r.mostPayload w = .ok (some (burst, w.length))) {piece : Bytes}
    (hb : r.buffer ++ piece = w) : r.feed piece = ([burst], { r with buffer := [] }) := by
  have hp : r.push piece = { r with buffer := w } := by rw [push, hb]
  rw [feed, hp]
  exact drain_whole (r := { r with buffer := w }) h rfl

theorem feed_whole (h : Burst.parse r.mostPayload w = .ok (some (burst, w.length)))
    (hb : r.buffer = []) : r.feed w = ([burst], r) := by
  have hpiece : r.buffer ++ w = w := by rw [hb, List.nil_append]
  rw [feed_last h hpiece, ← hb]

end

theorem feed_nil {r : BurstReader} (hb : r.buffer = []) : r.feed [] = ([], r) := by
  have hp : r.push [] = r := by rw [push, List.append_nil]
  rw [feed, hp]
  refine drainOnto_none [] ?_
  rw [next, hb, scan_of_short _ (by simp), ← hb]

/-! ## Rejected units -/

theorem rejected_scan (r : BurstReader) (b : Bytes) : r.rejected ≤ (r.scan b).2.rejected := by
  fun_induction scan r b with
  | case1 r b hs => exact Nat.le_refl _
  | case2 r b t hs burst used hp => exact Nat.le_refl _
  | case3 r b t hs hp => exact Nat.le_refl _
  | case4 r b t hs e hp hl ih => exact Nat.le_trans (Nat.le_succ _) ih

theorem rejected_drainOnto (acc : List Burst) (r : BurstReader) :
    r.rejected ≤ (drainOnto acc r).2.rejected := by
  have hs := rejected_scan r r.buffer
  fun_induction drainOnto acc r with
  | case1 acc r r' h =>
    rw [← next, h] at hs
    exact hs
  | case2 acc r burst r' h hlt ih =>
    rw [← next, h] at hs
    exact Nat.le_trans hs (ih (rejected_scan _ _))

theorem rejected_feed (r : BurstReader) (b : Bytes) : r.rejected ≤ (r.feed b).2.rejected :=
  rejected_drainOnto [] (r.push b)

/-! ## Giving up -/

theorem skipStalled_of_magic {r : BurstReader} (h : Burst.magic.isPrefixOf r.buffer = true) :
    r.skipStalled =
      (true, { r with buffer := r.buffer.drop 4, rejected := r.rejected + 1 }) := by
  rw [skipStalled, if_pos h]

theorem skipStalled_of_short {r : BurstReader} (h : r.buffer.length < 4) :
    r.skipStalled = (false, r) := by
  rw [skipStalled, if_neg]
  intro hp
  have := (List.isPrefixOf_iff_prefix.mp hp).length_le
  have hm : Burst.magic.length = 4 := rfl
  omega

end Shoreline.BurstReader
