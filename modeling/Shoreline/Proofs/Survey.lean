import Shoreline.Proofs.BurstForm
import Shoreline.Proofs.BurstPieces

/-!
# What becomes of every byte of a stream

Byte by byte, a stream falls into stretches: whole bursts, magics of units that do not parse or
verify, and single bytes at which no magic begins (`survey`).  It ends where fewer than four bytes are
left, or where a magic has to wait for what follows it.  A reader that is drained passes these
stretches: it gives their bursts, rejects one unit for each magic that failed, and keeps the bytes
behind them.

* `bytes_survey`                   the stretches and the rest are the bytes;
* `sound_survey`                   each stretch is what it is said to be;
* `drain_survey`                   what a reader that is drained makes of them;
* `passed_feed`, `passed_freed`    a reader that is given bytes, and one that gives up a burst.
-/

namespace Shoreline

/-- what a stretch of a stream turned out to be -/
inductive Stretch where
  /-- a byte at which no magic begins -/
  | noise (x : UInt8)
  | burst (found : Burst) (wire : Bytes)
  /-- the magic of a unit that does not parse or verify -/
  | failed (cause : Fault)
  /-- the magic of a burst that was given up while it was arriving -/
  | stalled
  deriving DecidableEq

namespace Stretch

def bytes : Stretch → Bytes
  | noise x => [x]
  | burst _ wire => wire
  | failed _ | stalled => Burst.magic

def burst? : Stretch → Option Burst
  | burst found _ => some found
  | _ => none

/-- a unit that was passed over -/
def isSkipped : Stretch → Bool
  | failed _ | stalled => true
  | _ => false

/-- the stretch is what it is said to be, where the bytes `after` come behind it: a burst stands in
its own bytes, a magic that failed begins no burst of the stream, and one that stalled began a burst
of which only `t` had come -/
def Sound (m : Nat) (after : Bytes) : Stretch → Prop
  | noise x => 3 ≤ after.length ∧ ¬ Burst.magic.isPrefixOf (x :: after) = true
  | burst found wire => Burst.parse m wire = .ok (some (found, wire.length))
  | failed cause => Burst.parse m (Burst.magic ++ after) = .error cause
  | stalled => ∃ t, t <+: after ∧ Burst.parse m (Burst.magic ++ t) = .ok none

/-- so is each of these stretches, where the bytes `after` come behind the last one -/
def AllSound (m : Nat) (after : Bytes) : List Stretch → Prop
  | [] => True
  | x :: l => x.Sound m (l.flatMap bytes ++ after) ∧ AllSound m after l

variable {m : Nat} {after : Bytes} {l l' : List Stretch}

/-- what a stretch was found to be stays so when more bytes come -/
theorem Sound.append {x : Stretch} (h : x.Sound m after) (c : Bytes) : x.Sound m (after ++ c) := by
  cases x with
  | noise x =>
    obtain ⟨hlen, hp⟩ := h
    refine ⟨by rw [List.length_append]; omega, ?_⟩
    rwa [← List.cons_append, BurstReader.isPrefixOf_append (by rw [List.length_cons]; omega)]
  | burst found wire => exact h
  | failed cause =>
    rw [Sound] at h ⊢
    rw [← List.append_assoc, Burst.parse_append_of_decided (by rw [h]; simp), h]
  | stalled =>
    obtain ⟨t, ht, hp⟩ := h
    exact ⟨t, ht.trans (List.prefix_append _ _), hp⟩

theorem AllSound.append (h : AllSound m after l) (c : Bytes) : AllSound m (after ++ c) l := by
  induction l with
  | nil => exact trivial
  | cons x l ih =>
    obtain ⟨hx, hl⟩ := h
    refine ⟨?_, ih hl⟩
    rw [← List.append_assoc]
    exact hx.append c

theorem allSound_append : AllSound m after (l ++ l') ↔
    AllSound m (l'.flatMap bytes ++ after) l ∧ AllSound m after l' := by
  induction l with
  | nil => exact (iff_of_eq (true_and _)).symm
  | cons x l ih =>
    rw [List.cons_append, AllSound, AllSound, ih, List.flatMap_append, List.append_assoc, and_assoc]

end Stretch

namespace BurstReader
open Burst

/-- the stretches that the bytes fall into, and what has to wait -/
def survey (m : Nat) : Bytes → List Stretch × Bytes
  | [] => ([], [])
  | x :: b =>
    if b.length < 3 then ([], x :: b)
    else if magic.isPrefixOf (x :: b) then
      match h : Burst.parse m (x :: b) with
      | .ok none => ([], x :: b)
      | .ok (some (found, n)) =>
        have := parse_used h
        let (stretches, rest) := survey m ((x :: b).drop n)
        (.burst found ((x :: b).take n) :: stretches, rest)
      | .error e =>
        let (stretches, rest) := survey m (b.drop 3)
        (.failed e :: stretches, rest)
    else
      let (stretches, rest) := survey m b
      (.noise x :: stretches, rest)
termination_by b => b.length
decreasing_by all_goals simp only [List.length_drop, List.length_cons]; omega

variable {m : Nat} {b t : Bytes}

/-! ## The survey -/

theorem eq_magic_append (h : magic.isPrefixOf b = true) : b = magic ++ b.drop 4 := by
  obtain ⟨t, rfl⟩ := List.isPrefixOf_iff_prefix.mp h
  rfl

theorem bytes_survey (m : Nat) (b : Bytes) :
    (survey m b).1.flatMap Stretch.bytes ++ (survey m b).2 = b := by
  fun_induction survey m b with
  | case1 => rfl
  | case2 x b hlen => rfl
  | case3 x b hlen hmagic h => rfl
  | case4 x b hlen hmagic found n h hpos stretches rest hs ih =>
    rw [hs] at ih
    rw [List.flatMap_cons, List.append_assoc, ih]
    exact List.take_append_drop n _
  | case5 x b hlen hmagic e h stretches rest hs ih =>
    rw [hs] at ih
    rw [List.flatMap_cons, List.append_assoc, ih]
    exact (eq_magic_append hmagic).symm
  | case6 x b hlen hmagic stretches rest hs ih =>
    rw [hs] at ih
    rw [List.flatMap_cons, List.append_assoc, ih]
    rfl

/-- a burst is read from its own bytes alone -/
theorem parse_take_self {found : Burst} {n : Nat} (h : Burst.parse m b = .ok (some (found, n))) :
    Burst.parse m (b.take n) = .ok (some (found, (b.take n).length)) := by
  obtain ⟨hfound, rfl⟩ := found_of_parse h
  obtain ⟨hfits, hsize, hspelled⟩ := found_iff_spelled.mp hfound
  have hself : Found m (b.take found.wireSize) found :=
    found_iff_spelled.mpr ⟨hfits, hsize, by rwa [List.take_take, Nat.min_self]⟩
  rw [List.length_take, Nat.min_eq_left hfound.length]
  exact parse_of_found hself

theorem sound_survey (m : Nat) (b : Bytes) :
    Stretch.AllSound m (survey m b).2 (survey m b).1 := by
  have hbytes {b rest : Bytes} {l : List Stretch} (h : survey m b = (l, rest)) :
      l.flatMap Stretch.bytes ++ rest = b := by
    have hb := bytes_survey m b
    rwa [h] at hb
  fun_induction survey m b with
  | case1 => exact trivial
  | case2 x b hlen => exact trivial
  | case3 x b hlen hmagic h => exact trivial
  | case4 x b hlen hmagic found n h hpos stretches rest hs ih =>
    rw [hs] at ih
    exact ⟨parse_take_self h, ih⟩
  | case5 x b hlen hmagic e h stretches rest hs ih =>
    rw [hs] at ih
    refine ⟨?_, ih⟩
    rw [hbytes hs, Stretch.Sound, ← h]
    exact congrArg (Burst.parse m) (eq_magic_append hmagic).symm
  | case6 x b hlen hmagic stretches rest hs ih =>
    rw [hs] at ih
    refine ⟨?_, ih⟩
    rw [hbytes hs]
    exact ⟨by omega, hmagic⟩

/-- the survey of `b` begins with these stretches and goes on with that of `t` -/
def Passes (m : Nat) (b : Bytes) (stretches : List Stretch) (t : Bytes) : Prop :=
  survey m b = (stretches ++ (survey m t).1, (survey m t).2)

theorem Passes.refl (m : Nat) (b : Bytes) : Passes m b [] b := rfl

theorem Passes.trans {c : Bytes} {l l' : List Stretch} (h : Passes m b l t) (h' : Passes m t l' c) :
    Passes m b (l ++ l') c := by
  rw [Passes] at h h' ⊢
  rw [h, h', List.append_assoc]

theorem survey_of_short (h : b.length < 4) : survey m b = ([], b) := by
  cases b with
  | nil => rw [survey]
  | cons x b =>
    rw [List.length_cons] at h
    rw [survey, if_pos (by omega)]

theorem passes_noise {x : UInt8} (h : ¬ magic.isPrefixOf (x :: b) = true) (hlen : 3 ≤ b.length) :
    Passes m (x :: b) [.noise x] b := by
  rw [Passes, survey, if_neg (by omega), if_neg h]
  rfl

/-- a survey that comes to a magic depends on what is read there -/
theorem survey_of_magic (h : magic.isPrefixOf b = true) :
    survey m b = match Burst.parse m b with
      | .ok none => ([], b)
      | .ok (some (found, n)) =>
        (.burst found (b.take n) :: (survey m (b.drop n)).1, (survey m (b.drop n)).2)
      | .error e => (.failed e :: (survey m (b.drop 4)).1, (survey m (b.drop 4)).2) := by
  have hlen := length_of_magic h
  cases b with
  | nil => exact absurd hlen (by decide)
  | cons x b =>
    rw [List.length_cons] at hlen
    rw [survey, if_neg (by omega), if_pos h]
    split
    · next hp => simp only [hp]
    · next hp => simp only [hp]
    · next hp =>
      simp only [hp]
      rfl

/-- what a survey leaves has to wait -/
theorem survey_rest (m : Nat) (b : Bytes) : survey m (survey m b).2 = ([], (survey m b).2) := by
  fun_induction survey m b with
  | case1 => rw [survey]
  | case2 x b hlen => rw [survey, if_pos hlen]
  | case3 x b hlen hmagic h => rw [survey_of_magic hmagic, h]
  | case4 x b hlen hmagic found n h hpos stretches rest hs ih =>
    rw [hs] at ih
    exact ih
  | case5 x b hlen hmagic e h stretches rest hs ih =>
    rw [hs] at ih
    exact ih
  | case6 x b hlen hmagic stretches rest hs ih =>
    rw [hs] at ih
    exact ih

/-! ## A reader that is drained -/

theorem passes_seek?_some (h : seek? b = some t) :
    ∃ noise : Bytes, Passes m b (noise.map .noise) t := by
  induction b with
  | nil => exact absurd h (by simp [seek?])
  | cons x b ih =>
    rw [seek?] at h
    split at h
    · obtain rfl := Option.some.inj h
      exact ⟨[], .refl m _⟩
    · next hp =>
      obtain ⟨noise, hnoise⟩ := ih h
      have hlen := length_seek? h
      exact ⟨x :: noise, (passes_noise hp (by omega)).trans hnoise⟩

theorem passes_seek?_none (h : seek? b = none) :
    ∃ noise : Bytes, Passes m b (noise.map .noise) (lastPart b) := by
  induction b with
  | nil => exact ⟨[], .refl m _⟩
  | cons x b ih =>
    by_cases hlen : (x :: b).length < 4
    · rw [lastPart_of_short hlen]
      exact ⟨[], .refl m _⟩
    · rw [List.length_cons] at hlen
      rw [seek?] at h
      split at h
      · exact absurd h (by simp)
      next hp =>
      obtain ⟨noise, hnoise⟩ := ih h
      have hlast : lastPart (x :: b) = lastPart b := lastPart_append_left [x] (by omega)
      rw [hlast]
      exact ⟨x :: noise, (passes_noise hp (by omega)).trans hnoise⟩

/-- one search: what it passes, gives, rejects and leaves -/
theorem passes_scan (r : BurstReader) (b : Bytes) :
    ∃ l, Passes r.mostPayload b l (r.scan b).2.buffer ∧
      l.filterMap Stretch.burst? = (r.scan b).1.toList ∧
      (r.scan b).2.rejected = r.rejected + l.countP Stretch.isSkipped := by
  have hquiet (noise : Bytes) : (noise.map Stretch.noise).filterMap Stretch.burst? = [] ∧
      (noise.map Stretch.noise).countP Stretch.isSkipped = 0 := by
    induction noise with
    | nil => exact ⟨rfl, rfl⟩
    | cons x noise ih => exact ih
  -- a search passes noise up to the first magic; what is read there decides
  fun_induction scan r b with
  | case1 r b hs =>
    obtain ⟨noise, hnoise⟩ := passes_seek?_none hs
    exact ⟨_, hnoise, (hquiet noise).1, by rw [(hquiet noise).2]; rfl⟩
  | case2 r b t hs found used hp =>
    obtain ⟨-, -, hmagic, -⟩ := seek?_some hs 0
    obtain ⟨noise, hnoise⟩ := passes_seek?_some hs
    have hburst : Passes r.mostPayload t [.burst found (t.take used)] (t.drop used) := by
      rw [Passes, survey_of_magic hmagic, hp]
      rfl
    refine ⟨_, hnoise.trans hburst, ?_, ?_⟩
    · rw [List.filterMap_append, (hquiet noise).1]
      rfl
    · rw [List.countP_append, (hquiet noise).2]
      rfl
  | case3 r b t hs hp =>
    obtain ⟨noise, hnoise⟩ := passes_seek?_some hs
    exact ⟨_, hnoise, (hquiet noise).1, by rw [(hquiet noise).2]; rfl⟩
  | case4 r b t hs e hp hl ih =>
    obtain ⟨-, -, hmagic, -⟩ := seek?_some hs 0
    obtain ⟨noise, hnoise⟩ := passes_seek?_some hs
    have hfailed : Passes r.mostPayload t [.failed e] (t.drop 4) := by
      rw [Passes, survey_of_magic hmagic, hp]
      rfl
    obtain ⟨l, hpasses, hbursts, hrejected⟩ := ih
    refine ⟨_, (hnoise.trans hfailed).trans hpasses, ?_, ?_⟩
    · rw [List.filterMap_append, List.filterMap_append, (hquiet noise).1, hbursts]
      rfl
    · rw [List.countP_append, List.countP_append, (hquiet noise).2, hrejected]
      show r.rejected + 1 + _ = r.rejected + (0 + 1 + _)
      omega

/-- a search that finds nothing leaves what has to wait -/
theorem survey_of_scan_none {r r' : BurstReader} (h : r.scan b = (none, r')) :
    survey r.mostPayload r'.buffer = ([], r'.buffer) := by
  fun_induction scan r b with
  | case1 r b hs =>
    obtain ⟨-, rfl⟩ := Prod.mk.inj h
    refine survey_of_short ?_
    rw [lastPart, List.length_drop]
    omega
  | case2 r b t hs found used hp => exact absurd h (by simp)
  | case3 r b t hs hp =>
    obtain ⟨-, rfl⟩ := Prod.mk.inj h
    obtain ⟨-, -, hmagic, -⟩ := seek?_some hs 0
    rw [survey_of_magic hmagic, hp]
  | case4 r b t hs e hp hl ih => exact ih h

theorem drainOnto_survey (acc : List Burst) (r : BurstReader) :
    ∃ l, survey r.mostPayload r.buffer = (l, (drainOnto acc r).2.buffer) ∧
      (drainOnto acc r).1 = acc.reverse ++ l.filterMap Stretch.burst? ∧
      (drainOnto acc r).2.rejected = r.rejected + l.countP Stretch.isSkipped := by
  fun_induction drainOnto acc r with
  | case1 acc r r' h =>
    obtain ⟨l, hpasses, hbursts, hrejected⟩ := passes_scan r r.buffer
    rw [← next, h] at hpasses hbursts hrejected
    rw [Passes, survey_of_scan_none h, List.append_nil] at hpasses
    exact ⟨l, hpasses, by rw [hbursts]; simp, hrejected⟩
  | case2 acc r burst r' h hlt ih =>
    obtain ⟨l, hpasses, hbursts, hrejected⟩ := passes_scan r r.buffer
    rw [← next, h] at hpasses hbursts hrejected
    obtain ⟨l', hsurvey, hmore, hrejected'⟩ := ih
    rw [(scan_some h).1] at hsurvey
    rw [Passes, hsurvey] at hpasses
    refine ⟨l ++ l', hpasses, ?_, ?_⟩
    · rw [hmore, List.filterMap_append, hbursts]
      simp
    · rw [hrejected', hrejected, List.countP_append, Nat.add_assoc]

/-- a reader that is drained gives the bursts of its bytes, rejects the magics that failed and keeps
what has to wait -/
theorem drain_survey (r : BurstReader) :
    r.drain.1 = (survey r.mostPayload r.buffer).1.filterMap Stretch.burst? ∧
      r.drain.2.buffer = (survey r.mostPayload r.buffer).2 ∧
      r.drain.2.rejected =
        r.rejected + (survey r.mostPayload r.buffer).1.countP Stretch.isSkipped := by
  obtain ⟨l, hsurvey, hbursts, hrejected⟩ := drainOnto_survey [] r
  rw [hsurvey]
  exact ⟨hbursts, rfl, hrejected⟩

theorem mostPayload_drain (r : BurstReader) : r.drain.2.mostPayload = r.mostPayload := by
  have hmost (acc : List Burst) : (drainOnto acc r).2.mostPayload = r.mostPayload := by
    fun_induction drainOnto acc r with
    | case1 acc r r' h => exact (scan_none h).1
    | case2 acc r burst r' h hlt ih => exact ih.trans (scan_some h).1
  exact hmost []

/-! ## A reader at work -/

/-- nothing but what has to wait is left -/
def Settled (r : BurstReader) : Prop := survey r.mostPayload r.buffer = ([], r.buffer)

/-- what becomes of a reader that is given the bytes `b` and passes these stretches -/
structure Passed (r : BurstReader) (b : Bytes) (l : List Stretch) (r' : BurstReader) : Prop where
  bytes : l.flatMap Stretch.bytes ++ r'.buffer = r.buffer ++ b
  sound : Stretch.AllSound r.mostPayload r'.buffer l
  mostPayload : r'.mostPayload = r.mostPayload
  rejected : r'.rejected = r.rejected + l.countP Stretch.isSkipped
  settled : r'.Settled

theorem Passed.refl {r : BurstReader} (h : r.Settled) : Passed r [] [] r :=
  ⟨(List.append_nil _).symm, trivial, rfl, rfl, h⟩

theorem Passed.trans {r r' r'' : BurstReader} {c : Bytes} {l l' : List Stretch}
    (h : Passed r b l r') (h' : Passed r' c l' r'') : Passed r (b ++ c) (l ++ l') r'' := by
  refine ⟨?_, ?_, h'.mostPayload.trans h.mostPayload, ?_, h'.settled⟩
  · rw [List.flatMap_append, List.append_assoc, h'.bytes, ← List.append_assoc, h.bytes,
      List.append_assoc]
  · refine Stretch.allSound_append.mpr ⟨?_, h.mostPayload ▸ h'.sound⟩
    rw [h'.bytes]
    exact h.sound.append c
  · rw [h'.rejected, h.rejected, List.countP_append, Nat.add_assoc]

theorem passed_drain (r : BurstReader) :
    Passed r [] (survey r.mostPayload r.buffer).1 r.drain.2 := by
  obtain ⟨-, hbuffer, hrejected⟩ := drain_survey r
  refine ⟨?_, ?_, mostPayload_drain r, hrejected, ?_⟩
  · rw [hbuffer, bytes_survey, List.append_nil]
  · rw [hbuffer]
    exact sound_survey _ _
  · rw [Settled, mostPayload_drain, hbuffer, survey_rest]

theorem passed_feed (r : BurstReader) (b : Bytes) :
    Passed r b (survey r.mostPayload (r.buffer ++ b)).1 (r.feed b).2 := by
  have h := passed_drain (r.push b)
  exact ⟨h.bytes.trans (List.append_nil _), h.sound, h.mostPayload, h.rejected, h.settled⟩

/-- the stretches that a reader passes when it gives up what is still arriving -/
def givesUp (r : BurstReader) : List Stretch :=
  if magic.isPrefixOf r.buffer then .stalled :: (survey r.mostPayload (r.buffer.drop 4)).1 else []

/-- and what becomes of it -/
def freed (r : BurstReader) : BurstReader :=
  if r.skipStalled.1 then r.skipStalled.2.drain.2 else r

theorem freed_cases (r : BurstReader) :
    (magic.isPrefixOf r.buffer = true ∧
      r.givesUp = .stalled :: (survey r.mostPayload (r.buffer.drop 4)).1 ∧
      r.freed = (drain { r with buffer := r.buffer.drop 4, rejected := r.rejected + 1 }).2) ∨
    (r.skipStalled.1 = false ∧ r.givesUp = [] ∧ r.freed = r) := by
  rcases skipStalled_cases r with ⟨hmagic, he⟩ | ⟨hmagic, he⟩
  · exact Or.inl ⟨hmagic, if_pos hmagic, by rw [freed, he, if_pos rfl]⟩
  · exact Or.inr ⟨by rw [he], if_neg hmagic, by rw [freed, he, if_neg Bool.false_ne_true]⟩

theorem passed_freed {r : BurstReader} (h : r.Settled) : Passed r [] r.givesUp r.freed := by
  rcases freed_cases r with ⟨hmagic, hgives, hfreed⟩ | ⟨-, hgives, hfreed⟩
  · -- a settled reader that begins with a magic waits for the rest of a burst
    have hwait : Burst.parse r.mostPayload (magic ++ r.buffer.drop 4) = .ok none := by
      rw [← eq_magic_append hmagic]
      rw [Settled, survey_of_magic hmagic] at h
      split at h
      · next hp => exact hp
      · exact absurd (Prod.mk.inj h).1 (by simp)
      · exact absurd (Prod.mk.inj h).1 (by simp)
    have hrest := passed_drain
      { r with buffer := r.buffer.drop 4, rejected := r.rejected + 1 }
    rw [hgives, hfreed]
    refine ⟨?_, ⟨⟨r.buffer.drop 4, ?_, hwait⟩, hrest.sound⟩, hrest.mostPayload, ?_, hrest.settled⟩
    · rw [List.flatMap_cons, List.append_assoc, hrest.bytes, List.append_nil, List.append_nil]
      exact (eq_magic_append hmagic).symm
    · have hall := hrest.bytes.trans (List.append_nil _)
      exact ⟨[], (List.append_nil _).trans hall.symm⟩
    · rw [hrest.rejected, List.countP_cons_of_pos rfl]
      dsimp only
      omega
  · rw [hgives, hfreed]
    exact .refl h

end BurstReader

end Shoreline
