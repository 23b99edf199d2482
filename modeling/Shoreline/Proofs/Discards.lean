import Shoreline.Proofs.Courses
import Shoreline.Proofs.Survey

/-!
# Which discarded bursts are counted

In a run of a receiver every byte that came is in one of the stretches that its reader has passed, or
is still held (`passed_run`).  What the receiver calls rejected are the units of these stretches that
failed or stalled, neither more nor less.  A burst that was read but for which there was no room is
among the bursts received and not among the rejected units, so that the count covers all that was
discarded exactly when no burst was turned away (`discards_counted_iff`).

* `passes`, `brings`, `turnedAway`   an act's stretches, its bursts, and those that were turned away;
* `passed_act`                       what an act does to the reader;
* `burstsReceived_act`               every burst that comes is counted as received.
-/

namespace Shoreline.Receiver
open BurstReader

variable {r : Receiver}

/-! ## One act -/

def Act.bytes : Act → Bytes
  | .input b _ => b
  | .burst .. | .timers _ | .transmit => []

/-- the stretches that the reader passes -/
def passes (r : Receiver) : Act → List Stretch
  | .input b _ => (survey r.reader.mostPayload (r.reader.buffer ++ b)).1
  | .timers now => if r.isQuiet now then r.reader.givesUp else []
  | .burst .. | .transmit => []

/-- the bursts that come -/
def brings (r : Receiver) (a : Act) : List Burst :=
  match a with
  | .burst b _ _ => [b]
  | .input .. | .timers _ | .transmit => (r.passes a).filterMap Stretch.burst?

/-- of bursts that come at the time `now`, those that there is no room for -/
def lacking (now : Nat) (r : Receiver) : List Burst → List Burst
  | [] => []
  | b :: bs =>
    (if r.lacksRoom b.kind then [b] else []) ++ lacking now (handleBurst now r b) bs

/-- the bursts that come and are turned away -/
def turnedAway (r : Receiver) (a : Act) : List Burst :=
  match a with
  | .input b now => lacking now { r with reader := (r.reader.feed b).2 } (r.brings a)
  | .burst _ _ now => lacking now r (r.brings a)
  | .timers now => lacking now { r.pollHeartbeat now with reader := r.reader.freed } (r.brings a)
  | .transmit => []

/-- only data bursts need room -/
theorem isData_of_lacksRoom {k : BurstKind} (h : r.lacksRoom k = true) : ∃ i p, k = .data i p := by
  cases k with
  | data i p => exact ⟨i, p, rfl⟩
  | announce c => exact absurd h Bool.false_ne_true
  | terminal => exact absurd h Bool.false_ne_true

theorem isData_of_mem_lacking {now : Nat} {bs : List Burst} {b : Burst}
    (h : b ∈ lacking now r bs) : ∃ i p, b.kind = .data i p := by
  induction bs generalizing r with
  | nil => exact absurd h (by simp [lacking])
  | cons x bs ih =>
    rw [lacking, List.mem_append] at h
    rcases h with h | h
    · split at h
      · next hlacks =>
        obtain rfl := List.mem_singleton.mp h
        exact isData_of_lacksRoom hlacks
      · exact absurd h (by simp)
    · exact ih h

theorem isData_of_mem_turnedAway {a : Act} {b : Burst} (h : b ∈ r.turnedAway a) :
    ∃ i p, b.kind = .data i p := by
  cases a with
  | input x now => exact isData_of_mem_lacking h
  | burst x hx now => exact isData_of_mem_lacking h
  | timers now => exact isData_of_mem_lacking h
  | transmit => exact absurd h (by simp [turnedAway])

theorem burstsReceived_foldl_handleBurst (now : Nat) (bs : List Burst) (r : Receiver) :
    (bs.foldl (handleBurst now) r).burstsReceived = r.burstsReceived + bs.length := by
  induction bs generalizing r with
  | nil => rfl
  | cons b bs ih =>
    rw [List.foldl_cons, ih, burstsReceived_handleBurst, List.length_cons]
    omega

theorem handleInput_eq (r : Receiver) (b : Bytes) (now : Nat) :
    r.handleInput b now = (r.brings (.input b now)).foldl (handleBurst now)
      { r with reader := (r.reader.feed b).2 } := by
  obtain ⟨hbursts, -, -⟩ := drain_survey (r.reader.push b)
  rw [handleInput_of_feed now rfl]
  exact congrArg (List.foldl (handleBurst now) _) hbursts

theorem skipStalled_eq (r : Receiver) (now : Nat) :
    r.skipStalled now = (r.reader.givesUp.filterMap Stretch.burst?).foldl (handleBurst now)
      { r with reader := r.reader.freed } := by
  rcases freed_cases r.reader with ⟨hmagic, hgives, hfreed⟩ | ⟨hstays, hgives, hfreed⟩
  · obtain ⟨hbursts, -, -⟩ := drain_survey
      { r.reader with buffer := r.reader.buffer.drop 4, rejected := r.reader.rejected + 1 }
    rw [skipStalled, BurstReader.skipStalled_of_magic hmagic, hgives, hfreed]
    exact congrArg (List.foldl (handleBurst now) _) hbursts
  · rw [skipStalled, hgives, hfreed]
    split
    · rfl
    · next hs =>
      rw [hs] at hstays
      exact absurd hstays (by simp)

/-- when the link is quiet, the timers take in the bursts behind one that stalled, and may ask for
what is outstanding -/
theorem pollTimers_eq {now : Nat} (h : r.isQuiet now = true) :
    r.pollTimers now =
      (let r' := (r.brings (.timers now)).foldl (handleBurst now)
        { r.pollHeartbeat now with reader := r.reader.freed }
       if r'.isComplete then r' else { r'.requestOutstanding with lastResend := now }) := by
  rw [pollTimers_of_isQuiet h, skipStalled_eq, reader_pollHeartbeat]
  simp only [brings, passes, if_pos h]

theorem passed_act (h : r.reader.Settled) (a : Act) :
    r.reader.Passed a.bytes (r.passes a) (r.act a).reader := by
  cases a with
  | input b now =>
    rw [act, handleInput_eq, reader_foldl_handleBurst]
    exact passed_feed r.reader b
  | burst b hb now =>
    rw [act, reader_handleBurst]
    exact .refl h
  | transmit =>
    rw [act, reader_emit?]
    exact .refl h
  | timers now =>
    rw [act, passes]
    split
    · next hq =>
      have hreader : (r.pollTimers now).reader = r.reader.freed := by
        rw [pollTimers_eq hq]
        dsimp only
        split
        · rw [reader_foldl_handleBurst]
        · rw [reader_requestOutstanding, reader_foldl_handleBurst]
      rw [hreader]
      exact passed_freed h
    · next hq =>
      rw [pollTimers_loud (Bool.eq_false_iff.mpr hq), reader_pollHeartbeat]
      exact .refl h

theorem burstsReceived_act (r : Receiver) (a : Act) :
    (r.act a).burstsReceived = r.burstsReceived + (r.brings a).length := by
  cases a with
  | input b now => rw [act, handleInput_eq, burstsReceived_foldl_handleBurst]
  | burst b hb now => rw [act, burstsReceived_handleBurst, brings, List.length_singleton]
  | transmit =>
    rw [act, emit?]
    split <;> rfl
  | timers now =>
    rw [act]
    by_cases hq : r.isQuiet now = true
    · have hheart := burstsReceived_pollHeartbeat r now
      rw [pollTimers_eq hq]
      dsimp only
      split
      · rw [burstsReceived_foldl_handleBurst, hheart]
      · rw [burstsReceived_requestOutstanding, burstsReceived_foldl_handleBurst, hheart]
    · rw [pollTimers_loud (Bool.eq_false_iff.mpr hq), burstsReceived_pollHeartbeat, brings, passes,
        if_neg hq]
      rfl

/-! ## A run -/

/-- the stretches that the reader passes in a run, first one first -/
def passed (r : Receiver) : List Act → List Stretch
  | [] => []
  | a :: acts => r.passes a ++ (r.act a).passed acts

def brought (r : Receiver) : List Act → List Burst
  | [] => []
  | a :: acts => r.brings a ++ (r.act a).brought acts

def dropped (r : Receiver) : List Act → List Burst
  | [] => []
  | a :: acts => r.turnedAway a ++ (r.act a).dropped acts

theorem passed_run (h : r.reader.Settled) (acts : List Act) :
    r.reader.Passed (acts.flatMap Act.bytes) (r.passed acts) (r.run acts).reader := by
  induction acts generalizing r with
  | nil => exact .refl h
  | cons a acts ih =>
    have hact := passed_act h a
    exact hact.trans (ih hact.settled)

theorem burstsReceived_run (r : Receiver) (acts : List Act) :
    (r.run acts).burstsReceived = r.burstsReceived + (r.brought acts).length := by
  induction acts generalizing r with
  | nil => rfl
  | cons a acts ih =>
    have hrun : r.run (a :: acts) = (r.act a).run acts := rfl
    rw [hrun, ih, burstsReceived_act, brought, List.length_append, Nat.add_assoc]

theorem isData_of_mem_dropped {acts : List Act} {b : Burst} (h : b ∈ r.dropped acts) :
    ∃ i p, b.kind = .data i p := by
  induction acts generalizing r with
  | nil => exact absurd h (by simp [dropped])
  | cons a acts ih =>
    rw [dropped, List.mem_append] at h
    exact h.elim isData_of_mem_turnedAway ih

/-- The bytes of a run are those of the stretches that the reader passed, each of which is what it is
said to be, and those that it holds.  Every burst that comes is counted as received, and every unit
that failed or stalled as rejected; with the bursts that were turned away, all of them data bursts,
the count of what was discarded is right exactly when there is none. -/
theorem discards_counted_iff (config : ReceiverConfig) (start : Nat) (acts : List Act) :
    let r := (new config start).run acts
    let stretches := (new config start).passed acts
    let dropped := (new config start).dropped acts
    stretches.flatMap Stretch.bytes ++ r.reader.buffer = acts.flatMap Act.bytes ∧
    Stretch.AllSound config.mostPayload r.reader.buffer stretches ∧
    r.burstsReceived = ((new config start).brought acts).length ∧
    (∀ b ∈ dropped, ∃ i p, b.kind = .data i p) ∧
    r.rejected = stretches.countP Stretch.isSkipped ∧
    (r.rejected = stretches.countP Stretch.isSkipped + dropped.length ↔ dropped = []) := by
  intro r stretches dropped
  have hnew : (new config start).reader.Settled := survey_of_short (by simp [new, BurstReader.new])
  have hpassed := passed_run hnew acts
  have hreceived := burstsReceived_run (new config start) acts
  have hrejected : r.rejected = stretches.countP Stretch.isSkipped :=
    hpassed.rejected.trans (Nat.zero_add _)
  refine ⟨hpassed.bytes, hpassed.sound, hreceived.trans (Nat.zero_add _),
    fun b hb => isData_of_mem_dropped hb, hrejected, ?_⟩
  rw [hrejected, ← List.length_eq_zero_iff]
  omega

/-- a burst of three bytes comes where there is room for two -/
theorem dropped_burst_not_counted :
    let config : ReceiverConfig := { ReceiverConfig.standard with mostBuffered := 2 }
    let wire := Burst.wire ⟨⟨⟨770, 12345⟩, 1⟩, .data 1 [1, 2, 3]⟩
    let acts := [Act.input wire 5]
    let r := (new config 0).run acts
    let stretches := (new config 0).passed acts
    let dropped := (new config 0).dropped acts
    stretches.countP Stretch.isSkipped = 0 ∧ dropped.length = 1 ∧ r.rejected = 0 ∧
      r.rejected ≠ stretches.countP Stretch.isSkipped + dropped.length := by
  decide +kernel

end Shoreline.Receiver
