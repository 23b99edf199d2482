import Shoreline.Receiver
import Shoreline.Proofs.BurstReader

/-!
# What an operation of the receiver leaves alone

Bursts, requests and heartbeats change the profiles, the outbox and the clocks, never the reader;
only bytes and a burst that is given up change that.

* `handleInput_whole`   a burst that is handed over whole is applied;
* `pollTimers_loud`     nothing but the heartbeat happens before the link is quiet;
* `pollTimers_quiet`    what is outstanding is asked for when the reader holds no burst.
-/

namespace Shoreline.Receiver

/-! ## Bursts -/

theorem reader_handleBurst (now : Nat) (r : Receiver) (b : Burst) :
    (handleBurst now r b).reader = r.reader := by
  unfold handleBurst
  dsimp only
  split <;> rfl

theorem burstsReceived_handleBurst (now : Nat) (r : Receiver) (b : Burst) :
    (handleBurst now r b).burstsReceived = r.burstsReceived + 1 := by
  unfold handleBurst
  dsimp only
  split <;> rfl

theorem reader_foldl_handleBurst (now : Nat) (bs : List Burst) (r : Receiver) :
    (bs.foldl (handleBurst now) r).reader = r.reader := by
  induction bs generalizing r with
  | nil => rfl
  | cons b bs ih => rw [List.foldl_cons, ih, reader_handleBurst]

theorem lastHeartbeat_foldl_handleBurst (now : Nat) (bs : List Burst) (r : Receiver) :
    (bs.foldl (handleBurst now) r).lastHeartbeat = r.lastHeartbeat := by
  induction bs generalizing r with
  | nil => rfl
  | cons b bs ih =>
    rw [List.foldl_cons, ih]
    unfold handleBurst
    dsimp only
    split <;> rfl

theorem handleInput_of_feed {r : Receiver} {b : Bytes} {bs : List Burst} {reader : BurstReader}
    (now : Nat) (h : r.reader.feed b = (bs, reader)) :
    r.handleInput b now = bs.foldl (handleBurst now) { r with reader } := by
  rw [handleInput, h]

theorem lastHeartbeat_handleInput (r : Receiver) (b : Bytes) (now : Nat) :
    (r.handleInput b now).lastHeartbeat = r.lastHeartbeat := by
  rw [handleInput_of_feed now rfl, lastHeartbeat_foldl_handleBurst]

theorem handleInput_whole {r : Receiver} {w : Bytes} {burst : Burst} (now : Nat)
    (h : Burst.parse r.reader.mostPayload w = .ok (some (burst, w.length)))
    (hb : r.reader.buffer = []) : r.handleInput w now = handleBurst now r burst :=
  handleInput_of_feed now (BurstReader.feed_whole h hb)

theorem rejected_handleInput (r : Receiver) (b : Bytes) (now : Nat) :
    r.rejected ≤ (r.handleInput b now).rejected := by
  rw [rejected, rejected, handleInput_of_feed now rfl, reader_foldl_handleBurst]
  exact BurstReader.rejected_feed r.reader b

/-! ## Requests -/

theorem reader_requestProfile (r : Receiver) (key : ProfileKey) (s : ProfileAssembly) :
    (r.requestProfile key s).reader = r.reader := by
  unfold requestProfile
  split <;> rfl

theorem burstsReceived_requestProfile (r : Receiver) (key : ProfileKey) (s : ProfileAssembly) :
    (r.requestProfile key s).burstsReceived = r.burstsReceived := by
  unfold requestProfile
  split <;> rfl

theorem reader_foldl_requestProfile (es : List (ProfileKey × ProfileAssembly)) (r : Receiver) :
    (es.foldl (fun r (key, s) => r.requestProfile key s) r).reader = r.reader := by
  induction es generalizing r with
  | nil => rfl
  | cons e es ih => rw [List.foldl_cons, ih, reader_requestProfile]

theorem burstsReceived_foldl_requestProfile (es : List (ProfileKey × ProfileAssembly))
    (r : Receiver) :
    (es.foldl (fun r (key, s) => r.requestProfile key s) r).burstsReceived = r.burstsReceived := by
  induction es generalizing r with
  | nil => rfl
  | cons e es ih => rw [List.foldl_cons, ih, burstsReceived_requestProfile]

theorem reader_requestOutstanding (r : Receiver) : r.requestOutstanding.reader = r.reader :=
  reader_foldl_requestProfile _ r

theorem burstsReceived_requestOutstanding (r : Receiver) :
    r.requestOutstanding.burstsReceived = r.burstsReceived :=
  burstsReceived_foldl_requestProfile _ r

/-! ## Timers -/

theorem reader_pollHeartbeat (r : Receiver) (now : Nat) :
    (r.pollHeartbeat now).reader = r.reader := by
  unfold pollHeartbeat
  split <;> rfl

theorem burstsReceived_pollHeartbeat (r : Receiver) (now : Nat) :
    (r.pollHeartbeat now).burstsReceived = r.burstsReceived := by
  unfold pollHeartbeat
  split <;> rfl

theorem isQuiet_pollHeartbeat (r : Receiver) (now : Nat) :
    (r.pollHeartbeat now).isQuiet now = r.isQuiet now := by
  unfold pollHeartbeat
  split <;> rfl

theorem pollTimers_loud {r : Receiver} {now : Nat} (h : r.isQuiet now = false) :
    r.pollTimers now = r.pollHeartbeat now := by
  rw [pollTimers]
  dsimp only
  rw [isQuiet_pollHeartbeat, h, Bool.not_false, if_pos rfl]

theorem pollTimers_of_isQuiet {r : Receiver} {now : Nat} (h : r.isQuiet now = true) :
    r.pollTimers now =
      (let r := (r.pollHeartbeat now).skipStalled now
       if r.isComplete then r else { r.requestOutstanding with lastResend := now }) := by
  rw [pollTimers]
  dsimp only
  rw [isQuiet_pollHeartbeat, h, Bool.not_true, if_neg (by decide)]

theorem skipStalled_of_short {r : Receiver} (now : Nat) (h : r.reader.buffer.length < 4) :
    r.skipStalled now = r := by
  rw [skipStalled, BurstReader.skipStalled_of_short h]

theorem pollTimers_quiet {r : Receiver} {now : Nat} (h : r.isQuiet now = true)
    (hb : r.reader.buffer.length < 4) :
    r.pollTimers now =
      (let r := r.pollHeartbeat now
       if r.isComplete then r else { r.requestOutstanding with lastResend := now }) := by
  rw [pollTimers_of_isQuiet h, skipStalled_of_short now (by rwa [reader_pollHeartbeat])]

theorem rejected_skipStalled_of_magic {r : Receiver} (now : Nat)
    (h : Burst.magic.isPrefixOf r.reader.buffer = true) :
    r.rejected < (r.skipStalled now).rejected := by
  rw [skipStalled, BurstReader.skipStalled_of_magic h]
  dsimp only
  rw [rejected, rejected, reader_foldl_handleBurst]
  exact BurstReader.rejected_drainOnto []
    { r.reader with buffer := r.reader.buffer.drop 4, rejected := r.reader.rejected + 1 }

theorem rejected_skipStalled (r : Receiver) (now : Nat) :
    r.rejected ≤ (r.skipStalled now).rejected := by
  by_cases h : Burst.magic.isPrefixOf r.reader.buffer = true
  · exact Nat.le_of_lt (rejected_skipStalled_of_magic now h)
  · have hs : r.skipStalled now = r := by
      rw [skipStalled, BurstReader.skipStalled, if_neg h]
    exact Nat.le_of_eq (congrArg rejected hs.symm)

theorem rejected_pollTimers_quiet {r : Receiver} {now : Nat} (h : r.isQuiet now = true) :
    (r.pollTimers now).rejected = ((r.pollHeartbeat now).skipStalled now).rejected := by
  rw [pollTimers_of_isQuiet h]
  dsimp only
  split
  · rfl
  · rw [rejected, rejected, reader_requestOutstanding]

/-- the timers change the reader only where they give up a burst -/
theorem reader_pollTimers {r : Receiver} {now : Nat}
    (h : r.isQuiet now = false ∨ r.reader.buffer.length < 4) :
    (r.pollTimers now).reader = r.reader ∧
      (r.pollTimers now).burstsReceived = r.burstsReceived := by
  by_cases hq : r.isQuiet now = true
  · have hb : r.reader.buffer.length < 4 := by
      rcases h with h | h
      · rw [hq] at h
        exact absurd h (by decide)
      · exact h
    rw [pollTimers_quiet hq hb]
    dsimp only
    split
    · exact ⟨reader_pollHeartbeat r now, burstsReceived_pollHeartbeat r now⟩
    · exact ⟨(reader_requestOutstanding _).trans (reader_pollHeartbeat r now),
        (burstsReceived_requestOutstanding _).trans (burstsReceived_pollHeartbeat r now)⟩
  · rw [pollTimers_loud (Bool.eq_false_iff.mpr hq)]
    exact ⟨reader_pollHeartbeat r now, burstsReceived_pollHeartbeat r now⟩

theorem rejected_pollTimers (r : Receiver) (now : Nat) :
    r.rejected ≤ (r.pollTimers now).rejected := by
  have hheart : (r.pollHeartbeat now).rejected = r.rejected := by
    rw [rejected, rejected, reader_pollHeartbeat]
  by_cases hq : r.isQuiet now = true
  · rw [rejected_pollTimers_quiet hq, ← hheart]
    exact rejected_skipStalled _ now
  · rw [pollTimers_loud (Bool.eq_false_iff.mpr hq)]
    exact Nat.le_of_eq hheart.symm

theorem rejected_pollTimers_of_magic {r : Receiver} {now : Nat} (h : r.isQuiet now = true)
    (hb : Burst.magic.isPrefixOf r.reader.buffer = true) :
    r.rejected < (r.pollTimers now).rejected := by
  have hheart : (r.pollHeartbeat now).rejected = r.rejected := by
    rw [rejected, rejected, reader_pollHeartbeat]
  rw [rejected_pollTimers_quiet h, ← hheart]
  exact rejected_skipStalled_of_magic now (by rwa [reader_pollHeartbeat])

end Shoreline.Receiver
