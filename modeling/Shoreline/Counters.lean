/-!
# Transfer counters

Nine numbers that only grow; the 64 bits in which they are kept are more than anything counts up to.  A
sender and a receiver each count what they do themselves; the counts of several are added.
-/

namespace Shoreline

structure Counters where
  /-- bursts sent, retransmissions included -/
  burstsSent : Nat
  /-- bursts sent that had been sent before -/
  burstsResent : Nat
  /-- bursts with a valid checksum -/
  burstsReceived : Nat
  /-- bursts and control lines with a wrong checksum -/
  mismatches : Nat
  /-- control lines queued -/
  controlSent : Nat
  /-- valid control lines read -/
  controlReceived : Nat
  /-- packets that became confirmed -/
  packetsConfirmed : Nat
  /-- packets rebuilt -/
  packetsRebuilt : Nat
  /-- bytes of the bursts sent -/
  bytesSent : Nat
  deriving DecidableEq, Repr

namespace Counters

def zero : Counters := ⟨0, 0, 0, 0, 0, 0, 0, 0, 0⟩

/-- applies `f` to the numbers of both, one by one -/
def zipWith (f : Nat → Nat → Nat) (a b : Counters) : Counters where
  burstsSent := f a.burstsSent b.burstsSent
  burstsResent := f a.burstsResent b.burstsResent
  burstsReceived := f a.burstsReceived b.burstsReceived
  mismatches := f a.mismatches b.mismatches
  controlSent := f a.controlSent b.controlSent
  controlReceived := f a.controlReceived b.controlReceived
  packetsConfirmed := f a.packetsConfirmed b.packetsConfirmed
  packetsRebuilt := f a.packetsRebuilt b.packetsRebuilt
  bytesSent := f a.bytesSent b.bytesSent

instance : Add Counters := ⟨zipWith (· + ·)⟩

/-- the growth since an earlier reading, never below zero -/
def since (later earlier : Counters) : Counters := zipWith (· - ·) later earlier

/-- the part of the bursts sent that was sent again -/
def resendRatio? (c : Counters) : Option Float :=
  if c.burstsSent = 0 then none
  else some (c.burstsResent.toUInt64.toFloat / c.burstsSent.toUInt64.toFloat)

end Counters

end Shoreline
