import Shoreline.Receiver
import Shoreline.Sender
import Shoreline.Trial.Path

/-!
# Trials

Senders and one receiver that talk over two paths, in rounds.  In a round the senders take turns until
no burst waits; the receiver takes in what the path up delivers, runs its timers and answers; every
sender takes in what the path down delivers and looks at its timers.  A trial ends when a sender gives
up or all have succeeded.
-/

namespace Shoreline

namespace Sender

theorem waiting_emitFrom_none {isFirst : Bool} {ps ps' : List Outbound}
    (h : emitFrom isFirst ps = (none, ps')) :
    (ps'.map fun p => p.bursts.waiting).sum = (ps.map fun p => p.bursts.waiting).sum := by
  induction ps generalizing isFirst ps' with
  | nil =>
    obtain ⟨_, rfl⟩ := Prod.mk.inj h
    rfl
  | cons p ps ih =>
    have later : ∀ q : Outbound, q.bursts = p.bursts →
        ((emitFrom false ps).1, q :: (emitFrom false ps).2) = (none, ps') →
        (ps'.map fun p => p.bursts.waiting).sum
          = ((p :: ps).map fun p => p.bursts.waiting).sum := by
      intro q hq he
      obtain ⟨h₁, rfl⟩ := Prod.mk.inj he
      have he : emitFrom false ps = (none, (emitFrom false ps).2) := by rw [← h₁]
      have := ih he
      simp only [List.map_cons, List.sum_cons, hq, this]
    rw [emitFrom] at h
    simp only at h
    split at h
    · exact later p rfl h
    · split at h
      · exact later _ (bursts_settle isFirst p) h
      · split at h
        · exact later p rfl h
        · exact absurd h (by simp)

theorem waiting_emit?_le (s : Sender) : s.emit?.2.waiting ≤ s.waiting := by
  match h : s.emit? with
  | (some e, s') => exact Nat.le_of_lt (waiting_emit? h)
  | (none, s') =>
    unfold emit? at h
    split at h
    · next ps hp =>
      obtain ⟨_, rfl⟩ := Prod.mk.inj h
      exact Nat.le_of_eq (waiting_emitFrom_none hp)
    · exact absurd h (by simp)

/-- the bursts that senders hand out when each is asked once -/
def askEach : List Sender → List Bytes × List Sender
  | [] => ([], [])
  | s :: ss =>
    match s.emit?, askEach ss with
    | (none, s), (bs, ss) => (bs, s :: ss)
    | (some e, s), (bs, ss) => (e.wire :: bs, s :: ss)

theorem waiting_askEach_le (ss : List Sender) :
    ((askEach ss).2.map waiting).sum ≤ (ss.map waiting).sum := by
  induction ss with
  | nil => exact Nat.le_refl _
  | cons s ss ih =>
    have hs := waiting_emit?_le s
    rw [askEach]
    split
    · next s' bs ss' he ha =>
      rw [he] at hs
      rw [ha] at ih
      simp only [List.map_cons, List.sum_cons] at ih hs ⊢
      omega
    · next e s' bs ss' he ha =>
      rw [he] at hs
      rw [ha] at ih
      simp only [List.map_cons, List.sum_cons] at ih hs ⊢
      omega

theorem waiting_askEach {ss ss' : List Sender} {b : Bytes} {bs : List Bytes}
    (h : askEach ss = (b :: bs, ss')) : (ss'.map waiting).sum < (ss.map waiting).sum := by
  induction ss generalizing b bs ss' with
  | nil => exact absurd h (by simp [askEach])
  | cons s ss ih =>
    rw [askEach] at h
    split at h
    · next s₁ bs₁ ss₁ he ha =>
      obtain ⟨rfl, rfl⟩ := Prod.mk.inj h
      have hs := waiting_emit?_le s
      rw [he] at hs
      have := ih ha
      simp only [List.map_cons, List.sum_cons] at hs ⊢
      omega
    · next e s₁ bs₁ ss₁ he ha =>
      obtain ⟨_, rfl⟩ := Prod.mk.inj h
      have hs := waiting_emit? he
      have hl := waiting_askEach_le ss
      rw [ha] at hl
      simp only [List.map_cons, List.sum_cons] at hl ⊢
      omega

/-- asks all senders in turn until none has a burst, and puts the bursts behind `acc` -/
def askAll (acc : List Bytes) (ss : List Sender) : List Bytes × List Sender :=
  match h : askEach ss with
  | ([], ss) => (acc, ss)
  | (b :: bs, ss') =>
    have := waiting_askEach h
    askAll (acc ++ b :: bs) ss'
termination_by (ss.map waiting).sum

end Sender

/-! ## Rounds -/

structure Trial where
  senders : List Sender
  receiver : Receiver
  up : Path
  down : Path

/-- what was sent in a round, before the paths touched it, and how the senders stand -/
structure Round where
  bursts : List Bytes
  lines : List Bytes
  statuses : List (Option TransferStatus)
  deriving DecidableEq, Repr

namespace Round

def isSilent (r : Round) : Bool :=
  r.bursts.isEmpty && r.lines.isEmpty && r.statuses.all Option.isNone

/-- how the trial ends with this round, if it does: with the first sender that failed, or when all
have succeeded -/
def ending (r : Round) : Option TransferStatus :=
  match r.statuses.find? fun s => s.any (· != .success) with
  | some s => s
  | none => if r.statuses.all (· == some .success) then some .success else none

end Round

namespace Trial

def round (t : Trial) (now : Nat) : Round × Trial :=
  let (bursts, senders) := Sender.askAll [] t.senders
  let (units, up) := (bursts.foldl Path.send t.up).deliver
  let receiver := units.foldl (fun r b => r.handleInput b now) t.receiver
  let (lines, receiver) := (receiver.pollTimers now).drain
  let (answers, down) := (lines.foldl Path.send t.down).deliver
  let senders := senders.map fun s => answers.foldl (fun s b => s.handleInput b now) s
  let polled := senders.map fun s => s.pollStatus now
  (⟨bursts, lines, polled.map Prod.fst⟩, ⟨polled.map Prod.snd, receiver, up, down⟩)

/-- at most `n` rounds, `step` milliseconds apart, the first one numbered `i`; also says how and with
which round the trial ended -/
def run (step : Nat) (acc : List (Nat × Round)) :
    Nat → Nat → Trial → List (Nat × Round) × Option (TransferStatus × Nat) × Trial
  | 0, _, t => (acc.reverse, none, t)
  | n + 1, i, t =>
    let (r, t) := t.round (i * step)
    match r.ending with
    | some s => (((i, r) :: acc).reverse, some (s, i), t)
    | none => run step ((i, r) :: acc) n (i + 1) t

/-- what all parties counted -/
def counters (t : Trial) : Counters :=
  t.senders.foldl (fun c s => c + s.counters) t.receiver.counters

end Trial

end Shoreline
