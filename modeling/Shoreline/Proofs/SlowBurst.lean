import Shoreline.Proofs.ReceiverFrame

/-!
# Bursts that arrive slowly

The bytes of one burst are handed over in pieces, and the timers run in between.  A receiver is quiet
when no whole burst has come for the resend timeout, whatever pieces have come since; so a burst
whose magic is there is given up as soon as the timers run on a quiet receiver, though its next piece
may be on the way.  `isGivenUp` says when that happens, and nothing else can spoil the burst.

* `replay_of_not_isGivenUp`   otherwise the burst is applied when its last piece comes;
* `replay_of_isGivenUp`       what was given up is counted as rejected;
* `slow_burst_applied_iff`    both together;
* `steady_burst_lost`         pieces that follow each other within the resend timeout are not enough.
-/

namespace Shoreline.Receiver

/-- what happens to a receiver from outside -/
inductive Event where
  | input (b : Bytes) (now : Nat)
  | timers (now : Nat)
  deriving DecidableEq

def Event.bytes : Event → Bytes
  | input b _ => b
  | timers _ => []

def react (r : Receiver) : Event → Receiver
  | .input b now => r.handleInput b now
  | .timers now => r.pollTimers now

def replay (r : Receiver) (es : List Event) : Receiver := es.foldl react r

def handed (es : List Event) : Bytes := es.flatMap Event.bytes

/-- the timers run on a quiet receiver when the magic of a burst of `size` bytes has come, but not all
of the burst; `came` bytes have come before -/
def isGivenUp (size : Nat) (r : Receiver) (came : Nat) : List Event → Bool
  | [] => false
  | .input b now :: es => isGivenUp size (r.handleInput b now) (came + b.length) es
  | .timers now :: es =>
    (4 ≤ came && came < size && r.isQuiet now) || isGivenUp size (r.pollTimers now) came es

theorem handed_input (b : Bytes) (now : Nat) (es : List Event) :
    handed (.input b now :: es) = b ++ handed es := List.flatMap_cons

theorem handed_timers (now : Nat) (es : List Event) : handed (.timers now :: es) = handed es :=
  List.flatMap_cons

/-! ## Nothing is on the way -/

/-- when the whole burst has come, nothing is given up any more -/
theorem isGivenUp_of_le {size : Nat} {r : Receiver} {came : Nat} (es : List Event)
    (h : size ≤ came) : isGivenUp size r came es = false := by
  induction es generalizing r came with
  | nil => rfl
  | cons e es ih =>
    cases e with
    | input b now =>
      rw [isGivenUp]
      exact ih (by omega)
    | timers now =>
      rw [isGivenUp, ih h, show decide (came < size) = false from decide_eq_false (by omega)]
      simp

theorem react_idle {r : Receiver} {e : Event} (hb : r.reader.buffer = []) (he : e.bytes = []) :
    (r.react e).reader = r.reader ∧ (r.react e).burstsReceived = r.burstsReceived := by
  cases e with
  | input b now =>
    have hbytes : b = [] := he
    rw [react, hbytes, handleInput_of_feed now (BurstReader.feed_nil hb)]
    exact ⟨rfl, rfl⟩
  | timers now =>
    exact reader_pollTimers (Or.inr (by rw [hb]; decide))

theorem replay_idle {r : Receiver} {es : List Event} (hb : r.reader.buffer = [])
    (he : handed es = []) :
    (r.replay es).reader = r.reader ∧ (r.replay es).burstsReceived = r.burstsReceived := by
  induction es generalizing r with
  | nil => exact ⟨rfl, rfl⟩
  | cons e es ih =>
    rw [handed, List.flatMap_cons, List.append_eq_nil_iff] at he
    obtain ⟨hr, hc⟩ := react_idle hb he.1
    obtain ⟨hr', hc'⟩ := ih (r := r.react e) (by rw [hr, hb]) he.2
    exact ⟨hr'.trans hr, hc'.trans hc⟩

theorem rejected_replay (r : Receiver) (es : List Event) :
    r.rejected ≤ (r.replay es).rejected := by
  induction es generalizing r with
  | nil => exact Nat.le_refl _
  | cons e es ih =>
    refine Nat.le_trans ?_ (ih (r.react e))
    cases e with
    | input b now => exact rejected_handleInput r b now
    | timers now => exact rejected_pollTimers r now

/-! ## A burst on the way -/

section
variable {m : Nat} {w : Bytes} {burst : Burst}

/-- the first `came` bytes of the burst `w` are there, and the events bring the rest -/
structure OnTheWay (m : Nat) (w : Bytes) (r : Receiver) (came : Nat) (es : List Event) : Prop where
  limit : r.reader.mostPayload = m
  part : came < w.length
  buffer : r.reader.buffer = w.take came
  rest : w.take came ++ handed es = w

theorem OnTheWay.came_add {r : Receiver} {came : Nat} {b : Bytes} {now : Nat} {es : List Event}
    (h : OnTheWay m w r came (.input b now :: es)) :
    came + b.length ≤ w.length ∧ w.take came ++ b = w.take (came + b.length) := by
  have hrest := h.rest
  rw [handed_input, ← List.append_assoc] at hrest
  have hcame : (w.take came).length = came := by
    rw [List.length_take]
    have := h.part
    omega
  have hpre : w.take came ++ b <+: w := ⟨handed es, hrest⟩
  have hlen : (w.take came ++ b).length = came + b.length := by
    rw [List.length_append, hcame]
  exact ⟨hlen ▸ hpre.length_le, hlen ▸ List.prefix_iff_eq_take.mp hpre⟩

theorem OnTheWay.input (hw : Burst.parse m w = .ok (some (burst, w.length))) {r : Receiver}
    {came : Nat} {b : Bytes} {now : Nat} {es : List Event}
    (h : OnTheWay m w r came (.input b now :: es)) (hlt : came + b.length < w.length) :
    OnTheWay m w (r.handleInput b now) (came + b.length) es ∧
      (r.handleInput b now).rejected = r.rejected ∧
      (r.handleInput b now).burstsReceived = r.burstsReceived := by
  have hcut := h.came_add.2
  have hfeed := BurstReader.feed_part (r := r.reader) (by rwa [h.limit]) hlt
    (by rw [h.buffer, hcut])
  rw [handleInput_of_feed now hfeed]
  refine ⟨⟨h.limit, hlt, rfl, ?_⟩, rfl, rfl⟩
  have hrest := h.rest
  rwa [handed_input, ← List.append_assoc, hcut] at hrest

/-- the last piece completes the burst, and nothing else is to come -/
theorem OnTheWay.last (hw : Burst.parse m w = .ok (some (burst, w.length))) {r : Receiver}
    {came : Nat} {b : Bytes} {now : Nat} {es : List Event}
    (h : OnTheWay m w r came (.input b now :: es)) (heq : came + b.length = w.length) :
    (r.handleInput b now).reader = { r.reader with buffer := [] } ∧
      (r.handleInput b now).burstsReceived = r.burstsReceived + 1 ∧ handed es = [] := by
  have hcut := h.came_add.2
  rw [heq, List.take_length] at hcut
  have hfeed := BurstReader.feed_last (r := r.reader) (by rwa [h.limit]) (by rw [h.buffer, hcut])
  rw [handleInput_of_feed now hfeed]
  refine ⟨reader_handleBurst _ _ _, burstsReceived_handleBurst _ _ _, ?_⟩
  have hrest := h.rest
  rw [handed_input, ← List.append_assoc, hcut] at hrest
  exact List.append_right_eq_self.mp hrest

/-- timers that do not give up the burst leave it where it is -/
theorem OnTheWay.timers {r : Receiver} {came : Nat} {now : Nat} {es : List Event}
    (h : OnTheWay m w r came (.timers now :: es)) (hq : r.isQuiet now = false ∨ came < 4) :
    OnTheWay m w (r.pollTimers now) came es ∧ (r.pollTimers now).rejected = r.rejected ∧
      (r.pollTimers now).burstsReceived = r.burstsReceived := by
  have hshort : r.isQuiet now = false ∨ r.reader.buffer.length < 4 := by
    rw [h.buffer, List.length_take]
    exact hq.imp_right fun hc => by omega
  obtain ⟨hr, hc⟩ := reader_pollTimers hshort
  have hrest := h.rest
  rw [handed_timers] at hrest
  refine ⟨⟨hr ▸ h.limit, h.part, hr ▸ h.buffer, hrest⟩, ?_, hc⟩
  rw [rejected, hr]
  rfl

theorem OnTheWay.not_nil {r : Receiver} {came : Nat} (h : OnTheWay m w r came []) : False := by
  have hrest := h.rest
  have hpart := h.part
  have := congrArg List.length hrest
  simp only [handed, List.flatMap_nil, List.append_nil, List.length_take] at this
  omega

theorem quiet_or_short {size came now : Nat} {r : Receiver} {es : List Event} (hlt : came < size)
    (h : isGivenUp size r came (.timers now :: es) = false) :
    (r.isQuiet now = false ∨ came < 4) ∧ isGivenUp size (r.pollTimers now) came es = false := by
  rw [isGivenUp, Bool.or_eq_false_iff] at h
  refine ⟨?_, h.2⟩
  cases hq : r.isQuiet now with
  | false => exact Or.inl rfl
  | true =>
    refine Or.inr ?_
    have h₁ := h.1
    rw [hq, Bool.and_true, decide_eq_true hlt, Bool.and_true, decide_eq_false_iff_not] at h₁
    omega

/-- a burst that is not given up is applied when its last piece comes -/
theorem replay_of_not_isGivenUp (hw : Burst.parse m w = .ok (some (burst, w.length)))
    {r : Receiver} {came : Nat} {es : List Event} (h : OnTheWay m w r came es)
    (hg : isGivenUp w.length r came es = false) :
    (r.replay es).burstsReceived = r.burstsReceived + 1 ∧
      (r.replay es).rejected = r.rejected := by
  induction es generalizing r came with
  | nil => exact absurd h.not_nil id
  | cons e es ih =>
    cases e with
    | input b now =>
      rw [isGivenUp] at hg
      rcases Nat.lt_or_eq_of_le h.came_add.1 with hlt | heq
      · obtain ⟨h', hr, hc⟩ := h.input hw hlt
        have := ih h' hg
        rwa [hr, hc] at this
      · obtain ⟨hr, hc, hrest⟩ := h.last hw heq
        have hidle : (r.handleInput b now).reader.buffer = [] := by rw [hr]
        obtain ⟨hr', hc'⟩ := replay_idle hidle hrest
        refine ⟨hc'.trans hc, ?_⟩
        show (replay (r.handleInput b now) es).reader.rejected = _
        rw [hr', hr]
        rfl
    | timers now =>
      obtain ⟨hq, hg'⟩ := quiet_or_short h.part hg
      obtain ⟨h', hr, hc⟩ := h.timers hq
      have := ih h' hg'
      rwa [hr, hc] at this

theorem replay_of_isGivenUp (hw : Burst.parse m w = .ok (some (burst, w.length)))
    {r : Receiver} {came : Nat} {es : List Event} (h : OnTheWay m w r came es)
    (hg : isGivenUp w.length r came es = true) :
    r.rejected < (r.replay es).rejected := by
  induction es generalizing r came with
  | nil => exact absurd h.not_nil id
  | cons e es ih =>
    cases e with
    | input b now =>
      rw [isGivenUp] at hg
      rcases Nat.lt_or_eq_of_le h.came_add.1 with hlt | heq
      · obtain ⟨h', hr, -⟩ := h.input hw hlt
        have := ih h' hg
        rwa [hr] at this
      · rw [isGivenUp_of_le es (Nat.le_of_eq heq.symm)] at hg
        exact absurd hg (by decide)
    | timers now =>
      by_cases hq : r.isQuiet now = false ∨ came < 4
      · obtain ⟨h', hr, -⟩ := h.timers hq
        have hg' : isGivenUp w.length (r.pollTimers now) came es = true := by
          rw [isGivenUp, Bool.or_eq_true] at hg
          refine hg.resolve_left ?_
          intro hc
          simp only [Bool.and_eq_true, decide_eq_true_eq] at hc
          obtain ⟨⟨h4, -⟩, hquiet⟩ := hc
          rcases hq with hq | hq
          · rw [hquiet] at hq
            exact absurd hq (by decide)
          · omega
        have := ih h' hg'
        rwa [hr] at this
      · have hmagic : Burst.magic.isPrefixOf r.reader.buffer = true := by
          rw [h.buffer]
          exact Burst.magic_take hw (by omega)
        have hquiet : r.isQuiet now = true := by
          cases hc : r.isQuiet now with
          | true => rfl
          | false => exact absurd (Or.inl hc) hq
        exact Nat.lt_of_lt_of_le (rejected_pollTimers_of_magic hquiet hmagic)
          (rejected_replay (r.pollTimers now) es)

end

/-! ## What decides whether a burst is applied -/

/-- a burst that is handed over in pieces to a receiver without one is applied, and nothing is
rejected, exactly when the timers do not run while the receiver is quiet and a part of it is there -/
theorem slow_burst_applied_iff (r : Receiver) (hbuffer : r.reader.buffer = []) (w : Bytes)
    (burst : Burst) (hw : Burst.parse r.reader.mostPayload w = .ok (some (burst, w.length)))
    (es : List Event) (hes : handed es = w) :
    ((r.replay es).burstsReceived = r.burstsReceived + 1 ∧ (r.replay es).rejected = r.rejected) ↔
      isGivenUp w.length r 0 es = false := by
  have hpos : 0 < w.length := Nat.lt_of_lt_of_le (by decide) (Burst.overhead_le_of_parse hw)
  have hway : OnTheWay r.reader.mostPayload w r 0 es := ⟨rfl, hpos, hbuffer, hes⟩
  constructor
  · rintro ⟨-, hr⟩
    cases hg : isGivenUp w.length r 0 es with
    | false => rfl
    | true =>
      have := replay_of_isGivenUp hw hway hg
      omega
  · exact replay_of_not_isGivenUp hw hway

def emptyAnnounce : Burst := ⟨⟨⟨770, 12345⟩, 0⟩, .announce 0⟩

theorem fits_emptyAnnounce : emptyAnnounce.Fits :=
  ⟨by decide, by decide, show (0 : UInt16).toNat ≤ 9999 by decide⟩

/-- a burst in two halves with the timers run between them, on a link that is not quiet yet -/
theorem halves_applied :
    let r := Receiver.new .standard 0
    let es : List Event := [.input (emptyAnnounce.wire.take 16) 1000, .timers 1000,
      .input (emptyAnnounce.wire.drop 16) 1001]
    (r.replay es).burstsReceived = 1 ∧ (r.replay es).rejected = 0 :=
  (slow_burst_applied_iff (Receiver.new .standard 0) rfl emptyAnnounce.wire emptyAnnounce
    (Burst.parse_whole _ _ fits_emptyAnnounce (by decide)) _ (by decide +kernel)).mpr
    (by decide +kernel)

/-- the pieces follow each other in less than `timeout`, and so do the timers the latest piece -/
def keepsComing (timeout latest : Nat) : List Event → Prop
  | [] => True
  | .input _ now :: es => latest ≤ now ∧ now - latest < timeout ∧ keepsComing timeout now es
  | .timers now :: es => latest ≤ now ∧ now - latest < timeout ∧ keepsComing timeout latest es

/-- pieces that keep coming are not enough for the burst to be applied: on a link that was quiet
before, the timers give up a burst that has just begun -/
theorem steady_burst_lost :
    ¬ ∀ (config : ReceiverConfig) (start : Nat) (burst : Burst) (piece : Bytes) (now : Nat)
      (es : List Event), burst.Fits → burst.payload.length ≤ config.mostPayload → start ≤ now →
      handed (.input piece now :: es) = burst.wire → keepsComing config.resendTimeout now es →
      ((Receiver.new config start).replay (.input piece now :: es)).burstsReceived = 1 ∧
        ((Receiver.new config start).replay (.input piece now :: es)).rejected = 0 := by
  intro h
  have hlost := h .standard 0 emptyAnnounce (emptyAnnounce.wire.take 16) 20000
    [.timers 20000, .input (emptyAnnounce.wire.drop 16) 20001]
    fits_emptyAnnounce (by decide) (by decide) (by decide +kernel)
    ⟨by decide, by decide, by decide, by decide, trivial⟩
  revert hlost
  decide +kernel

end Shoreline.Receiver
