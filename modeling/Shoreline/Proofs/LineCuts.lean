import Shoreline.Proofs.Confirmation
import Shoreline.Proofs.ControlForm
import Shoreline.Proofs.LinePieces
import Shoreline.Session

/-!
# Where a stream may be cut

Only long lines are read in one way or another, as the stream is cut.  A control line that is read of
the rest of a long line is read of the whole line too (`isSteady_line?`), so the control lines of a
stream do not depend on its cuts unless a long line says one.  A sender's packets depend on nothing
but the control lines that it reads (`packets_foldl_handleInput`), and a link hands out the same
bytes whatever the size of its reads (`exists_inputs`).

* `drain_of_isSettled`       a sender that reads everything there is;
* `Alike.takeTurns`          a sender that sends and reads by turns;
* `cuts_agree_unless_long`   all cuts of a stream.
-/

namespace Shoreline

/-! ## The rest of a line -/

namespace LineReader

theorem suffix_of_lastTag? {b t : Bytes} (h : lastTag? none b = some t) : t <:+ b := by
  induction b with
  | nil => exact absurd h (by simp [lastTag?])
  | cons x b ih =>
    rw [lastTag?, lastTag?_eq_or, Option.or_eq_some_iff] at h
    rcases h with h | ⟨-, h⟩
    · exact (ih h).trans (List.suffix_cons x b)
    · split at h
      · rw [Option.some.inj h]
      · exact absurd h (by simp)

theorem classify_front {b : Bytes} {c : ControlLine} (h : classify b = .ok (.control c))
    (a : Bytes) : classify (a ++ b) = .ok (.control c) := by
  rw [classify] at h
  split at h
  · exact absurd h (by simp)
  split at h
  · exact absurd h (by simp)
  next t ht =>
  obtain ⟨c', hparse, -⟩ := map_eq_ok h
  -- a whole control line is too long for a heartbeat
  have hlong : ControlLine.size ≤ b.length := by
    rw [← ControlLine.length_text c', (ControlLine.sameButCase_of_parse hparse).length_eq]
    exact (suffix_of_lastTag? ht).length_le
  rw [classify, if_neg, lastTag?_front ht]
  · exact h
  · rw [List.length_append]
    omega

theorem line?_eq_some_iff {x : Except Fault Inbound} {c : ControlLine} :
    Sender.line? x = some c ↔ x = .ok (.control c) := by
  match x with
  | .ok (.control c') => simp [Sender.line?]
  | .ok .heartbeat => simp [Sender.line?]
  | .error _ => simp [Sender.line?]

theorem seen_line?_eq_some_iff {line : Bytes} {c : ControlLine} :
    seen Sender.line? line = some c ↔ trim line ≠ [] ∧ classify (trim line) = .ok (.control c) := by
  rw [seen, meaning?]
  split
  · next h => exact ⟨fun hs => absurd hs (by simp), fun hc => absurd h hc.1⟩
  next h =>
  show Sender.line? (classify (trim line)) = some c ↔ _
  rw [line?_eq_some_iff]
  exact ⟨fun hc => ⟨h, hc⟩, And.right⟩

/-- a control line that is read of the rest of a line is read of the whole line -/
theorem isSteady_line? : IsSteady Sender.line? := by
  intro front line h
  cases hc : seen Sender.line? line with
  | none => rfl
  | some c =>
    obtain ⟨hne, hsays⟩ := seen_line?_eq_some_iff.mp hc
    have htrim := trim_front hne front
    have hwhole : seen Sender.line? (front ++ line) = some c := by
      rw [seen_line?_eq_some_iff, htrim]
      exact ⟨fun he => hne (List.append_eq_nil_iff.mp he).2, classify_front hsays front⟩
    exact absurd (h.symm.trans hwhole) (by simp)

end LineReader

/-! ## What a link hands out -/

namespace Script

/-- what the readings bring up to the first that brings nothing -/
def comingBytes : List Reading → Bytes
  | .arrived (x :: b) :: rs => x :: b ++ comingBytes rs
  | _ => []

/-- what is there to be read until a read finds nothing -/
def readable (s : Script) : Bytes := s.pending ++ comingBytes s.readings

/-- what a read found, and what can be read behind it -/
def found : Except LinkFault Bytes × Script → Bytes
  | (.ok (x :: b), s) => x :: b ++ s.readable
  | _ => []

theorem found_serve (s : Script) (n : Nat) (b : Bytes) :
    found (s.serve (n + 1) b) = if b = [] then [] else b ++ comingBytes s.readings := by
  cases b with
  | nil => rfl
  | cons x b =>
    rw [if_neg (List.cons_ne_nil x b)]
    show x :: b.take n ++ (b.drop n ++ comingBytes s.readings) = _
    rw [← List.append_assoc, List.cons_append, List.take_append_drop]

theorem found_of_read {s : Script} {n : Nat} {x : Except LinkFault Bytes × Script}
    (h : s.read (n + 1) = x) : found x = s.readable := by
  subst h
  unfold read
  split
  · next x b hp => rw [found_serve, if_neg (List.cons_ne_nil x b), readable, hp]
  · next hp hr =>
    rw [readable, hp, hr]
    rfl
  · next b rs hp hr =>
    rw [found_serve, readable, hp, hr]
    cases b <;> rfl
  all_goals
    next hp hr =>
    rw [readable, hp, hr]
    rfl

/-- whatever the size of the reads, the bytes that are there are handed on, none of them twice -/
theorem exists_inputs {σ : Type} (handle : σ → Bytes → Nat → σ) (chunk : Nat) (state : σ)
    (link : Script) :
    ∃ inputs : List (Bytes × Nat), (inputs.map Prod.fst).flatten = link.readable ∧
      (link.drain handle chunk state).1 = inputs.foldl (fun s i => handle s i.1 i.2) state := by
  fun_induction drain handle chunk state link with
  | case1 state link e link₁ hr =>
    exact ⟨[], found_of_read hr, rfl⟩
  | case2 state link link₁ hr =>
    exact ⟨[], found_of_read hr, rfl⟩
  | case3 state link x b link₁ hr hl ih =>
    obtain ⟨inputs, hflat, hstate⟩ := ih
    refine ⟨(x :: b, link₁.now.1) :: inputs, ?_, hstate⟩
    rw [List.map_cons, List.flatten_cons, hflat]
    exact found_of_read hr

end Script

/-! ## What a sender makes of it -/

namespace Sender
open LineReader

theorem packets_foldl_handleInput (s : Sender) (inputs : List (Bytes × Nat)) :
    (inputs.foldl (fun s i => s.handleInput i.1 i.2) s).packets =
        ((s.lines.feedAll (inputs.map Prod.fst)).1.filterMap line?).foldl (applied s.key)
          s.packets ∧
      (inputs.foldl (fun s i => s.handleInput i.1 i.2) s).key = s.key ∧
      (inputs.foldl (fun s i => s.handleInput i.1 i.2) s).lines =
        (s.lines.feedAll (inputs.map Prod.fst)).2 := by
  induction inputs generalizing s with
  | nil => exact ⟨rfl, rfl, rfl⟩
  | cons i inputs ih =>
    obtain ⟨hpackets, hkey, hlines⟩ := packets_handleInput s i.1 i.2
    obtain ⟨hpackets', hkey', hlines'⟩ := ih (s.handleInput i.1 i.2)
    rw [hlines] at hpackets' hlines'
    refine ⟨?_, hkey'.trans hkey, hlines'⟩
    rw [List.foldl_cons, hpackets', hpackets, hkey, ← List.foldl_append, ← List.filterMap_append]
    rfl

/-! ## Reads of another size -/

/-- what a sender makes of everything that is there, if no line is lost in which it hears something:
it does not depend on the size of the reads, but for what is left of the bytes behind the last LF -/
theorem drain_of_isSettled {s : Sender} {link : Script} {p : Bytes} (hp : lf ∉ p)
    (h : Worn p s.lines.buffer) (hs : IsSettled line? (p ++ link.readable)) (chunk : Nat) :
    (link.drain handleInput chunk s).1.packets =
        ((LineReader.lines (p ++ link.readable)).1.filterMap (seen line?)).foldl (applied s.key)
          s.packets ∧
      (link.drain handleInput chunk s).1.key = s.key ∧
      Worn (LineReader.lines (p ++ link.readable)).2
        (link.drain handleInput chunk s).1.lines.buffer := by
  obtain ⟨inputs, hflat, hstate⟩ := Script.exists_inputs handleInput chunk s link
  obtain ⟨hpackets, hkey, hlines⟩ := packets_foldl_handleInput s inputs
  rw [← hflat] at hs ⊢
  rw [hstate]
  refine ⟨?_, hkey, ?_⟩
  · rw [hpackets, feedAll_of_isSettled isSteady_line? hp h hs]
  · rw [hlines]
    exact (feedAll_worn hp h _).2

/-- senders with the same packets that may have kept different parts of the bytes `p` behind the last
LF -/
structure Alike (p : Bytes) (s s' : Sender) : Prop where
  key : s.key = s'.key
  packets : s.packets = s'.packets
  worn : Worn p s.lines.buffer
  worn' : Worn p s'.lines.buffer

section
variable {p : Bytes} {s s' : Sender}

theorem Alike.drain (h : Alike p s s') (hp : lf ∉ p) {link : Script}
    (hs : IsSettled line? (p ++ link.readable)) (m n : Nat) :
    Alike (LineReader.lines (p ++ link.readable)).2 (link.drain handleInput m s).1
      (link.drain handleInput n s').1 := by
  obtain ⟨hpackets, hkey, hworn⟩ := drain_of_isSettled hp h.worn hs m
  obtain ⟨hpackets', hkey', hworn'⟩ := drain_of_isSettled hp h.worn' hs n
  refine ⟨?_, ?_, hworn, hworn'⟩
  · rw [hkey, hkey', h.key]
  · rw [hpackets, hpackets', h.key, h.packets]

theorem lines_emit? (s : Sender) : s.emit?.2.lines = s.lines := by
  rw [emit?]
  split <;> rfl

theorem Alike.transmit (h : Alike p s s') : Alike p s.emit?.2 s'.emit?.2 := by
  refine ⟨?_, ?_, ?_, ?_⟩
  · rw [key_emit?, key_emit?, h.key]
  · rw [packets_emit?, packets_emit?, h.packets]
  · rw [lines_emit?]
    exact h.worn
  · rw [lines_emit?]
    exact h.worn'

theorem Alike.run (h : Alike p s s') (k : Nat) :
    Alike p (s.run (List.replicate k .transmit)) (s'.run (List.replicate k .transmit)) := by
  induction k generalizing s s' with
  | zero => exact h
  | succ k ih => exact ih h.transmit

/-- sends `turn.1` bursts, then reads everything that is there to be read from the link `turn.2` -/
def takeTurn (chunk : Nat) (s : Sender) (turn : Nat × Script) : Sender :=
  (turn.2.drain handleInput chunk (s.run (List.replicate turn.1 .transmit))).1

/-- a transfer, the timers apart -/
def takeTurns (chunk : Nat) (s : Sender) (turns : List (Nat × Script)) : Sender :=
  turns.foldl (takeTurn chunk) s

theorem Alike.takeTurns (h : Alike p s s') (hp : lf ∉ p) {turns : List (Nat × Script)}
    (hs : IsSettled line? (p ++ turns.flatMap (·.2.readable))) (m n : Nat) :
    (s.takeTurns m turns).packets = (s'.takeTurns n turns).packets := by
  induction turns generalizing p s s' with
  | nil => exact h.packets
  | cons turn turns ih =>
    rw [List.flatMap_cons, ← List.append_assoc, isSettled_append] at hs
    obtain ⟨hnow, hlater⟩ := hs
    exact ih ((h.run turn.1).drain hp hnow m n) (not_mem_rest _) hlater

end

end Sender

/-! ## All cuts -/

namespace LineReader

/-- over all cuts of a stream, what is read is what its lines say when each has lost no byte or more
than `mostPending` of them at its front; all cuts give the same exactly when every line longer than
that is blank, and the same control lines exactly when no line longer than that says one; then the
packets of a sender that sends and reads by turns do not depend on the size of its reads either -/
theorem cuts_agree_unless_long (b : Bytes) :
    (∀ said, (∃ pieces : List Bytes, pieces.flatten = b ∧ (new.feedAll pieces).1 = said) ↔
      ∃ left, List.Forall₂ Worn (lines b).1 left ∧ said = left.filterMap meaning?) ∧
    ((∀ pieces pieces' : List Bytes, pieces.flatten = b → pieces'.flatten = b →
        (new.feedAll pieces).1 = (new.feedAll pieces').1) ↔
      ∀ line ∈ (lines b).1, mostPending < line.length → ∀ x ∈ line, isLineBlank x = true) ∧
    (CutsAgree Sender.line? b ↔ IsSettled Sender.line? b) ∧
    ∀ (s : Sender) (turns : List (Nat × Script)), lf ∉ s.lines.buffer →
      s.lines.buffer ++ turns.flatMap (·.2.readable) = b → IsSettled Sender.line? b →
      ∀ m n, (s.takeTurns m turns).packets = (s.takeTurns n turns).packets := by
  refine ⟨said_iff_worn b, ?_, cutsAgree_iff isSteady_line? b, ?_⟩
  · have hall := cutsAgree_iff isSteady_some b
    simp only [CutsAgree, IsSettled, List.filterMap_some, seen_some, meaning?_eq_none_iff] at hall
    exact hall
  · rintro s turns hbuffer rfl h m n
    have hself : Sender.Alike s.lines.buffer s s := ⟨rfl, rfl, Worn.refl _, Worn.refl _⟩
    exact hself.takeTurns hbuffer h m n

/-- 300 bytes of chatter are a line of their own, lost or not; long and short reads find the control
line behind them, which comes in two turns -/
theorem small_cast_confirmed_through_chatter :
    let noisy := List.replicate 300 120 ++ lf :: (ControlLine.received (Sender.smallKey 0)).wire
    let turns := [(1, Script.ofReadings [.arrived (noisy.take 310)]),
      (3, Script.ofReadings [.arrived (noisy.drop 310)])]
    ∃ pkg s, Exchange.smallCast.package Exchange.smallPlan = .ok pkg ∧
      Sender.new pkg .standard 0 = .ok s ∧
      (lf ∉ s.lines.buffer ∧ s.lines.buffer ++ turns.flatMap (·.2.readable) = noisy ∧
        IsSettled Sender.line? noisy) ∧
      (s.takeTurns 1023 turns).packetStatus? 0 = some .confirmed ∧
      (s.takeTurns 1023 turns).packets = (s.takeTurns 5 turns).packets := by
  intro noisy turns
  have hsettled : IsSettled Sender.line? noisy := by decide +kernel
  have heval : Exchange.passes Exchange.smallCast Exchange.smallPlan (fun _ s =>
      decide (lf ∉ s.lines.buffer ∧ s.lines.buffer ++ turns.flatMap (·.2.readable) = noisy ∧
        (s.takeTurns 1023 turns).packetStatus? 0 = some .confirmed)) = true := by
    decide +kernel
  obtain ⟨pkg, s, hpkg, hs, heval⟩ := Exchange.exists_of_passes heval
  obtain ⟨hbuffer, hreadable, hstatus⟩ := of_decide_eq_true heval
  obtain ⟨-, -, -, hsender⟩ := cuts_agree_unless_long noisy
  exact ⟨pkg, s, hpkg, hs, ⟨hbuffer, hreadable, hsettled⟩, hstatus,
    hsender s turns hbuffer hreadable hsettled 1023 5⟩

/-- a control line right behind 230 bytes of chatter is lost if the first read ends behind 257 bytes;
a sender confirms its packet or does not, as its reads are 1024 bytes long or 257 -/
theorem long_line_lost :
    let line := ControlLine.received (Sender.smallKey 1)
    let long := List.replicate 230 120 ++ line.wire
    let link := Script.ofReadings [.arrived long]
    (new.feedAll [long]).1 = [.ok (.control line)] ∧
      (new.feedAll [long.take 257, long.drop 257]).1 = [.error (.malformed .tag)] ∧
      ∃ pkg s, Exchange.smallCast.package Exchange.smallPlan = .ok pkg ∧
        Sender.new pkg .standard 0 = .ok s ∧
        (link.drain Sender.handleInput 1023 s).1.packetStatus? 1 = some .confirmed ∧
        (link.drain Sender.handleInput 256 s).1.packetStatus? 1 = some .unsent := by
  intro line long link
  have heval : Exchange.passes Exchange.smallCast Exchange.smallPlan (fun _ s =>
      decide ((link.drain Sender.handleInput 1023 s).1.packetStatus? 1 = some .confirmed ∧
        (link.drain Sender.handleInput 256 s).1.packetStatus? 1 = some .unsent)) = true := by
    decide +kernel
  obtain ⟨pkg, s, hpkg, hs, heval⟩ := Exchange.exists_of_passes heval
  obtain ⟨hwhole, hcut⟩ := of_decide_eq_true heval
  refine ⟨?_, ?_, pkg, s, hpkg, hs, hwhole, hcut⟩
  · decide +kernel
  · decide +kernel

end LineReader

end Shoreline
