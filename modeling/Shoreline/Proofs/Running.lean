import Shoreline.Proofs.Emission
import Shoreline.Proofs.Hearing

/-!
# Senders at work

What can become of a sender (`Reaches`), in a run of acts (`run`).  Of all that it reads, the control
lines alone matter to its packets, one after the other (`heard`).  Whatever is done with it is done
to its packets one by one: a packet is settled, one of its bursts is sent, an answer is asked for, or
a control line is applied.  The first three the sender does of its own accord (`Endures`).  What all
four keep of packet `n` (`Keeps`) holds of it for ever (`each_of_reaches`); that its packets stay
those it was made of is one case.
-/

namespace Shoreline.Sender
open Outbound

/-- what can become of a sender, whatever is done with it -/
inductive Reaches (s : Sender) : Sender → Prop where
  | refl : Reaches s s
  | transmit {s' : Sender} : Reaches s s' → Reaches s s'.emit?.2
  | input {s' : Sender} (b : Bytes) (now : Nat) : Reaches s s' → Reaches s (s'.handleInput b now)
  | control {s' : Sender} (line : ControlLine) (now : Nat) :
    Reaches s s' → Reaches s (s'.handleControl line now)
  | status {s' : Sender} (now : Nat) : Reaches s s' → Reaches s (s'.pollStatus now).2

/-- what can be done with a sender -/
inductive Act where
  | transmit
  | input (b : Bytes) (now : Nat)
  | control (line : ControlLine) (now : Nat)
  | status (now : Nat)
  deriving DecidableEq, Repr

def act (s : Sender) : Act → Sender
  | .transmit => s.emit?.2
  | .input b now => s.handleInput b now
  | .control line now => s.handleControl line now
  | .status now => (s.pollStatus now).2

def run (s : Sender) (acts : List Act) : Sender := acts.foldl act s

theorem Reaches.act {s s' : Sender} (h : s.Reaches s') (a : Act) : s.Reaches (s'.act a) := by
  cases a with
  | transmit => exact h.transmit
  | input b now => exact h.input b now
  | control line now => exact h.control line now
  | status now => exact h.status now

/-! ## What a sender hears -/

/-- the control line that was read, if it was one -/
def line? : Except Fault Inbound → Option ControlLine
  | .ok (.control c) => some c
  | _ => none

/-- the control lines that an act brings -/
def brings (s : Sender) : Act → List ControlLine
  | .input b _ => (s.lines.feed b).1.filterMap line?
  | .control c _ => [c]
  | _ => []

/-- the control lines that were heard in a run, in order -/
def heard (s : Sender) : List Act → List ControlLine
  | [] => []
  | a :: acts => s.brings a ++ (s.act a).heard acts

/-- the packets after a control line, which concerns one of them if it is about the profile -/
def applied (key : ProfileKey) (packets : List Outbound) (c : ControlLine) : List Outbound :=
  if c.key.toProfileKey ≠ key then packets else packets.modify c.key.packet.toNat (·.apply c)

theorem getElem?_applied (key : ProfileKey) (ps : List Outbound) (c : ControlLine) (n : Nat) :
    (applied key ps c)[n]? = ps[n]?.map fun x =>
      if c.key.toProfileKey = key ∧ c.key.packet.toNat = n then x.apply c else x := by
  rw [applied]
  split
  · next hkey =>
    simp only [if_neg fun h : _ ∧ _ => hkey h.1, Option.map_id']
  · next hkey =>
    rw [List.getElem?_modify]
    simp only [Decidable.not_not.mp hkey, true_and]
    rfl

theorem length_applied (key : ProfileKey) (ps : List Outbound) (c : ControlLine) :
    (applied key ps c).length = ps.length := by
  rw [applied]
  split
  · rfl
  · exact List.length_modify _ _ _

theorem key_handleControl (s : Sender) (c : ControlLine) (t : Nat) :
    (s.handleControl c t).key = s.key := by
  rw [handleControl]
  split <;> rfl

theorem packets_handleControl_eq (s : Sender) (c : ControlLine) (now : Nat) :
    (s.handleControl c now).packets = applied s.key s.packets c := by
  rw [handleControl, applied]
  split <;> rfl

theorem lines_handleControl (s : Sender) (c : ControlLine) (now : Nat) :
    (s.handleControl c now).lines = s.lines := by
  rw [handleControl]
  split <;> rfl

/-- of all that is read, control lines alone change the packets, and the times do not matter -/
theorem packets_handleInbound (s : Sender) (now : Nat) (x : Except Fault Inbound) :
    (handleInbound now s x).packets = (line? x).toList.foldl (applied s.key) s.packets ∧
      (handleInbound now s x).key = s.key ∧ (handleInbound now s x).lines = s.lines := by
  match x with
  | .ok (.control c) =>
    exact ⟨packets_handleControl_eq { s with lastInput := now } c now,
      key_handleControl { s with lastInput := now } c now,
      lines_handleControl { s with lastInput := now } c now⟩
  | .ok .heartbeat => exact ⟨rfl, rfl, rfl⟩
  | .error _ => exact ⟨rfl, rfl, rfl⟩

theorem packets_foldl_handleInbound (s : Sender) (now : Nat) (said : List (Except Fault Inbound)) :
    (said.foldl (handleInbound now) s).packets =
        (said.filterMap line?).foldl (applied s.key) s.packets ∧
      (said.foldl (handleInbound now) s).key = s.key ∧
      (said.foldl (handleInbound now) s).lines = s.lines := by
  induction said generalizing s with
  | nil => exact ⟨rfl, rfl, rfl⟩
  | cons x said ih =>
    obtain ⟨hx, hkeyx, hlinesx⟩ := packets_handleInbound s now x
    obtain ⟨hpackets, hkey, hlines⟩ := ih (handleInbound now s x)
    refine ⟨?_, hkey.trans hkeyx, hlines.trans hlinesx⟩
    rw [List.foldl_cons, hpackets, hkeyx, hx, List.filterMap_cons]
    cases line? x <;> rfl

theorem packets_handleInput (s : Sender) (b : Bytes) (now : Nat) :
    (s.handleInput b now).packets =
        ((s.lines.feed b).1.filterMap line?).foldl (applied s.key) s.packets ∧
      (s.handleInput b now).key = s.key ∧ (s.handleInput b now).lines = (s.lines.feed b).2 :=
  packets_foldl_handleInbound { s with lines := (s.lines.feed b).2 } now (s.lines.feed b).1

theorem getElem?_handleControl (s : Sender) (c : ControlLine) (t n : Nat) :
    (s.handleControl c t).packets[n]? = s.packets[n]?.map fun x =>
      if c.key.toProfileKey = s.key ∧ c.key.packet.toNat = n then x.apply c else x := by
  rw [packets_handleControl_eq, getElem?_applied]

theorem key_emit? (s : Sender) : s.emit?.2.key = s.key := by
  rw [emit?]
  split <;> rfl

theorem key_pollStatus (s : Sender) (now : Nat) : (s.pollStatus now).2.key = s.key := by
  rcases pollStatus_cases s now with he | ⟨-, -, he⟩
  · rw [he]
  · rw [he]
    rfl

theorem key_act (s : Sender) (a : Act) : (s.act a).key = s.key := by
  cases a with
  | transmit => exact key_emit? s
  | input b now => exact (packets_handleInput s b now).2.1
  | control line now => exact key_handleControl s line now
  | status now => exact key_pollStatus s now

theorem key_run (s : Sender) (acts : List Act) : (s.run acts).key = s.key := by
  induction acts generalizing s with
  | nil => rfl
  | cons a acts ih => exact (ih _).trans (key_act s a)

/-! ## How many packets there are -/

theorem length_emitFrom (isFirst : Bool) (ps : List Outbound) :
    (emitFrom isFirst ps).2.length = ps.length := by
  induction ps generalizing isFirst with
  | nil => rfl
  | cons p ps ih =>
    rw [emitFrom]
    dsimp only
    split
    · exact congrArg Nat.succ (ih false)
    split
    · exact congrArg Nat.succ (ih false)
    split
    · exact congrArg Nat.succ (ih false)
    · rfl

theorem packets_emit? (s : Sender) : s.emit?.2.packets = (emitFrom true s.packets).2 := by
  rw [emit?]
  split
  · next he => rw [he]
  · next he =>
    rw [he]
    rfl

theorem length_act (s : Sender) (a : Act) : (s.act a).packets.length = s.packets.length := by
  have hfold (cs : List ControlLine) (ps : List Outbound) :
      (cs.foldl (applied s.key) ps).length = ps.length := by
    induction cs generalizing ps with
    | nil => rfl
    | cons c cs ih => exact (ih _).trans (length_applied s.key ps c)
  cases a with
  | transmit =>
    rw [act, packets_emit?]
    exact length_emitFrom true s.packets
  | input b now =>
    rw [act, (packets_handleInput s b now).1]
    exact hfold _ _
  | control line now =>
    rw [act, packets_handleControl_eq]
    exact length_applied s.key s.packets line
  | status now =>
    rw [act]
    rcases pollStatus_cases s now with he | ⟨-, -, he⟩
    · rw [he]
    · rw [he]
      exact List.length_map _

/-- whatever is done with a sender, it has as many packets as before -/
theorem length_run (s : Sender) (acts : List Act) :
    (s.run acts).packets.length = s.packets.length := by
  induction acts generalizing s with
  | nil => rfl
  | cons a acts ih => exact (ih _).trans (length_act s a)

/-! ## What is kept of each packet -/

/-- `P n` holds of packet `n`, for each of them -/
def Each (P : Nat → Outbound → Prop) (ps : List Outbound) : Prop :=
  ∀ (n : Nat) x, ps[n]? = some x → P n x

/-- what a sender does to a packet of its own accord keeps `P` -/
structure Endures (P : Nat → Outbound → Prop) : Prop where
  settle : ∀ {n x}, P n x → x.status = .unsent → P n (x.settle (n == 0))
  send : ∀ {n x}, P n x → x.status = .unsent → ∀ i, P n (x.send i)
  solicit : ∀ {n x}, P n x → P n x.solicit

/-- whatever is done to a packet keeps `P` -/
structure Keeps (P : Nat → Outbound → Prop) : Prop extends Endures P where
  apply : ∀ {n x}, P n x → ∀ line, P n (x.apply line)

section
variable {P : Nat → Outbound → Prop} (hP : Endures P) {s s' : Sender}
include hP

theorem Endures.emitFrom {ps : List Outbound} (m : Nat) (h : ∀ n x, ps[n]? = some x → P (m + n) x) :
    ∀ n x, (Sender.emitFrom (m == 0) ps).2[n]? = some x → P (m + n) x := by
  induction ps generalizing m with
  | nil => exact fun n x hx => absurd hx (by simp [Sender.emitFrom])
  | cons p ps ih =>
    have hp : P m p := h 0 p rfl
    have htail : ∀ n x, ps[n]? = some x → P (m + 1 + n) x := fun n x hx => by
      rw [Nat.add_assoc, Nat.add_comm 1 n]
      exact h (n + 1) x hx
    have hcons {q : Outbound} {qs : List Outbound} (hq : P m q)
        (hqs : ∀ n x, qs[n]? = some x → P (m + 1 + n) x) :
        ∀ n x, (q :: qs)[n]? = some x → P (m + n) x := by
      intro n x hx
      cases n with
      | zero =>
        obtain rfl := Option.some.inj hx
        exact hq
      | succ n =>
        have := hqs n x hx
        rwa [Nat.add_assoc, Nat.add_comm 1 n] at this
    have hlater := ih (m + 1) htail
    rw [Sender.emitFrom]
    dsimp only
    split
    · exact hcons hp hlater
    next hs =>
    have hs' : p.status = .unsent := Decidable.not_not.mp hs
    split
    · exact hcons (hP.settle hp hs') hlater
    split
    · exact hcons hp hlater
    · next i _ _ _ _ => exact hcons (hP.settle (hP.send hp hs' i) hs') htail

theorem Endures.emit? (h : Each P s.packets) : Each P s.emit?.2.packets := by
  have hstart : ∀ n x, s.packets[n]? = some x → P (0 + n) x := fun n x hx => by
    rw [Nat.zero_add]
    exact h n x hx
  have hps := hP.emitFrom 0 hstart
  simp only [Nat.zero_add] at hps
  rw [packets_emit?]
  exact hps

theorem Endures.pollStatus (h : Each P s.packets) (now : Nat) :
    Each P (s.pollStatus now).2.packets := by
  rcases pollStatus_cases s now with he | ⟨-, -, he⟩
  · rw [he]
    exact h
  · intro n x hx
    rw [he] at hx
    obtain ⟨y, hy, rfl⟩ := Option.map_eq_some_iff.mp ((List.getElem?_map).symm.trans hx)
    exact hP.solicit (h n y hy)

end

section
variable {P : Nat → Outbound → Prop} (hP : Keeps P) {s s' : Sender}
include hP

theorem Keeps.applied {ps : List Outbound} (h : Each P ps) (key : ProfileKey) (line : ControlLine) :
    Each P (Sender.applied key ps line) := by
  intro n x hx
  rw [getElem?_applied] at hx
  obtain ⟨y, hy, rfl⟩ := Option.map_eq_some_iff.mp hx
  split
  · exact hP.apply (h n y hy) line
  · exact h n y hy

theorem Keeps.handleControl (h : Each P s.packets) (line : ControlLine) (now : Nat) :
    Each P (s.handleControl line now).packets := by
  rw [packets_handleControl_eq]
  exact hP.applied h s.key line

theorem Keeps.handleInput (h : Each P s.packets) (b : Bytes) (now : Nat) :
    Each P (s.handleInput b now).packets := by
  have hfold (cs : List ControlLine) {ps : List Outbound} (h : Each P ps) :
      Each P (cs.foldl (Sender.applied s.key) ps) := by
    induction cs generalizing ps with
    | nil => exact h
    | cons c cs ih => exact ih (hP.applied h s.key c)
  rw [(packets_handleInput s b now).1]
  exact hfold _ h

/-- what is kept of each packet holds of it whatever is done with the sender -/
theorem each_of_reaches (h : Each P s.packets) (hr : s.Reaches s') : Each P s'.packets := by
  induction hr with
  | refl => exact h
  | transmit _ ih => exact hP.emit? ih
  | input b now _ ih => exact hP.handleInput ih b now
  | control line now _ ih => exact hP.handleControl ih line now
  | status now _ ih => exact hP.pollStatus ih now

end

/-! ## The packets it was made of -/

/-- packet `n` is the framed packet `n` of these, with a table for its bursts -/
def Tables (fs : List Framed) (n : Nat) (x : Outbound) : Prop := ∃ f, fs[n]? = some f ∧ Tabled f x

theorem keeps_tables (fs : List Framed) : Keeps (Tables fs) where
  settle := fun ⟨f, hf, ht⟩ hs => ⟨f, hf, (settles_settle _ hs).tabled ht⟩
  send := fun ⟨f, hf, ht⟩ hs i => ⟨f, hf, tabled_send ht hs i⟩
  apply := fun ⟨f, hf, ht⟩ line => ⟨f, hf, tabled_apply ht line⟩
  solicit := fun ⟨f, hf, ht⟩ => ⟨f, hf, tabled_solicit ht⟩

section
variable {fs : List Framed} {s s' : Sender}

theorem tables_new (fs : List Framed) : Each (Tables fs) (fs.map .new) := by
  intro n x hx
  rw [List.getElem?_map, Option.map_eq_some_iff] at hx
  obtain ⟨f, hf, rfl⟩ := hx
  exact ⟨f, hf, tabled_new f⟩

/-- whatever is done with a sender, its packets stay those it was made of -/
theorem tables_of_reaches (h : Each (Tables fs) s.packets) (hr : s.Reaches s') :
    Each (Tables fs) s'.packets := each_of_reaches (keeps_tables fs) h hr

theorem exists_tabled {ps : List Outbound} (h : Each (Tables fs) ps) :
    ∀ x ∈ ps, ∃ f, Tabled f x := by
  intro x hx
  obtain ⟨n, hn⟩ := List.getElem?_of_mem hx
  obtain ⟨f, -, hf⟩ := h n x hn
  exact ⟨f, hf⟩

end

end Shoreline.Sender
