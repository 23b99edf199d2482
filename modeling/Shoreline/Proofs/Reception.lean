import Shoreline.Proofs.ReceiverFrame
import Shoreline.Proofs.Supply

/-!
# A receiver that hears one profile

While only bursts of one supply come, each of them whole, the reader never keeps anything back, and the
receiver has at most the assembly of that one profile, stocked from the supply (`Tuned`).  Every
operation of the receiver keeps it so.

* `tuned_handleInput`   a burst of the supply comes;
* `tuned_pollTimers`    the timers run;
* `tuned_emit?`         a line is taken from the outbox.
-/

namespace Shoreline

/-- bursts whose wire form is read back by a reader with this limit -/
structure Supply.Readable (u : Supply) (limit : Nat) : Prop where
  fits : ∀ {n k}, u.Has n k → Burst.Fits ⟨⟨u.key, n⟩, k⟩
  payload : ∀ {n k}, u.Has n k → (Burst.payload ⟨⟨u.key, n⟩, k⟩).length ≤ limit

namespace Receiver
open ProfileAssembly

/-- the assembly of a profile, empty when nothing has come of it -/
def assembly (r : Receiver) (key : ProfileKey) : ProfileAssembly :=
  (r.profiles.get? key).getD (.new key)

/-- nothing but the profile of the supply has come, and all of it from the supply -/
structure Tuned (u : Supply) (r : Receiver) : Prop where
  buffer : r.reader.buffer = []
  solo : r.profiles.entries = [] ∨ ∃ s, r.profiles.entries = [(u.key, s)]
  stocked : Stocked u (r.assembly u.key)
  idle : Idle (r.assembly u.key)

variable {u : Supply} {r : Receiver}

/-! ## One profile -/

theorem assembly_of_nil {key : ProfileKey} (h : r.profiles.entries = []) :
    r.assembly key = .new key := by
  rw [assembly, Keyed.get?, h]
  rfl

theorem assembly_of_get? {key : ProfileKey} {s : ProfileAssembly}
    (h : r.profiles.get? key = some s) : r.assembly key = s := by
  rw [assembly, h]
  rfl

theorem assembly_of_solo {key : ProfileKey} {s : ProfileAssembly}
    (h : r.profiles.entries = [(key, s)]) : r.assembly key = s := by
  rw [assembly, Keyed.get?, h, Keyed.find?, if_pos rfl]
  rfl

theorem assembly_update (r : Receiver) (key : ProfileKey) (x : ProfileAssembly × List Answer) :
    (r.update key x).assembly key = x.1 := by
  rw [assembly, update, Keyed.get?_insert]
  rfl

theorem entries_update (x : ProfileAssembly × List Answer)
    (h : r.profiles.entries = [] ∨ ∃ s, r.profiles.entries = [(u.key, s)]) :
    (r.update u.key x).profiles.entries = [(u.key, x.1)] := by
  show Keyed.put u.key x.1 r.profiles.entries = _
  rcases h with h | ⟨s, h⟩
  · rw [h, Keyed.put]
  · rw [h, Keyed.put, if_neg (Nat.lt_irrefl _), if_pos rfl]

/-- an assembly that stays stocked and idle takes the place of the profile's -/
theorem tuned_update (h : Tuned u r) {x : ProfileAssembly × List Answer} (hx : Stocked u x.1)
    (hi : Idle x.1) : Tuned u (r.update u.key x) where
  buffer := h.buffer
  solo := Or.inr ⟨x.1, entries_update x h.solo⟩
  stocked := by rwa [assembly_update]
  idle := by rwa [assembly_update]

theorem Tuned.of_eq {r' : Receiver} (h : Tuned u r) (hp : r'.profiles = r.profiles)
    (hb : r'.reader.buffer = r.reader.buffer) : Tuned u r' := by
  have ha : r'.assembly u.key = r.assembly u.key := by rw [assembly, hp, assembly]
  exact ⟨hb.trans h.buffer, hp ▸ h.solo, ha ▸ h.stocked, ha ▸ h.idle⟩

theorem tuned_new (u : Supply) (config : ReceiverConfig) (now : Nat) :
    Tuned u (.new config now) where
  buffer := rfl
  solo := Or.inl rfl
  stocked := stocked_new u
  idle := idle_new u.key

/-! ## Bursts -/

theorem handleBurst_eq (now : Nat) (r : Receiver) (b : Burst) :
    handleBurst now r b =
      if r.lacksRoom b.kind then
        { r with burstsReceived := r.burstsReceived + 1, lastBurst := now }
      else
        { r with burstsReceived := r.burstsReceived + 1, lastBurst := now }.update
          b.key.toProfileKey
          ((r.assembly b.key.toProfileKey).apply b.key.packet b.kind) := by
  cases hk : b.kind <;> (rw [handleBurst, hk]; rfl)

theorem tuned_handleBurst (h : Tuned u r) {n : UInt16} {k : BurstKind} (hk : u.Has n k)
    (now : Nat) : Tuned u (handleBurst now r ⟨⟨u.key, n⟩, k⟩) := by
  rw [handleBurst_eq]
  split
  · exact h.of_eq rfl rfl
  · obtain ⟨hs, hi⟩ := stocked_apply h.stocked h.idle hk
    exact tuned_update (r := { r with burstsReceived := r.burstsReceived + 1, lastBurst := now })
      (h.of_eq rfl rfl) hs hi

section
variable {limit : Nat} (hu : u.Readable limit) {n : UInt16} {k : BurstKind}
include hu

theorem handleInput_wire (hb : r.reader.buffer = []) (hl : limit ≤ r.reader.mostPayload)
    (hk : u.Has n k) (now : Nat) :
    r.handleInput (Burst.wire ⟨⟨u.key, n⟩, k⟩) now = handleBurst now r ⟨⟨u.key, n⟩, k⟩ :=
  handleInput_whole now
    (Burst.parse_whole _ _ (hu.fits hk) (Nat.le_trans (hu.payload hk) hl)) hb

theorem tuned_handleInput (h : Tuned u r) (hl : limit ≤ r.reader.mostPayload) (hk : u.Has n k)
    (now : Nat) : Tuned u (r.handleInput (Burst.wire ⟨⟨u.key, n⟩, k⟩) now) ∧
      (r.handleInput (Burst.wire ⟨⟨u.key, n⟩, k⟩) now).reader = r.reader := by
  rw [handleInput_wire hu h.buffer hl hk]
  exact ⟨tuned_handleBurst h hk now, reader_handleBurst _ _ _⟩

end

/-! ## Timers -/

theorem profiles_pollHeartbeat (r : Receiver) (now : Nat) :
    (r.pollHeartbeat now).profiles = r.profiles := by
  unfold pollHeartbeat
  split <;> rfl

theorem requestOutstanding_of_nil (h : r.profiles.entries = []) : r.requestOutstanding = r := by
  rw [requestOutstanding, h]
  rfl

theorem requestOutstanding_of_solo {key : ProfileKey} {s : ProfileAssembly}
    (h : r.profiles.entries = [(key, s)]) :
    r.requestOutstanding = if s.isComplete then r else r.update key s.requestOutstanding := by
  rw [requestOutstanding, h]
  rfl

theorem isComplete_of_solo {key : ProfileKey} {s : ProfileAssembly}
    (h : r.profiles.entries = [(key, s)]) : r.isComplete = s.isComplete := by
  rw [isComplete, Keyed.values, h]
  exact Bool.and_true _

/-- with one profile, the timers ask for what is missing of it when the link has been quiet -/
theorem pollTimers_cases (h : Tuned u r) (now : Nat) :
    (r.pollTimers now = r.pollHeartbeat now ∧
      (r.isQuiet now = true → (r.assembly u.key).isComplete = true)) ∨
    (r.isQuiet now = true ∧ r.profiles.entries = [] ∧
      r.pollTimers now = { r.pollHeartbeat now with lastResend := now }) ∨
    (r.isQuiet now = true ∧ r.profiles.entries ≠ [] ∧ (r.assembly u.key).isComplete = false ∧
      r.pollTimers now =
        { (r.pollHeartbeat now).update u.key (r.assembly u.key).requestOutstanding with
          lastResend := now }) := by
  cases hq : r.isQuiet now with
  | false => exact Or.inl ⟨pollTimers_loud hq, fun hf => absurd hf Bool.false_ne_true⟩
  | true =>
    rw [pollTimers_quiet hq (by rw [h.buffer]; decide)]
    have hp := profiles_pollHeartbeat r now
    dsimp only
    rcases h.solo with hnil | ⟨s, hs⟩
    · have hnil' : (r.pollHeartbeat now).profiles.entries = [] := by rw [hp, hnil]
      refine Or.inr (Or.inl ⟨rfl, hnil, ?_⟩)
      rw [if_neg (by rw [isComplete, hnil']; exact Bool.false_ne_true),
        requestOutstanding_of_nil hnil']
    · have hs' : (r.pollHeartbeat now).profiles.entries = [(u.key, s)] := by rw [hp, hs]
      rw [isComplete_of_solo hs', requestOutstanding_of_solo hs', assembly_of_solo hs]
      cases hc : s.isComplete with
      | true => exact Or.inl ⟨rfl, fun _ => rfl⟩
      | false => exact Or.inr (Or.inr ⟨rfl, by rw [hs]; simp, rfl, rfl⟩)

theorem tuned_pollTimers (h : Tuned u r) (now : Nat) : Tuned u (r.pollTimers now) := by
  have hheart : Tuned u (r.pollHeartbeat now) :=
    h.of_eq (profiles_pollHeartbeat r now) (by rw [reader_pollHeartbeat])
  rcases pollTimers_cases h now with ⟨he, -⟩ | ⟨-, -, he⟩ | ⟨-, -, -, he⟩
  · rw [he]
    exact hheart
  · rw [he]
    exact hheart.of_eq rfl rfl
  · obtain ⟨hs, hi⟩ := stocked_requestOutstanding h.stocked h.idle
    rw [he]
    exact (tuned_update hheart hs hi).of_eq rfl rfl

theorem reader_pollTimers_of_tuned (h : Tuned u r) (now : Nat) :
    (r.pollTimers now).reader = r.reader :=
  (reader_pollTimers (Or.inr (by rw [h.buffer]; decide))).1

/-! ## Output -/

theorem profiles_emit? (r : Receiver) : r.emit?.2.profiles = r.profiles := by
  unfold emit?
  split <;> rfl

theorem reader_emit? (r : Receiver) : r.emit?.2.reader = r.reader := by
  unfold emit?
  split <;> rfl

theorem tuned_emit? (h : Tuned u r) : Tuned u r.emit?.2 :=
  h.of_eq (profiles_emit? r) (by rw [reader_emit?])

end Receiver

end Shoreline
