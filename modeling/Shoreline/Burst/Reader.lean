import Shoreline.Burst

/-!
# Scanning for bursts

A reader finds the valid bursts in a stream of bytes that arrives in pieces.  Bytes in front of the
magic are dropped; behind a magic that begins no valid burst the search goes on, so that a damaged
burst does not hide the one behind it.

* `next`         the next valid burst;
* `drain`        all of them;
* `skipStalled`  gives up a burst that is still incomplete.

`drain` ends because every burst and every rejected unit shortens the buffer (`next_shorter`).
-/

namespace Shoreline

structure BurstReader where
  /-- bytes not consumed yet -/
  buffer : Bytes
  mostPayload : Nat
  /-- units that did not parse or verify, or were given up -/
  rejected : Nat
  /-- units with a wrong checksum -/
  mismatches : Nat

namespace BurstReader

def new (mostPayload : Nat) : BurstReader := ⟨[], mostPayload, 0, 0⟩

def push (r : BurstReader) (b : Bytes) : BurstReader := { r with buffer := r.buffer ++ b }

/-- the buffer from its first magic on -/
def seek? : Bytes → Option Bytes
  | [] => none
  | x :: b => if Burst.magic.isPrefixOf (x :: b) then some (x :: b) else seek? b

/-- the last bytes of a buffer without a magic, which may begin one -/
def lastPart (b : Bytes) : Bytes := b.drop (b.length - 3)

/-- notes a unit that is passed over -/
def reject (r : BurstReader) (e : Fault) : BurstReader :=
  { r with
    rejected := r.rejected + 1
    mismatches := match e with
      | .checksum _ _ => r.mismatches + 1
      | _ => r.mismatches }

theorem length_seek? {b t : Bytes} (h : seek? b = some t) : 4 ≤ t.length ∧ t.length ≤ b.length := by
  induction b with
  | nil => exact absurd h (by simp [seek?])
  | cons x b ih =>
    rw [seek?] at h
    split at h
    · next hp =>
      obtain rfl := Option.some.inj h
      have := (List.isPrefixOf_iff_prefix.mp hp).length_le
      exact ⟨this, Nat.le_refl _⟩
    · have := ih h
      rw [List.length_cons]
      omega

/-- searches the bytes `b` in place of the buffer -/
def scan (r : BurstReader) (b : Bytes) : Option Burst × BurstReader :=
  match h : seek? b with
  | none => (none, { r with buffer := lastPart b })
  | some t =>
    match Burst.parse r.mostPayload t with
    | .ok (some (burst, used)) => (some burst, { r with buffer := t.drop used })
    | .ok none => (none, { r with buffer := t })
    | .error e =>
      have := length_seek? h
      scan (r.reject e) (t.drop 4)
termination_by b.length
decreasing_by simp only [List.length_drop]; omega

/-- the next valid burst, if it is complete -/
def next (r : BurstReader) : Option Burst × BurstReader := r.scan r.buffer

/-- gives up the burst that is still arriving; says whether there was one -/
def skipStalled (r : BurstReader) : Bool × BurstReader :=
  if Burst.magic.isPrefixOf r.buffer then
    (true, { r with buffer := r.buffer.drop 4, rejected := r.rejected + 1 })
  else (false, r)

/-! ## All bursts of a buffer -/

theorem parse_used {m n : Nat} {b : Bytes} {burst : Burst}
    (h : Burst.parse m b = .ok (some (burst, n))) : 0 < n := by
  unfold Burst.parse at h
  simp only at h
  split at h
  · exact absurd h (by simp)
  split at h
  · exact absurd h (by simp)
  split at h
  · exact absurd h (by simp)
  obtain ⟨key, _, h⟩ := bind_eq_ok h
  obtain ⟨found, _, h⟩ := bind_eq_ok h
  have fixed : ∀ {x : Burst}, (Except.ok (some (x, Burst.overhead)) : Except Fault _)
      = .ok (some (burst, n)) → 0 < n := by
    intro x hx
    obtain ⟨_, rfl⟩ := Prod.mk.inj (Option.some.inj (Except.ok.inj hx))
    decide
  split at h
  · obtain ⟨_, _, h⟩ := bind_eq_ok h
    exact fixed h
  obtain ⟨index, _, h⟩ := bind_eq_ok h
  obtain ⟨size, _, h⟩ := bind_eq_ok h
  split at h
  · obtain ⟨_, _, h⟩ := bind_eq_ok h
    exact fixed h
  unfold Burst.parseData at h
  simp only at h
  split at h
  · exact absurd h (by simp)
  split at h
  · exact absurd h (by simp)
  obtain ⟨_, _, h⟩ := bind_eq_ok h
  obtain ⟨_, rfl⟩ := Prod.mk.inj (Option.some.inj (Except.ok.inj h))
  simp only [Burst.overhead]
  omega

theorem scan_shorter {r r' : BurstReader} {b : Bytes} {burst : Burst}
    (h : r.scan b = (some burst, r')) : r'.buffer.length < b.length := by
  fun_induction scan r b with
  | case1 r b hs => exact absurd h (by simp)
  | case2 r b t hs burst' used hp =>
    obtain ⟨_, rfl⟩ := Prod.mk.inj h
    have := length_seek? hs
    have := parse_used hp
    simp only [List.length_drop]
    omega
  | case3 r b t hs hp => exact absurd h (by simp)
  | case4 r b t hs e hp hl ih =>
    have := ih h
    simp only [List.length_drop] at this
    omega

theorem next_shorter {r r' : BurstReader} {burst : Burst} (h : r.next = (some burst, r')) :
    r'.buffer.length < r.buffer.length := scan_shorter h

/-- the valid bursts of the buffer, put behind the reversed list `acc` -/
def drainOnto (acc : List Burst) (r : BurstReader) : List Burst × BurstReader :=
  match h : r.next with
  | (none, r) => (acc.reverse, r)
  | (some burst, r') =>
    have := next_shorter h
    drainOnto (burst :: acc) r'
termination_by r.buffer.length

def drain (r : BurstReader) : List Burst × BurstReader := drainOnto [] r

/-- takes in bytes and gives the bursts that they complete -/
def feed (r : BurstReader) (b : Bytes) : List Burst × BurstReader := (r.push b).drain

end BurstReader

end Shoreline
