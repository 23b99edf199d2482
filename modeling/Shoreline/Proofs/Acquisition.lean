import Shoreline.Proofs.Acceptance

/-!
# Acquisition

What is done to a builder while a cast is acquired is a sequence of calls, of which any may fail.  A
call that fails leaves the builder as it was, so what is acquired is built by the calls that succeed
(`built_acquire`).
-/

namespace Shoreline.Builder

inductive Call where
  | setSensorId (s : Sensor) (id : SensorId)
  | append (s : Sensor) (items : Bytes)
  | read (s : Sensor) (source : Source)

def call (b : Builder) : Call → Except Fault Builder
  | .setSensorId s id => .ok (b.setSensorId s id)
  | .append s items => b.append s items
  | .read s source => (b.read s source).map Prod.snd

/-- the builder after a call, whether it succeeds or not -/
def after (b : Builder) (c : Call) : Builder :=
  match b.call c with
  | .ok b' => b'
  | .error _ => b

def acquire (b : Builder) (calls : List Call) : Builder := calls.foldl after b

variable {b b' : Builder}

theorem built_call {c : Call} (h : b.Built) (hb : b.call c = .ok b') : b'.Built := by
  cases c with
  | setSensorId s id =>
    rw [← Except.ok.inj hb]
    exact h.setSensorId s id
  | append s items => exact h.append hb
  | read s source =>
    obtain ⟨⟨n, b''⟩, hread, rfl⟩ := map_eq_ok hb
    exact h.read hread

theorem built_after (h : b.Built) (c : Call) : (b.after c).Built := by
  rw [after]
  split
  · next b' hb => exact built_call h hb
  · exact h

theorem built_acquire (h : b.Built) (calls : List Call) : (b.acquire calls).Built := by
  induction calls generalizing b with
  | nil => exact h
  | cons c calls ih => exact ih (built_after h c)

/-- whatever is acquired, and whatever fails on the way, every class holds whole items -/
theorem dvd_acquire (serial profile : UInt16) (calls : List Call) (c : Sensor) :
    c.itemSize ∣ ((((new serial profile).acquire calls).finalize).samples.get c).length :=
  dvd_of_built (built_acquire (.new serial profile) calls) c

/-- two calls fail: one brings part of an item, and one has a source that fails after two items -/
def interruptedCalls : List Call :=
  [.read .port ⟨[List.replicate 8000 5, List.replicate 80 5], none⟩, .append .port [1, 2, 3],
    .setSensorId .port (.ofText "PORT-504"), .read .mcoms ⟨[List.replicate 80 7], some "unplugged"⟩,
    .append .mcoms (List.replicate 80 8)]

end Shoreline.Builder
