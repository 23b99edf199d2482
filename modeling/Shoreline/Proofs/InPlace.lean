import Shoreline.Proofs.Acquisition

/-!
# Acquisition in place

A builder that is changed in place keeps whatever a call has done to it before the call fails, so that
a source that breaks off could leave a part of an item behind and move every later one.  Here the
calls are programs of this kind (`Acquiring`), a source is read part by part, and `perform` makes a
call.  Since nothing is written before all has been read and its length is known, what is left is the
same as for the calls that give a builder only when they succeed (`outcome_perform`).

* `samples_perform`        one call adds what it brings, or nothing;
* `acquired_atomically`    a sequence of calls leaves what the successful ones bring, and whole items.
-/

namespace Shoreline

/-! ## Programs that change a builder -/

/-- changes a builder in place and may fail; what it has changed by then stays changed -/
abbrev Acquiring (α : Type) := ExceptT Fault (StateM Builder) α

namespace Acquiring

variable {α β : Type}

/-- what a program gives, or why it fails, and the builder that it leaves -/
def outcome (x : Acquiring α) (b : Builder) : Except Fault α × Builder := x.run.run b

def setSensorId (s : Sensor) (id : SensorId) : Acquiring Unit :=
  modify fun b => { b with sensorIds := b.sensorIds.set s id }

def append (s : Sensor) (items : Bytes) : Acquiring Unit := do
  if items.length % s.itemSize ≠ 0 then
    throw (.partialItem s items.length)
  modify fun b => { b with samples := b.samples.set s (b.samples.get s ++ items) }

def readToEnd (source : Source) : Acquiring Bytes := do
  let mut items := []
  for part in source.parts do
    items := items ++ part
  match source.failure with
  | some text => throw (.source text)
  | none => return items

/-- adds all items of a source and gives their number -/
def read (s : Sensor) (source : Source) : Acquiring Nat := do
  let items ← readToEnd source
  append s items
  return items.length / s.itemSize

variable (b : Builder) (s : Sensor)

theorem outcome_bind (x : Acquiring α) (f : α → Acquiring β) :
    (x >>= f).outcome b =
      match x.outcome b with
      | (.ok a, b') => (f a).outcome b'
      | (.error e, b') => (.error e, b') := by
  rw [outcome, outcome, ExceptT.run_bind, StateT.run_bind]
  cases x.run.run b with
  | mk r b' => cases r <;> rfl

theorem outcome_append (items : Bytes) :
    (append s items).outcome b =
      match b.append s items with
      | .ok b' => (.ok (), b')
      | .error e => (.error e, b) := by
  rw [append, Builder.append]
  split <;> rfl

theorem outcome_gather (parts : List Bytes) (items : Bytes) :
    (forIn parts items fun part items => (pure (.yield (items ++ part)) : Acquiring _)).outcome b =
      (.ok (items ++ parts.flatten), b) := by
  induction parts generalizing items with
  | nil =>
    rw [List.flatten_nil, List.append_nil]
    rfl
  | cons part parts ih =>
    rw [List.forIn_cons, List.flatten_cons, ← List.append_assoc]
    exact ih (items ++ part)

/-- reading does not touch the builder, wherever the source breaks off -/
theorem outcome_readToEnd (source : Source) :
    (readToEnd source).outcome b = (source.contents, b) := by
  rw [readToEnd, Source.contents, outcome_bind]
  dsimp only
  rw [outcome_gather]
  cases source.failure <;> rfl

theorem outcome_read (source : Source) :
    (read s source).outcome b =
      match b.read s source with
      | .ok (n, b') => (.ok n, b')
      | .error e => (.error e, b) := by
  rw [read, outcome_bind, outcome_readToEnd, Builder.read]
  cases source.contents with
  | error e => rfl
  | ok items =>
    dsimp only
    rw [outcome_bind, outcome_append]
    dsimp only [bind, Except.bind]
    cases b.append s items <;> rfl

end Acquiring

namespace Builder

/-! ## Calls -/

/-- why items cannot be appended, if they are not whole -/
def partialItem? (s : Sensor) (items : Bytes) : Option Fault :=
  if s.itemSize ∣ items.length then none else some (.partialItem s items.length)

namespace Call

/-- the bytes that a call brings for class `s` -/
def bytes (s : Sensor) : Call → Bytes
  | .setSensorId _ _ => []
  | .append t items => if t = s then items else []
  | .read t source => if t = s then source.parts.flatten else []

/-- why a call fails, whichever builder it is made on -/
def fault? : Call → Option Fault
  | .setSensorId _ _ => none
  | .append s items => partialItem? s items
  | .read s source =>
    match source.failure with
    | some text => some (.source text)
    | none => partialItem? s source.parts.flatten

/-- the number of items, which only reading gives -/
def count? : Call → Option Nat
  | .setSensorId _ _ => none
  | .append _ _ => none
  | .read s source => some (source.parts.flatten.length / s.itemSize)

def result (c : Call) : Except Fault (Option Nat) :=
  match c.fault? with
  | some e => .error e
  | none => .ok c.count?

end Call

/-- makes a call in place -/
def perform : Call → Acquiring (Option Nat)
  | .setSensorId s id => do
    Acquiring.setSensorId s id
    return none
  | .append s items => do
    Acquiring.append s items
    return none
  | .read s source => return some (← Acquiring.read s source)

section
variable (b : Builder)

/-- a source that ends is read as if its parts were appended together -/
theorem call_read (s : Sensor) (source : Source) :
    b.call (.read s source) =
      match source.failure with
      | some text => .error (.source text)
      | none => b.append s source.parts.flatten := by
  rw [call, read, Source.contents]
  cases source.failure with
  | some text => rfl
  | none =>
    dsimp only [bind, Except.bind]
    cases b.append s source.parts.flatten <;> rfl

theorem append_of_partialItem {s : Sensor} {items : Bytes} {e : Fault}
    (h : partialItem? s items = some e) : b.append s items = .error e := by
  rw [partialItem?] at h
  split at h
  · exact absurd h (by simp)
  · next hdvd =>
    rw [← Option.some.inj h]
    exact if_pos (mt Nat.dvd_of_mod_eq_zero hdvd)

theorem append_of_whole {s : Sensor} {items : Bytes} (h : partialItem? s items = none) :
    ∃ b', b.append s items = .ok b' ∧
      ∀ t, b'.samples.get t = b.samples.get t ++ if s = t then items else [] := by
  rw [partialItem?] at h
  split at h
  · next hdvd =>
    refine ⟨_, if_neg (not_not_intro (Nat.mod_eq_zero_of_dvd hdvd)), fun t => ?_⟩
    dsimp only
    split
    · next ht => rw [← ht, PerSensor.get_set]
    · next ht => rw [PerSensor.get_set_ne _ (Ne.symm ht), List.append_nil]
  · exact absurd h (by simp)

theorem call_of_fault {c : Call} {e : Fault} (h : c.fault? = some e) : b.call c = .error e := by
  cases c with
  | setSensorId s id => exact absurd h (by simp [Call.fault?])
  | append s items => exact append_of_partialItem b h
  | read s source =>
    rw [Call.fault?] at h
    rw [call_read]
    split at h
    · rw [← Option.some.inj h]
    · exact append_of_partialItem b h

theorem exists_call {c : Call} (h : c.fault? = none) :
    ∃ b', b.call c = .ok b' ∧ ∀ t, b'.samples.get t = b.samples.get t ++ c.bytes t := by
  cases c with
  | setSensorId s id => exact ⟨_, rfl, fun _ => (List.append_nil _).symm⟩
  | append s items => exact append_of_whole b h
  | read s source =>
    rw [Call.fault?] at h
    rw [call_read]
    split at h
    · exact absurd h (by simp)
    · exact append_of_whole b h

/-- made in place, a call that fails leaves the builder as it was -/
theorem outcome_perform (c : Call) :
    (perform c).outcome b =
      match b.call c with
      | .ok b' => (.ok c.count?, b')
      | .error e => (.error e, b) := by
  cases c with
  | setSensorId s id => rfl
  | append s items =>
    rw [perform, Acquiring.outcome_bind, Acquiring.outcome_append, call]
    cases b.append s items <;> rfl
  | read s source =>
    rw [perform, Acquiring.outcome_bind, Acquiring.outcome_read, call, read, Source.contents]
    cases source.failure with
    | some text => rfl
    | none =>
      dsimp only [bind, Except.bind]
      cases b.append s source.parts.flatten <;> rfl

end

variable {b : Builder} {c : Call}

theorem outcome_of_fault {e : Fault} (h : c.fault? = some e) :
    (perform c).outcome b = (c.result, b) := by
  rw [outcome_perform, call_of_fault b h, Call.result, h]

theorem outcome_of_not_fault (h : c.fault? = none) :
    ((perform c).outcome b).1 = c.result ∧
      ∀ s, ((perform c).outcome b).2.samples.get s = b.samples.get s ++ c.bytes s := by
  obtain ⟨b', hcall, hsamples⟩ := exists_call b h
  rw [outcome_perform, hcall, Call.result, h]
  exact ⟨rfl, hsamples⟩

theorem result_perform (b : Builder) (c : Call) : ((perform c).outcome b).1 = c.result := by
  cases h : c.fault? with
  | some e => rw [outcome_of_fault h]
  | none => exact (outcome_of_not_fault h).1

theorem eq_of_error {e : Fault} (h : ((perform c).outcome b).1 = .error e) :
    ((perform c).outcome b).2 = b := by
  cases hc : c.fault? with
  | some e => rw [outcome_of_fault hc]
  | none =>
    rw [result_perform, Call.result, hc] at h
    exact absurd h (by simp)

/-! ## A sequence of calls -/

/-- makes the calls one after the other, whether they fail or not, and gives each with its result -/
def performAll (b : Builder) : List Call → List (Call × Except Fault (Option Nat)) × Builder
  | [] => ([], b)
  | c :: calls =>
    let x := (perform c).outcome b
    let y := x.2.performAll calls
    ((c, x.1) :: y.1, y.2)

/-- the bytes that the calls that succeeded have brought for class `s` -/
def brought (s : Sensor) (log : List (Call × Except Fault (Option Nat))) : Bytes :=
  log.flatMap fun
    | (c, .ok _) => c.bytes s
    | (_, .error _) => []

theorem brought_cons (s : Sensor) (x : Call × Except Fault (Option Nat))
    (log : List (Call × Except Fault (Option Nat))) :
    brought s (x :: log) = brought s [x] ++ brought s log := by
  rw [brought, brought, brought, List.flatMap_singleton, List.flatMap_cons]

theorem samples_perform (b : Builder) (c : Call) (s : Sensor) :
    ((perform c).outcome b).2.samples.get s = b.samples.get s ++ brought s [(c, c.result)] := by
  rw [brought, List.flatMap_singleton, Call.result]
  cases h : c.fault? with
  | some e =>
    rw [outcome_of_fault h]
    exact (List.append_nil _).symm
  | none => exact (outcome_of_not_fault h).2 s

theorem log_performAll (b : Builder) (calls : List Call) :
    (b.performAll calls).1 = calls.map fun c => (c, c.result) := by
  induction calls generalizing b with
  | nil => rfl
  | cons c calls ih => rw [performAll, ih, result_perform, List.map_cons]

theorem samples_performAll (b : Builder) (calls : List Call) (s : Sensor) :
    (b.performAll calls).2.samples.get s =
      b.samples.get s ++ brought s (b.performAll calls).1 := by
  rw [log_performAll]
  induction calls generalizing b with
  | nil => exact (List.append_nil _).symm
  | cons c calls ih =>
    rw [performAll, ih, samples_perform, List.append_assoc, ← brought_cons, List.map_cons]

theorem performAll_eq_acquire (b : Builder) (calls : List Call) :
    (b.performAll calls).2 = b.acquire calls := by
  induction calls generalizing b with
  | nil => rfl
  | cons c calls ih =>
    have hafter : ((perform c).outcome b).2 = b.after c := by
      rw [outcome_perform, after]
      cases b.call c <;> rfl
    rw [performAll, ih, hafter]
    rfl

/-- Whatever calls are made on a new builder, in place and whether they fail or not: it is left as
`acquire` gives it.  Whether a call fails is decided by the call, and one that fails leaves any builder
as it was.  When acquisition has ended, each class holds the bytes of the calls that succeeded, in their
order, and whole items only. -/
theorem acquired_atomically (serial profile : UInt16) (calls : List Call) :
    let log := ((new serial profile).performAll calls).1
    let cast := ((new serial profile).performAll calls).2.finalize
    cast = ((new serial profile).acquire calls).finalize ∧
      log = calls.map (fun c => (c, c.result)) ∧
      (∀ (b : Builder) (c : Call) (e : Fault),
        ((perform c).outcome b).1 = .error e → ((perform c).outcome b).2 = b) ∧
      ∀ s, cast.samples.get s = brought s log ∧ s.itemSize ∣ (cast.samples.get s).length := by
  intro log cast
  have hcast : cast = ((new serial profile).acquire calls).finalize :=
    congrArg finalize (performAll_eq_acquire _ _)
  refine ⟨hcast, log_performAll _ _, fun _ _ _ => eq_of_error, fun s => ⟨?_, ?_⟩⟩
  · have hempty : (new serial profile).samples.get s = [] := PerSensor.get_of _ s
    have hsamples := samples_performAll (new serial profile) calls s
    rwa [hempty, List.nil_append] at hsamples
  · rw [hcast]
    exact dvd_acquire serial profile calls s

/-- the second call has a source that fails inside an item, the third and the fifth bring a part of one -/
def tornCalls : List Call :=
  [.append .ocr (.replicate 64 1),
    .read .ocr ⟨[.replicate 32 2, .replicate 20 3], some "unplugged"⟩,
    .append .mcoms (.replicate 41 4), .read .ocr ⟨[.replicate 20 5, .replicate 12 6], none⟩,
    .read .mcoms ⟨[.replicate 39 7], none⟩, .append .mcoms (.replicate 40 8)]

theorem torn_calls_leave_nothing :
    let log := ((new 770 12345).performAll tornCalls).1
    let cast := ((new 770 12345).performAll tornCalls).2.finalize
    let b := ((new 770 12345).performAll (tornCalls.take 1)).2
    let torn :=
      (perform (.read .ocr ⟨[.replicate 32 2, .replicate 20 3], some "unplugged"⟩)).outcome b
    log.map Prod.snd = [.ok none, .error (.source "unplugged"), .error (.partialItem .mcoms 41),
      .ok (some 1), .error (.partialItem .mcoms 39), .ok none] ∧
    (torn.1 = .error (.source "unplugged") ∧ torn.2 = b) ∧
    cast.samples.get .ocr = .replicate 64 1 ++ (.replicate 20 5 ++ .replicate 12 6) ∧
    cast.samples.get .mcoms = .replicate 40 8 ∧ cast.samples.get .port = [] := by
  intro log cast b torn
  obtain ⟨-, hlog, hfails, hsamples⟩ := acquired_atomically 770 12345 tornCalls
  have htorn : torn.1 = .error (.source "unplugged") := rfl
  exact ⟨(congrArg (List.map Prod.snd) hlog).trans rfl, ⟨htorn, hfails _ _ _ htorn⟩,
    (hsamples .ocr).1.trans rfl, (hsamples .mcoms).1.trans rfl, (hsamples .port).1.trans rfl⟩

end Builder

end Shoreline
