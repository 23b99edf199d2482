import Shoreline.Link.Duplex

/-!
# A link in memory is two queues

Whatever is done at the two ends of a new link, the bytes that an end was given and those it can still
read are, put together, the bytes that were written through at the other end (`conserved_run`).  So
what was done before decides what is reported next: the bytes that follow, or that the link is closed
(`queues_in_order`).  And all that is done in one direction can be left out without a change in the
other (`Alike.filter_log`); only closing belongs to both.

* `Act`, `act`, `log`, `run`   what can be done at the ends, and what it reports;
* `sent`, `got`                the bytes that went into and came out of a queue;
* `conserved_act`              what one act moves.
-/

namespace Shoreline

theorem End.other_other (e : End) : e.other.other = e := by cases e <;> rfl

namespace Duplex

theorem inbound_setInbound (d : Duplex) (e e' : End) (b : Bytes) :
    (d.setInbound e' b).inbound e = if e' = e then b else d.inbound e := by
  cases e <;> cases e' <;> rfl

theorem closed_setInbound (d : Duplex) (e : End) (b : Bytes) :
    (d.setInbound e b).closed = d.closed := by cases e <;> rfl

/-! ## A link at work -/

/-- what can be done at an end -/
inductive Act where
  | write (e : End) (b : Bytes)
  /-- with a buffer of `n` bytes -/
  | read (e : End) (n : Nat)
  | close (e : End)
  deriving DecidableEq, Repr

def Act.isClose : Act → Bool
  | write _ _ => false
  | read _ _ => false
  | close _ => true

/-- what an act gives its caller, or why it fails, and the link afterwards; one that fails leaves the
link as it is -/
def act (d : Duplex) : Act → Except LinkFault Bytes × Duplex
  | .write e b => match d.write e b with
    | .ok d' => (.ok [], d')
    | .error f => (.error f, d)
  | .read e n => match d.read e n with
    | .ok (b, d') => (.ok b, d')
    | .error f => (.error f, d)
  | .close _ => (.ok [], d.close)

/-- the acts with what each of them reports -/
def log (d : Duplex) : List Act → List (Act × Except LinkFault Bytes)
  | [] => []
  | a :: acts => (a, (d.act a).1) :: (d.act a).2.log acts

def run (d : Duplex) (acts : List Act) : Duplex := acts.foldl (fun d a => (d.act a).2) d

theorem run_cons (d : Duplex) (a : Act) (acts : List Act) :
    d.run (a :: acts) = (d.act a).2.run acts := rfl

/-- the bytes that were written through at an end -/
def sent (e : End) (entries : List (Act × Except LinkFault Bytes)) : Bytes :=
  entries.flatMap fun
    | (.write e' b, .ok _) => if e' = e then b else []
    | _ => []

/-- the bytes that an end was given -/
def got (e : End) (entries : List (Act × Except LinkFault Bytes)) : Bytes :=
  entries.flatMap fun
    | (.read e' _, .ok b) => if e' = e then b else []
    | _ => []

theorem sent_cons (e : End) (x : Act × Except LinkFault Bytes)
    (entries : List (Act × Except LinkFault Bytes)) :
    sent e (x :: entries) = sent e [x] ++ sent e entries := by
  rw [sent, sent, sent, List.flatMap_singleton, List.flatMap_cons]

theorem got_cons (e : End) (x : Act × Except LinkFault Bytes)
    (entries : List (Act × Except LinkFault Bytes)) :
    got e (x :: entries) = got e [x] ++ got e entries := by
  rw [got, got, got, List.flatMap_singleton, List.flatMap_cons]

/-! ## What one act does -/

section
variable (d : Duplex) (e e' : End) (b : Bytes) (n : Nat)

theorem act_write :
    d.act (.write e b) =
      if d.closed then (.error .closed, d)
      else (.ok [], d.setInbound e.other (d.inbound e.other ++ b)) := by
  rw [act, write]
  cases d.closed <;> rfl

theorem act_read :
    d.act (.read e n) =
      if d.inbound e = [] ∧ d.closed then (.error .closed, d)
      else (.ok ((d.inbound e).take n), d.setInbound e ((d.inbound e).drop n)) := by
  rw [act, read]
  by_cases h : d.inbound e = [] ∧ d.closed
  · rw [if_pos h, if_pos h]
  · rw [if_neg h, if_neg h]

theorem report_write :
    (d.act (.write e b)).1 = if d.closed then .error .closed else .ok [] := by
  rw [act_write]
  split <;> rfl

theorem report_read :
    (d.act (.read e n)).1 =
      if d.inbound e = [] ∧ d.closed then .error .closed else .ok ((d.inbound e).take n) := by
  rw [act_read]
  split <;> rfl

theorem inbound_write :
    (d.act (.write e' b)).2.inbound e =
      if e' = e.other ∧ d.closed = false then d.inbound e ++ b else d.inbound e := by
  rw [act_write]
  cases hc : d.closed with
  | true => rw [if_pos rfl, if_neg (by simp)]
  | false =>
    rw [if_neg (by simp)]
    by_cases he : e' = e.other
    · rw [if_pos ⟨he, rfl⟩, he, End.other_other]
      exact (inbound_setInbound ..).trans (if_pos rfl)
    · have hne : ¬ e'.other = e := fun h => he (by rw [← h, End.other_other])
      rw [if_neg (he ·.1)]
      exact (inbound_setInbound ..).trans (if_neg hne)

theorem inbound_read :
    (d.act (.read e' n)).2.inbound e = if e' = e then (d.inbound e).drop n else d.inbound e := by
  rw [act_read]
  split
  · next h =>
    split
    · next he => rw [← he, h.1, List.drop_nil]
    · rfl
  · rw [inbound_setInbound]
    split
    · next he => rw [he]
    · rfl

theorem inbound_close : (d.act (.close e')).2.inbound e = d.inbound e := by cases e <;> rfl

end

theorem closed_act (d : Duplex) (a : Act) : (d.act a).2.closed = (d.closed || a.isClose) := by
  cases a with
  | write e b =>
    rw [act_write, Act.isClose, Bool.or_false]
    split
    · rfl
    · exact closed_setInbound ..
  | read e n =>
    rw [act_read, Act.isClose, Bool.or_false]
    split
    · rfl
    · exact closed_setInbound ..
  | close e => exact (Bool.or_true _).symm

/-- no byte is lost, added or moved past another -/
theorem conserved_act (d : Duplex) (a : Act) (e : End) :
    d.inbound e ++ sent e.other [(a, (d.act a).1)] =
      got e [(a, (d.act a).1)] ++ (d.act a).2.inbound e := by
  cases a with
  | write e' b =>
    have hgot (r : Except LinkFault Bytes) : got e [(.write e' b, r)] = [] := rfl
    rw [hgot, report_write, inbound_write, List.nil_append]
    cases d.closed <;> by_cases he : e' = e.other <;> simp [sent, he]
  | read e' n =>
    have hsent (r : Except LinkFault Bytes) : sent e.other [(.read e' n, r)] = [] := rfl
    rw [hsent, report_read, inbound_read, List.append_nil]
    by_cases he : e' = e
    · subst he
      split
      · next h => simp [got, h.1]
      · simp [got]
    · rw [if_neg he]
      split <;> simp [got, he]
  | close e' =>
    rw [inbound_close]
    exact List.append_nil _

/-! ## A whole run -/

theorem closed_run (d : Duplex) (acts : List Act) :
    (d.run acts).closed = (d.closed || acts.any Act.isClose) := by
  induction acts generalizing d with
  | nil => exact (Bool.or_false _).symm
  | cons a acts ih => rw [run_cons, ih, closed_act, List.any_cons, Bool.or_assoc]

theorem conserved_run (d : Duplex) (acts : List Act) (e : End) :
    d.inbound e ++ sent e.other (d.log acts) = got e (d.log acts) ++ (d.run acts).inbound e := by
  induction acts generalizing d with
  | nil => exact List.append_nil _
  | cons a acts ih =>
    rw [run_cons, log, sent_cons, got_cons, ← List.append_assoc, conserved_act, List.append_assoc,
      ih, List.append_assoc]

theorem sent_eq_got_append (acts : List Act) (e : End) :
    sent e.other (new.log acts) = got e (new.log acts) ++ (new.run acts).inbound e := by
  have hall := conserved_run new acts e
  rwa [show new.inbound e = [] by cases e <;> rfl, List.nil_append] at hall

/-! ## One direction alone -/

/-- the act works on the queue that is read at `e`; closing works on both -/
def Act.concerns (e : End) : Act → Bool
  | write e' _ => e' = e.other
  | read e' _ => e' = e
  | close _ => true

/-- links that are alike for what is read at `e` -/
structure Alike (e : End) (d d' : Duplex) : Prop where
  inbound : d.inbound e = d'.inbound e
  closed : d.closed = d'.closed

variable {e : End} {d d' : Duplex}

theorem Alike.act (h : Alike e d d') {a : Act} (ha : a.concerns e) :
    (d.act a).1 = (d'.act a).1 ∧ Alike e (d.act a).2 (d'.act a).2 := by
  have hclosed : (d.act a).2.closed = (d'.act a).2.closed := by
    rw [closed_act, closed_act, h.closed]
  cases a with
  | write e' b =>
    refine ⟨?_, ?_, hclosed⟩
    · rw [report_write, report_write, h.closed]
    · rw [inbound_write, inbound_write, h.inbound, h.closed]
  | read e' n =>
    obtain rfl := of_decide_eq_true ha
    refine ⟨?_, ?_, hclosed⟩
    · rw [report_read, report_read, h.inbound, h.closed]
    · rw [inbound_read, inbound_read, h.inbound]
  | close e' =>
    refine ⟨rfl, ?_, hclosed⟩
    rw [inbound_close, inbound_close, h.inbound]

theorem Alike.skip (h : Alike e d d') {a : Act} (ha : ¬ a.concerns e) :
    Alike e (d.act a).2 d' := by
  cases a with
  | write e' b =>
    have hne : ¬ e' = e.other := fun he => ha (decide_eq_true he)
    refine ⟨?_, ?_⟩
    · rw [inbound_write, if_neg (hne ·.1), h.inbound]
    · rw [closed_act, Act.isClose, Bool.or_false, h.closed]
  | read e' n =>
    have hne : ¬ e' = e := fun he => ha (decide_eq_true he)
    refine ⟨?_, ?_⟩
    · rw [inbound_read, if_neg hne, h.inbound]
    · rw [closed_act, Act.isClose, Bool.or_false, h.closed]
  | close e' => exact absurd rfl ha

/-- the acts of the other direction can be left out -/
theorem Alike.filter_log (h : Alike e d d') (acts : List Act) :
    (d.log acts).filter (fun x => x.1.concerns e) = d'.log (acts.filter (Act.concerns e)) ∧
      Alike e (d.run acts) (d'.run (acts.filter (Act.concerns e))) := by
  induction acts generalizing d d' with
  | nil => exact ⟨rfl, h⟩
  | cons a acts ih =>
    rw [log, run_cons]
    by_cases ha : a.concerns e
    · obtain ⟨hreport, hafter⟩ := h.act ha
      obtain ⟨hlog, hrun⟩ := ih hafter
      rw [List.filter_cons, if_pos ha, List.filter_cons, if_pos ha, log, run_cons, hreport, hlog]
      exact ⟨rfl, hrun⟩
    · rw [List.filter_cons, if_neg ha, List.filter_cons, if_neg ha]
      exact ih (h.skip ha)

/-- Whatever was done at the two ends of a new link: an end was given the first of the bytes written
through at the other end, in order, and the rest is there to be read.  Once an end was closed, a write
fails and adds nothing, and a read gives the next bytes as before and fails only when there are none.
What is reported and left in one direction is the same without the acts of the other. -/
theorem queues_in_order (acts : List Act) (e : End) :
    let d := new.run acts
    let written := sent e.other (new.log acts)
    let given := got e (new.log acts)
    let closed := acts.any Act.isClose
    written = given ++ d.inbound e ∧ given.length + d.pending e = written.length ∧
      (closed = false → ∀ b, (d.act (.write e b)).1 = .ok []) ∧
      (closed = true → ∀ b, d.act (.write e b) = (.error .closed, d)) ∧
      (∀ n, (d.act (.read e n)).1 =
        if closed = true ∧ given = written then .error .closed
        else .ok ((written.drop given.length).take n)) ∧
      (new.log acts).filter (fun x => x.1.concerns e) = new.log (acts.filter (Act.concerns e)) ∧
      d.inbound e = (new.run (acts.filter (Act.concerns e))).inbound e := by
  intro d written given closed
  have hall : written = given ++ d.inbound e := sent_eq_got_append acts e
  have hrest : written.drop given.length = d.inbound e := by rw [hall, List.drop_left]
  have hclosed : d.closed = closed := closed_run new acts
  have hnone : closed = true ∧ given = written ↔ d.inbound e = [] ∧ d.closed := by
    rw [hclosed, hall, List.self_eq_append_right, and_comm]
  obtain ⟨hlog, hrun⟩ := (show Alike e new new from ⟨rfl, rfl⟩).filter_log acts
  refine ⟨hall, ?_, fun h b => ?_, fun h b => ?_, fun n => ?_, hlog, hrun.inbound⟩
  · rw [hall, List.length_append, pending]
  · rw [report_write, hclosed, h]
    rfl
  · rw [act_write, hclosed, if_pos h]
  · rw [report_read, hrest]
    simp only [hnone]

/-- bytes are under way in both directions when an end is closed: writes fail from then on, and what is
under way is read before that fails too -/
theorem closed_under_way :
    let acts := [Act.write .a [1, 2, 3], .write .b [7, 8], .read .b 2, .close .b]
    let d := new.run acts
    (acts.any Act.isClose = true ∧ d.act (.write .a [4]) = (.error .closed, d)) ∧
      ((acts.take 3).any Act.isClose = false ∧
        ((new.run (acts.take 3)).act (.write .a [4])).1 = .ok []) ∧
      got .b (new.log acts) = [1, 2] ∧ sent .a (new.log acts) = [1, 2, 3] ∧
      d.pending .a = 2 ∧ (d.act (.read .b 5)).1 = .ok [3] ∧
      ((d.run [.read .b 5]).act (.read .b 5)).1 = .error .closed := by
  intro acts d
  have hclosed : acts.any Act.isClose = true := rfl
  have hopen : (acts.take 3).any Act.isClose = false := rfl
  obtain ⟨-, -, -, hfails, -⟩ := queues_in_order acts .a
  obtain ⟨-, -, hwrites, -⟩ := queues_in_order (acts.take 3) .a
  obtain ⟨-, -, -, -, hreads, -⟩ := queues_in_order acts .b
  obtain ⟨-, -, -, -, hends, -⟩ := queues_in_order (acts ++ [.read .b 5]) .b
  exact ⟨⟨hclosed, hfails hclosed [4]⟩, ⟨hopen, hwrites hopen [4]⟩, rfl, rfl, rfl, hreads 5, hends 5⟩

end Duplex

end Shoreline
