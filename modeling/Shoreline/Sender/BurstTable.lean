/-!
# Progress of the bursts of a packet

For each burst of a packet, the announcing and the terminal one included: how far it has come and how
often it was sent.  Every operation changes the status of one burst or of all of them, and only
`markSent` counts an attempt.  The counter of a burst has 32 bits and starts again from zero behind the
last of them.
-/

namespace Shoreline

/-- how far a burst or a packet has come at the sender -/
inductive Progress where
  | unsent
  | sent
  | confirmed
  deriving DecidableEq, Repr, Inhabited

structure BurstRecord where
  status : Progress
  attempts : UInt32
  deriving DecidableEq, Repr

structure BurstTable where
  records : List BurstRecord
  deriving DecidableEq, Repr

namespace BurstTable

/-- nothing sent yet, for a packet with `count` data bursts -/
def new (count : Nat) : BurstTable := ⟨List.replicate (count + 2) ⟨.unsent, 0⟩⟩

def size (t : BurstTable) : Nat := t.records.length

/-- the terminal burst, as a 16-bit burst number -/
def terminalIndex (t : BurstTable) : UInt16 := UInt16.ofNat (t.size - 1)

def status? (t : BurstTable) (i : Nat) : Option Progress := t.records[i]?.map BurstRecord.status

def attempts (t : BurstTable) (i : Nat) : UInt32 := (t.records[i]?.map BurstRecord.attempts).getD 0

/-- the first burst that waits to be sent -/
def nextUnsent? (t : BurstTable) : Option Nat :=
  t.records.findIdx? fun r => r.status == .unsent

/-- changes the record of burst `i` -/
def change (t : BurstTable) (i : Nat) (f : BurstRecord → BurstRecord) : BurstTable :=
  ⟨t.records.modify i f⟩

def markSent (t : BurstTable) (i : Nat) : BurstTable :=
  t.change i fun r => ⟨.sent, r.attempts + 1⟩

def markUnsent (t : BurstTable) (i : Nat) : BurstTable := t.change i ({ · with status := .unsent })

/-- gives every burst the same status -/
def fill (t : BurstTable) (status : Progress) : BurstTable :=
  ⟨t.records.map ({ · with status })⟩

def reset (t : BurstTable) : BurstTable := t.fill .unsent

def confirmAll (t : BurstTable) : BurstTable := t.fill .confirmed

def allSent (t : BurstTable) : Bool := t.records.all fun r => r.status != .unsent

def waiting (t : BurstTable) : Nat := t.records.countP fun r => r.status == .unsent

theorem waiting_markSent {t : BurstTable} {i : Nat} (h : t.nextUnsent? = some i) :
    (t.markSent i).waiting + 1 = t.waiting := by
  obtain ⟨hi, hu, _⟩ := List.findIdx?_eq_some_iff_getElem.mp h
  have hp : 0 < t.waiting := List.countP_pos_iff.mpr ⟨_, List.getElem_mem hi, hu⟩
  have hm : (t.markSent i).waiting = t.waiting - 1 := by
    simp only [waiting, markSent, change]
    rw [List.modify_eq_take_cons_drop hi]
    conv => rhs; rw [← List.take_append_drop i t.records, List.drop_eq_getElem_cons hi]
    simp only [List.countP_append, List.countP_cons, hu]
    simp
  omega

/-- the burst that waits first and whether it counts as sent before, and the table after it is sent -/
def sendNext? (t : BurstTable) : Option ((Nat × Bool) × BurstTable) :=
  t.nextUnsent?.map fun i => ((i, 1 < (t.markSent i).attempts i), t.markSent i)

theorem waiting_sendNext? {t t' : BurstTable} {x : Nat × Bool} (h : t.sendNext? = some (x, t')) :
    t'.waiting < t.waiting := by
  obtain ⟨i, hi, hx⟩ := Option.map_eq_some_iff.mp h
  obtain ⟨_, rfl⟩ := Prod.mk.inj hx
  exact Nat.lt_of_succ_le (Nat.le_of_eq (waiting_markSent hi))

/-- sends bursts until none waits, behind the reversed list `acc` -/
def sendAllOnto (acc : List (Nat × Bool)) (t : BurstTable) : List (Nat × Bool) × BurstTable :=
  match h : t.sendNext? with
  | none => (acc.reverse, t)
  | some (x, t') =>
    have := waiting_sendNext? h
    sendAllOnto (x :: acc) t'
termination_by t.waiting

def sendAll (t : BurstTable) : List (Nat × Bool) × BurstTable := sendAllOnto [] t

end BurstTable

end Shoreline
