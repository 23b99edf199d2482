import Mathlib.Data.List.TakeDrop
import Shoreline.Link.Capture
import Shoreline.Proofs.Fields

/-!
# What a capture file tells

A capture file is read back here by a reader of its own: the file header, then records that each say
how long they are, up to the end of the file (`parse?`).  Whatever is done with a capture, its file is
read back to the end as one record for each operation that moved bytes, in order, with its direction
and its bytes up to the snap length (`parse?_run`).  So the file holds all bytes that were read and
written exactly when no operation moved more than fit a record (`all_recorded_iff`); a longer one is
not marked, since the record gives the length that was kept as the length that there was.

The link may change in any way between two operations (`Call.elsewhere`), so that every answer of
any link is met.

* `record?_record`   a record is read back, whatever follows it;
* `file_call`       what one operation adds to the file.
-/

namespace Shoreline

/-- the number of which these are the bytes, low byte first -/
def ofLittleEndian : Bytes → Nat
  | [] => 0
  | x :: b => x.toNat + 256 * ofLittleEndian b

theorem ofLittleEndian_littleEndian (n v : Nat) :
    ofLittleEndian (littleEndian n v) = v % 256 ^ n := by
  induction n generalizing v with
  | zero => exact (Nat.mod_one v).symm
  | succ n ih =>
    have hlow : (UInt8.ofNat v).toNat = v % 256 := UInt8.toNat_ofNat'
    rw [littleEndian, ofLittleEndian, hlow, ih, Nat.pow_succ', Nat.mod_mul]

/-- bytes that went one way -/
structure Transfer where
  time : Timestamp
  direction : Direction
  data : Bytes
  deriving DecidableEq, Repr

def Transfer.part (x : Transfer) : Direction × Bytes := (x.direction, x.data)

namespace Direction

def ofCode? (x : UInt8) : Option Direction :=
  if x = 62 then some outbound else if x = 60 then some inbound else none

theorem ofCode?_code (d : Direction) : ofCode? d.code = some d := by cases d <;> rfl

end Direction

namespace Pcap

/-! ## Reading a file -/

/-- a record as a file has it -/
structure Entry where
  time : Timestamp
  /-- the length that the record had before it was cut, as the file has it -/
  original : Nat
  direction : Direction
  data : Bytes
  deriving DecidableEq, Repr

def Entry.part (e : Entry) : Direction × Bytes := (e.direction, e.data)

/-- the four-byte number at position `i` -/
def numberAt (i : Nat) (b : Bytes) : Nat := ofLittleEndian (slice i 4 b)

/-- the record that the bytes begin with, and what is behind it -/
def record? (b : Bytes) : Option (Entry × Bytes) :=
  if b.length < 16 + numberAt 8 b then none
  else
    match slice 16 (numberAt 8 b) b with
    | [] => none
    | code :: data =>
      (Direction.ofCode? code).map fun direction =>
        (⟨⟨numberAt 0 b, numberAt 4 b⟩, numberAt 12 b, direction, data⟩, b.drop (16 + numberAt 8 b))

theorem record?_shorter {b rest : Bytes} {e : Entry} (h : record? b = some (e, rest)) :
    rest.length < b.length := by
  rw [record?] at h
  split at h
  · exact absurd h (by simp)
  split at h
  · exact absurd h (by simp)
  obtain ⟨direction, -, h⟩ := Option.map_eq_some_iff.mp h
  obtain ⟨-, rfl⟩ := Prod.mk.inj h
  rw [List.length_drop]
  omega

/-- records up to the end -/
def records? (b : Bytes) : Option (List Entry) :=
  if b = [] then some []
  else
    match h : record? b with
    | none => none
    | some (e, rest) =>
      have := record?_shorter h
      (records? rest).map (e :: ·)
termination_by b.length

def parse? (file : Bytes) : Option (List Entry) :=
  if file.take 24 = fileHeader then records? (file.drop 24) else none

/-! ## Reading back what was recorded -/

variable {b rest : Bytes}

theorem record?_of_fields {s u n o data : Bytes} {d : Direction}
    (hb : b = s ++ (u ++ (n ++ (o ++ (d.code :: data ++ rest))))) (hs : s.length = 4)
    (hu : u.length = 4) (hn : n.length = 4) (ho : o.length = 4)
    (hsize : ofLittleEndian n = data.length + 1) :
    record? b = some (⟨⟨ofLittleEndian s, ofLittleEndian u⟩, ofLittleEndian o, d, data⟩, rest) := by
  have hfront : b = (s ++ u ++ n ++ o) ++ (d.code :: data ++ rest) := by
    simp only [hb, List.append_assoc]
  have hlen : (s ++ u ++ n ++ o).length = 16 := by
    simp only [List.length_append, hs, hu, hn, ho]
  have h₀ : numberAt 0 b = ofLittleEndian s := by
    rw [hb]
    exact congrArg ofLittleEndian (slice_mid (a := []) _ rfl hs)
  have h₄ : numberAt 4 b = ofLittleEndian u := by
    rw [hb]
    exact congrArg ofLittleEndian (slice_mid _ hs hu)
  have h₈ : numberAt 8 b = data.length + 1 := by
    rw [hb, ← List.append_assoc, ← hsize]
    exact congrArg ofLittleEndian (slice_mid _ (by rw [List.length_append, hs, hu]) hn)
  have h₁₂ : numberAt 12 b = ofLittleEndian o := by
    rw [hb, ← List.append_assoc, ← List.append_assoc]
    exact congrArg ofLittleEndian
      (slice_mid _ (by rw [List.length_append, List.length_append, hs, hu, hn]) ho)
  have hbody : slice 16 (data.length + 1) b = d.code :: data := by
    rw [hfront]
    exact slice_mid _ hlen (List.length_cons ..)
  have hrest : b.drop (16 + (data.length + 1)) = rest := by
    rw [hfront, ← List.append_assoc]
    exact List.drop_left' (by rw [List.length_append, hlen, List.length_cons])
  have hfits : ¬ b.length < 16 + (data.length + 1) := by
    rw [hfront, List.length_append, hlen, List.length_append, List.length_cons]
    omega
  rw [record?, h₀, h₄, h₈, h₁₂, if_neg hfits, hbody, hrest]
  dsimp only
  rw [Direction.ofCode?_code]
  rfl

/-- what is recorded of a transfer -/
def noted (x : Transfer) : Entry :=
  let kept := x.data.take (snapLength - 1)
  ⟨⟨x.time.seconds % 256 ^ (4 : Nat), x.time.microseconds % 256 ^ (4 : Nat)⟩, kept.length + 1,
    x.direction, kept⟩

theorem record?_record (x : Transfer) (rest : Bytes) :
    record? (record x.time x.direction x.data ++ rest) = some (noted x, rest) := by
  have hsize : ofLittleEndian (littleEndian 4 ((x.data.take (snapLength - 1)).length + 1)) =
      (x.data.take (snapLength - 1)).length + 1 := by
    rw [ofLittleEndian_littleEndian, Nat.mod_eq_of_lt]
    rw [List.length_take, snapLength]
    omega
  have hfields : record x.time x.direction x.data ++ rest =
      littleEndian 4 x.time.seconds ++ (littleEndian 4 x.time.microseconds ++
        (littleEndian 4 ((x.data.take (snapLength - 1)).length + 1) ++
          (littleEndian 4 ((x.data.take (snapLength - 1)).length + 1) ++
            (x.direction.code :: x.data.take (snapLength - 1) ++ rest)))) := by
    simp only [record, List.append_assoc]
  rw [record?_of_fields hfields (length_littleEndian _ _) (length_littleEndian _ _)
    (length_littleEndian _ _) (length_littleEndian _ _) hsize, hsize, ofLittleEndian_littleEndian,
    ofLittleEndian_littleEndian]
  rfl

theorem records?_flatMap (xs : List Transfer) :
    records? (xs.flatMap fun x => record x.time x.direction x.data) = some (xs.map noted) := by
  induction xs with
  | nil =>
    rw [records?]
    rfl
  | cons x xs ih =>
    have hentry := record?_record x (xs.flatMap fun x => record x.time x.direction x.data)
    rw [List.flatMap_cons, records?, if_neg (by simp [record, littleEndian])]
    split
    · next h =>
      rw [hentry] at h
      exact absurd h (by simp)
    · next e rest h =>
      obtain ⟨rfl, rfl⟩ := Prod.mk.inj (Option.some.inj (hentry.symm.trans h))
      dsimp only
      rw [ih]
      rfl

theorem parse?_append (b : Bytes) : parse? (fileHeader ++ b) = records? b := by
  have hlen : fileHeader.length = 24 := by decide
  rw [parse?, ← hlen, List.take_left, if_pos rfl, List.drop_left]

end Pcap

/-! ## A capture at work -/

namespace Capture

/-- what can happen to a capture; `elsewhere` is all that happens to its link in between -/
inductive Call where
  | read (time : Timestamp) (n : Nat)
  | write (time : Timestamp) (b : Bytes)
  | elsewhere (link : Duplex)

/-- an operation that fails leaves the capture as it is -/
def call (c : Capture) : Call → Capture
  | .read time n => match c.read time n with
    | .ok (_, c') => c'
    | .error _ => c
  | .write time b => match c.write time b with
    | .ok c' => c'
    | .error _ => c
  | .elsewhere link => { c with link }

def run (c : Capture) (calls : List Call) : Capture := calls.foldl call c

/-- what the caller was given or got through -/
def moves (c : Capture) : Call → List Transfer
  | .read time n => match c.read time n with
    | .ok (b, _) => [⟨time, .inbound, b⟩]
    | .error _ => []
  | .write time b => match c.write time b with
    | .ok _ => [⟨time, .outbound, b⟩]
    | .error _ => []
  | .elsewhere _ => []

/-- what a run moves, first operation first -/
def moved (c : Capture) : List Call → List Transfer
  | [] => []
  | a :: calls => c.moves a ++ (c.call a).moved calls

/-- the records of transfers; those that moved nothing leave none -/
def records (xs : List Transfer) : Bytes :=
  (xs.filter (·.data ≠ [])).flatMap fun x => Pcap.record x.time x.direction x.data

theorem file_note (c : Capture) (x : Transfer) :
    (c.note x.time x.direction x.data).file = c.file ++ records [x] := by
  rw [note, records]
  split
  · next h => simp [h]
  · next h => simp [h]

theorem file_call (c : Capture) (a : Call) : (c.call a).file = c.file ++ records (c.moves a) := by
  have hnone : c.file = c.file ++ records [] := (List.append_nil _).symm
  cases a with
  | read time n =>
    rw [call, moves, read]
    cases c.link.read .a n with
    | error e => exact hnone
    | ok x => exact file_note { c with link := x.2 } ⟨time, .inbound, x.1⟩
  | write time b =>
    rw [call, moves, write]
    cases c.link.write .a b with
    | error e => exact hnone
    | ok link => exact file_note { c with link } ⟨time, .outbound, b⟩
  | elsewhere link => exact hnone

theorem file_run (c : Capture) (calls : List Call) :
    (c.run calls).file = c.file ++ records (c.moved calls) := by
  induction calls generalizing c with
  | nil => exact (List.append_nil _).symm
  | cons a calls ih =>
    have hrun : c.run (a :: calls) = (c.call a).run calls := rfl
    rw [hrun, ih, file_call, moved, records, records, records, List.filter_append,
      List.flatMap_append, List.append_assoc]

theorem parse?_run (link : Duplex) (calls : List Call) :
    Pcap.parse? ((new link).run calls).file =
      some ((((new link).moved calls).filter (·.data ≠ [])).map Pcap.noted) := by
  rw [file_run]
  exact (Pcap.parse?_append _).trans (Pcap.records?_flatMap _)

end Capture

/-! ## What is missing -/

/-- all bytes that went this way -/
def carried (d : Direction) (parts : List (Direction × Bytes)) : Bytes :=
  parts.flatMap fun (way, b) => if way = d then b else []

/-- what is kept of a part -/
def cut : Direction × Bytes → Direction × Bytes
  | (way, b) => (way, b.take (Pcap.snapLength - 1))

variable {d : Direction} {parts : List (Direction × Bytes)}

theorem carried_nonempty (d : Direction) (parts : List (Direction × Bytes)) :
    carried d (parts.filter (·.2 ≠ [])) = carried d parts := by
  induction parts with
  | nil => rfl
  | cons p parts ih =>
    by_cases h : p.2 = []
    · rw [List.filter_cons_of_neg (by simp [h]), ih]
      simp [carried, h]
    · rw [List.filter_cons_of_pos (by simp [h])]
      exact congrArg (_ ++ ·) ih

theorem length_carried_cut_le : (carried d (parts.map cut)).length ≤ (carried d parts).length := by
  induction parts with
  | nil => exact Nat.le_refl _
  | cons p parts ih =>
    obtain ⟨way, b⟩ := p
    have hcut : (b.take (Pcap.snapLength - 1)).length ≤ b.length := by
      rw [List.length_take]
      exact Nat.min_le_right ..
    rw [List.map_cons, carried, carried, List.flatMap_cons, List.flatMap_cons, List.length_append,
      List.length_append]
    refine Nat.add_le_add ?_ ih
    dsimp only [cut]
    split
    · exact hcut
    · exact Nat.le_refl _

/-- nothing is missing one way exactly when no part of it was cut -/
theorem carried_cut_eq_iff :
    carried d (parts.map cut) = carried d parts ↔
      ∀ p ∈ parts, p.1 = d → p.2.length < Pcap.snapLength := by
  induction parts with
  | nil => exact ⟨fun _ => List.forall_mem_nil _, fun _ => rfl⟩
  | cons p parts ih =>
    obtain ⟨way, b⟩ := p
    have hle : (carried d (parts.map cut)).length ≤ (carried d parts).length :=
      length_carried_cut_le
    rw [List.forall_mem_cons, ← ih, List.map_cons, carried, carried, List.flatMap_cons,
      List.flatMap_cons, ← carried, ← carried]
    dsimp only [cut]
    split
    · next hway =>
      have hshort : b.take (Pcap.snapLength - 1) = b ↔ b.length < Pcap.snapLength := by
        rw [List.take_eq_self_iff, Pcap.snapLength]
        omega
      constructor
      · intro h
        -- no part is longer for being cut, so that both parts have their length
        have hlen := congrArg List.length h
        rw [List.length_append, List.length_append, List.length_take] at hlen
        obtain ⟨hb, hparts⟩ := List.append_inj h (by rw [List.length_take]; omega)
        exact ⟨fun _ => hshort.mp hb, hparts⟩
      · rintro ⟨hb, hparts⟩
        rw [hshort.mpr (hb hway), hparts]
    · next hway => exact ⟨fun h => ⟨fun h' => absurd h' hway, h⟩, And.right⟩

namespace Capture

/-- Whatever is done with a capture, its file is read to the end as one record for each operation
that moved bytes, with the bytes that fit a record and no sign that there were more.  The records hold
all that was read and all that was written exactly when each operation moved less than the snap
length. -/
theorem all_recorded_iff (link : Duplex) (calls : List Call) :
    let c := new link
    let moved := (c.moved calls).map Transfer.part
    ∃ entries, Pcap.parse? (c.run calls).file = some entries ∧
      entries.map Pcap.Entry.part = (moved.filter (·.2 ≠ [])).map cut ∧
      (∀ e ∈ entries, e.original = e.data.length + 1) ∧
      ((∀ d, carried d (entries.map Pcap.Entry.part) = carried d moved) ↔
        ∀ x ∈ c.moved calls, x.data.length < Pcap.snapLength) := by
  intro c moved
  have hparts : (((c.moved calls).filter (·.data ≠ [])).map Pcap.noted).map Pcap.Entry.part =
      (moved.filter (·.2 ≠ [])).map cut := by
    rw [List.filter_map, List.map_map, List.map_map]
    rfl
  have hshort : (∀ x ∈ c.moved calls, x.data.length < Pcap.snapLength) ↔
      ∀ p ∈ moved.filter (·.2 ≠ []), p.2.length < Pcap.snapLength := by
    constructor
    · intro h p hp
      obtain ⟨x, hx, rfl⟩ := List.mem_map.mp (List.mem_filter.mp hp).1
      exact h x hx
    · intro h x hx
      by_cases hempty : x.data = []
      · rw [hempty]
        decide
      · exact h x.part (List.mem_filter.mpr ⟨List.mem_map_of_mem hx, decide_eq_true hempty⟩)
  refine ⟨_, parse?_run link calls, hparts, ?_, ?_⟩
  · intro e he
    obtain ⟨x, -, rfl⟩ := List.mem_map.mp he
    rfl
  · rw [hparts, hshort]
    constructor
    · intro h p hp
      have hway := h p.1
      rw [← carried_nonempty _ moved] at hway
      exact carried_cut_eq_iff.mp hway p hp rfl
    · intro h d
      rw [← carried_nonempty _ moved]
      exact carried_cut_eq_iff.mpr fun p hp _ => h p hp

/-- a write of 65535 bytes on a new link: one of them is missing -/
theorem long_write_cut :
    let calls := [Call.write ⟨0, 0⟩ (List.replicate 65535 170)]
    let c := new Duplex.new
    let moved := (c.moved calls).map Transfer.part
    ∃ entries, Pcap.parse? (c.run calls).file = some entries ∧
      (carried .outbound moved).length = 65535 ∧
      (carried .outbound (entries.map Pcap.Entry.part)).length = 65534 ∧
      carried .outbound (entries.map Pcap.Entry.part) ≠ carried .outbound moved := by
  -- for any bytes, so that those of the call are not computed
  have hfile (b : Bytes) (hb : b ≠ []) :
      Pcap.parse? ((new Duplex.new).run [.write ⟨0, 0⟩ b]).file =
        some [Pcap.noted ⟨⟨0, 0⟩, .outbound, b⟩] := by
    have hmoved : (new Duplex.new).moved [.write ⟨0, 0⟩ b] = [⟨⟨0, 0⟩, .outbound, b⟩] := rfl
    rw [parse?_run, hmoved, List.filter_cons_of_pos (by simpa using hb)]
    rfl
  have hone (b : Bytes) : carried .outbound [(.outbound, b)] = b := List.append_nil b
  have hne : List.replicate 65535 (170 : UInt8) ≠ [] := by
    rw [ne_eq, List.replicate_eq_nil_iff]
    decide
  intro calls c moved
  have hall : carried .outbound moved = List.replicate 65535 170 := hone _
  have hkept : carried .outbound ([Pcap.noted ⟨⟨0, 0⟩, .outbound, List.replicate 65535 170⟩].map
      Pcap.Entry.part) = (List.replicate 65535 170).take 65534 := hone _
  refine ⟨_, hfile _ hne, ?_, ?_, fun h => ?_⟩
  · rw [hall, List.length_replicate]
  · rw [hkept, List.length_take, List.length_replicate, Nat.min_eq_left (by decide)]
  · have hlen := congrArg List.length h
    rw [hall, hkept, List.length_take, List.length_replicate] at hlen
    exact absurd hlen (by decide)

end Capture

end Shoreline
