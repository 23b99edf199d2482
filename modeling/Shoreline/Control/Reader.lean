import Shoreline.Control

/-!
# Scanning for control lines

A reader cuts a stream of bytes into lines at each LF and drops blanks and CRs at their ends and
empty lines.  Modem chatter may stand in front of a message on its line: a short line that ends in
the heartbeat is one, and otherwise the message starts at the last tag.  A line that is neither is
reported as a fault.  Bytes that grow longer than any line without an LF are dropped.

`drain` ends because every line shortens the buffer (`next_shorter`).
-/

namespace Shoreline

structure LineReader where
  /-- bytes not consumed yet -/
  buffer : Bytes
  /-- control lines read -/
  accepted : Nat
  /-- lines with a wrong checksum -/
  mismatches : Nat

namespace LineReader

def new : LineReader := ⟨[], 0, 0⟩

/-- the most bytes kept without an LF -/
def mostPending : Nat := 256

def push (r : LineReader) (b : Bytes) : LineReader := { r with buffer := r.buffer ++ b }

/-! ## One line -/

def lf : UInt8 := 10

def isLineBlank (c : UInt8) : Bool := c == 13 || c == 32

/-- the line without the CRs and blanks at its end -/
def trim (line : Bytes) : Bytes := (line.reverse.dropWhile isLineBlank).reverse

/-- the rest of the line from its last tag on; `best` if it has none -/
def lastTag? (best : Option Bytes) : Bytes → Option Bytes
  | [] => best
  | x :: b =>
    lastTag? (if (ControlKind.ofTag? ((x :: b).take 4)).isSome then some (x :: b) else best) b

/-- what a line says -/
def classify (line : Bytes) : Except Fault Inbound :=
  if heartbeat.isSuffixOf line ∧ line.length < ControlLine.size then .ok .heartbeat
  else
    match lastTag? none line with
    | none => .error (.malformed .tag)
    | some b => (ControlLine.parse b).map .control

/-- notes what a line said -/
def note (r : LineReader) : Except Fault Inbound → LineReader
  | .ok (.control _) => { r with accepted := r.accepted + 1 }
  | .error (.checksum _ _) => { r with mismatches := r.mismatches + 1 }
  | _ => r

theorem buffer_note (r : LineReader) (x : Except Fault Inbound) : (r.note x).buffer = r.buffer := by
  match x with
  | .ok (.control _) => rfl
  | .ok .heartbeat => rfl
  | .error e => cases e <;> rfl

/-! ## Lines of a buffer -/

/-- the first line of `b` and what follows its LF -/
def cut? (b : Bytes) : Option (Bytes × Bytes) :=
  match b.dropWhile (· != lf) with
  | [] => none
  | _ :: rest => some (b.takeWhile (· != lf), rest)

theorem length_cut? {b line rest : Bytes} (h : cut? b = some (line, rest)) :
    rest.length < b.length := by
  unfold cut? at h
  split at h
  · exact absurd h (by simp)
  · next x r hd =>
    obtain ⟨_, rfl⟩ := Prod.mk.inj (Option.some.inj h)
    have := List.IsSuffix.length_le (List.dropWhile_suffix (l := b) (· != lf))
    rw [hd, List.length_cons] at this
    omega

/-- reads from the bytes `b` in place of the buffer -/
def scan (r : LineReader) (b : Bytes) : Option (Except Fault Inbound) × LineReader :=
  match h : cut? b with
  | none => (none, { r with buffer := if mostPending < b.length then [] else b })
  | some (line, rest) =>
    have := length_cut? h
    if trim line = [] then scan r rest
    else
      let said := classify (trim line)
      (some said, { r.note said with buffer := rest })
termination_by b.length

/-- the next line that is not empty, if its LF has arrived -/
def next (r : LineReader) : Option (Except Fault Inbound) × LineReader := r.scan r.buffer

theorem scan_shorter {r r' : LineReader} {b : Bytes} {x : Except Fault Inbound}
    (h : r.scan b = (some x, r')) : r'.buffer.length < b.length := by
  fun_induction scan r b with
  | case1 b hc => exact absurd h (by simp)
  | case2 b line rest hc hl ht ih => exact Nat.lt_trans (ih h) hl
  | case3 b line rest hc hl ht said =>
    obtain ⟨_, rfl⟩ := Prod.mk.inj h
    exact hl

theorem next_shorter {r r' : LineReader} {x : Except Fault Inbound} (h : r.next = (some x, r')) :
    r'.buffer.length < r.buffer.length := scan_shorter h

/-- what the lines of the buffer say, put behind the reversed list `acc` -/
def drainOnto (acc : List (Except Fault Inbound)) (r : LineReader) :
    List (Except Fault Inbound) × LineReader :=
  match h : r.next with
  | (none, r) => (acc.reverse, r)
  | (some x, r') =>
    have := next_shorter h
    drainOnto (x :: acc) r'
termination_by r.buffer.length

/-- what the lines of the buffer say, in order -/
def drain (r : LineReader) : List (Except Fault Inbound) × LineReader := drainOnto [] r

/-- takes in bytes and gives what the lines that they complete say -/
def feed (r : LineReader) (b : Bytes) : List (Except Fault Inbound) × LineReader :=
  (r.push b).drain

end LineReader

end Shoreline
