import Shoreline.Deflate.Cursor

/-!
# Inflated output

Output is made window by window.  A distance reaches back over at most one window, and in front of
the first window there are zeros (`Output.back`), so every distance has a meaning.

An output remembers whether there was input left when its last window was begun (`Output.dry`): a
window begun without input can only be made from the bits of the last byte.
-/

namespace Shoreline.Deflate

/-- the size of a window of output, and of a piece of input -/
def window : Nat := 32768

structure Output where
  bytes : Array UInt8
  /-- the last window was begun when no input was left -/
  dry : Bool

namespace Output

def empty : Output := ⟨#[], false⟩

def size (out : Output) : Nat := out.bytes.size

/-- the next byte begins a window, not the first one -/
def startsWindow (out : Output) : Bool := out.size != 0 && out.size % window == 0

/-- one more byte; `spent` says that no input is left -/
def push (out : Output) (spent : Bool) (b : UInt8) : Output :=
  ⟨out.bytes.push b, if out.startsWindow then spent else out.dry⟩

/-- the byte `distance` bytes back; there are zeros in front of the output -/
def back (out : Output) (distance : Nat) : UInt8 :=
  if out.size < distance then 0 else out.bytes.getD (out.size - distance) 0

end Output

/-- one more byte of output, as long as there are fewer than `room` -/
def emit (room : Nat) (spent : Bool) (out : Output) (b : UInt8) : Except (Halt × Output) Output :=
  if out.size < room then .ok (out.push spent b) else .error (.full, out)

/-- `n` more bytes, each the one `distance` bytes back -/
def copy (room : Nat) (spent : Bool) (distance : Nat) : Nat → Output → Except (Halt × Output) Output
  | 0, out => .ok out
  | n + 1, out => emit room spent out (out.back distance) >>= copy room spent distance n

end Shoreline.Deflate
