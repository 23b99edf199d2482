import Shoreline.Bytes

/-!
# Paths that lose and damage

One direction of an exchange.  The units sent into a path are numbered from 0; a path can drop
some, flip bits in some, keep them until they are delivered, and deliver them in another order.  What
happens is either laid down for single units or drawn from a generator with a given seed, so that a
run can be repeated.
-/

namespace Shoreline

/-- a linear congruential generator -/
structure Generator where
  state : UInt64
  deriving DecidableEq, Repr

namespace Generator

/-- the next number: all but the 11 low bits of the next state -/
def next (g : Generator) : Nat × Generator :=
  let x := g.state * 6364136223846793005 + 1442695040888963407
  ((x >>> 11).toNat, ⟨x⟩)

/-- `n` numbers, behind the reversed list `acc` -/
def takeOnto (acc : List Nat) : Nat → Generator → List Nat × Generator
  | 0, g => (acc.reverse, g)
  | n + 1, g => takeOnto (g.next.1 :: acc) n g.next.2

def take (g : Generator) (n : Nat) : List Nat × Generator := takeOnto [] n g

end Generator

/-- bits to flip in one byte of one unit -/
structure Damage where
  unit : Nat
  offset : Nat
  mask : UInt8
  deriving DecidableEq, Repr

structure Path where
  /-- numbers of units that are lost -/
  drop : List Nat
  damage : List Damage
  /-- where chance decides, if it does -/
  chance : Option Generator
  /-- units lost by chance, in a hundred -/
  dropRate : Nat
  /-- units damaged by chance, in a hundred -/
  damageRate : Nat
  /-- deliver the last unit first -/
  reversed : Bool
  count : Nat
  /-- units on their way, the last one first -/
  queue : List Bytes
  deriving DecidableEq, Repr

namespace Path

/-- a path on which nothing happens to a unit -/
def clear : Path := ⟨[], [], none, 0, 0, false, 0, []⟩

def flip (b : Bytes) (offset : Nat) (mask : UInt8) : Bytes := b.modify offset (· ^^^ mask)

/-- the unit with the damage laid down for it -/
def damaged (p : Path) (b : Bytes) : Bytes :=
  (p.damage.filter fun d => d.unit == p.count).foldl (fun b d => flip b d.offset d.mask) b

/-- what chance leaves of a unit -/
def tried (p : Path) (g : Generator) (b : Bytes) : Option Bytes × Generator :=
  let (lost, g) := g.next
  if lost % 100 < p.dropRate then (none, g)
  else
    let (hit, g) := g.next
    if hit % 100 < p.damageRate then
      let (place, g) := g.next
      (some (flip b (place % b.length) 4), g)
    else (some b, g)

def send (p : Path) (b : Bytes) : Path :=
  let sent := { p with count := p.count + 1 }
  if p.drop.contains p.count then sent
  else
    let b := p.damaged b
    match p.chance with
    | none => { sent with queue := b :: p.queue }
    | some g =>
      match p.tried g b with
      | (none, g) => { sent with chance := some g }
      | (some b, g) => { sent with chance := some g, queue := b :: p.queue }

/-- takes all units out; chance, where it decides, shuffles them -/
def deliver (p : Path) : List Bytes × Path :=
  let units := if p.reversed then p.queue else p.queue.reverse
  let empty := { p with queue := [] }
  match p.chance with
  | none => (units, empty)
  | some g =>
    let (marks, g) := g.take units.length
    let sorted := (marks.zip units).mergeSort fun a b => a.1 ≤ b.1
    (sorted.map Prod.snd, { empty with chance := some g })

end Path

end Shoreline
