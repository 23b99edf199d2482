import Shoreline.Fault

/-!
# Where the samples sit in an item

A layout lists the cells of one item in order: a sample is a word of two bytes, every other byte is
raw.  `split` separates a payload into its samples and its raw bytes; a partial item at the end is
raw as a whole.  `join` puts the two streams together again and refuses streams that no payload has.
-/

namespace Shoreline

inductive Cell where
  | sample
  | raw
  deriving DecidableEq, Repr

def Cell.size : Cell → Nat
  | sample => 2
  | raw => 1

structure Layout where
  cells : List Cell
  deriving DecidableEq, Repr

namespace Layout

/-- every pair of bytes is a sample -/
def words : Layout := ⟨[.sample]⟩

/-- the cells of a sensor's item before its auxiliary block -/
def channels : Sensor → List Cell
  | .starboard | .port => List.replicate 32 .sample
  | .ocr => List.replicate 16 .raw
  | .mcoms => (List.replicate 3 [.sample, .sample, .raw, .raw, .raw, .raw]).flatten

def ofSensor (s : Sensor) : Layout := ⟨channels s ++ List.replicate Sensor.auxSize .raw⟩

def itemSize (l : Layout) : Nat := (l.cells.map Cell.size).sum

def samplesPerItem (l : Layout) : Nat := l.cells.count .sample

def rawPerItem (l : Layout) : Nat := l.cells.count .raw

theorem itemSize_ofSensor (s : Sensor) : (ofSensor s).itemSize = s.itemSize := by
  cases s <;> decide

def sampleCount (l : Layout) (n : Nat) : Nat := n / l.itemSize * l.samplesPerItem

def rawSize (l : Layout) (n : Nat) : Nat := n - 2 * l.sampleCount n

/-! ## Splitting -/

def itemSamples : List Cell → Bytes → List UInt16
  | .sample :: cs, lo :: hi :: b => word lo hi :: itemSamples cs b
  | .raw :: cs, _ :: b => itemSamples cs b
  | _, _ => []

def itemRaw : List Cell → Bytes → Bytes
  | .sample :: cs, _ :: _ :: b => itemRaw cs b
  | .raw :: cs, x :: b => x :: itemRaw cs b
  | _, _ => []

/-- the whole items of a payload -/
def items (l : Layout) (payload : Bytes) : List Bytes :=
  chunks l.itemSize (payload.take (payload.length / l.itemSize * l.itemSize))

/-- what follows the whole items -/
def tail (l : Layout) (payload : Bytes) : Bytes :=
  payload.drop (payload.length / l.itemSize * l.itemSize)

/-- the samples and the raw bytes of a payload, each in order -/
def split (l : Layout) (payload : Bytes) : List UInt16 × Bytes :=
  ((l.items payload).flatMap (itemSamples l.cells),
    (l.items payload).flatMap (itemRaw l.cells) ++ l.tail payload)

/-! ## Joining -/

/-- one item, built from its samples and its raw bytes -/
def weave : List Cell → List UInt16 → Bytes → Bytes
  | .sample :: cs, s :: ss, raw => ofWord s ++ weave cs ss raw
  | .raw :: cs, ss, x :: raw => x :: weave cs ss raw
  | _, _, _ => []

/-- items put together, each from its share of the two streams -/
def weaveItems (l : Layout) (samples : List UInt16) (raw : Bytes) : Bytes :=
  let shares := chunks l.samplesPerItem samples
  let rawShares :=
    if l.rawPerItem = 0 then shares.map fun _ => [] else chunks l.rawPerItem raw
  (List.zipWith (weave l.cells) shares rawShares).flatten

def join (l : Layout) (samples : List UInt16) (raw : Bytes) : Except Fault Bytes :=
  let items := samples.length / l.samplesPerItem
  let woven := items * l.rawPerItem
  if items * l.samplesPerItem ≠ samples.length then
    .error (.body (.looseSamples samples.length))
  else if raw.length < woven ∨ (0 < l.samplesPerItem ∧ l.itemSize ≤ raw.length - woven) then
    .error (.body (.rawLength raw.length items))
  else .ok (l.weaveItems samples (raw.take woven) ++ raw.drop woven)

end Layout

end Shoreline
