import Shoreline.Sample.Gray
import Shoreline.Sample.Planes
import Shoreline.Sample.Layout
import Shoreline.Body.Base85
import Shoreline.Body.Base64
import Shoreline.Deflate.Stored

/-!
# Bodies

A payload becomes the body of a Data Packet in four steps, each chosen by `Stages`:

* the samples that the layout picks out are rounded, Gray-coded and spread over bit planes, and the
  raw bytes follow them unchanged (`stage`);
* the result is deflated, by whichever encoder is at hand;
* the result of that is written in an ASCII alphabet.

`decode` takes the steps back.  The only loss is the rounding, and `rounded` is that loss alone.
-/

namespace Shoreline.Body

/-! ## The ASCII step -/

def armor : Encoding → Bytes → Bytes
  | .none, b => b
  | .base85, b => Base85.encode b
  | .base64, b => Base64.encode b

def unarmor : Encoding → Bytes → Except Fault Bytes
  | .none, b => .ok b
  | .base85, b => Base85.decode b
  | .base64, b => Base64.decode b

/-! ## The compression step -/

def compress [Deflate.Encoder] : Compression → Bytes → Bytes
  | .none, b => b
  | .deflate, b => Deflate.Encoder.encode b

/-- takes compression back; a stream that inflates to more than `limit` bytes is refused -/
def decompress (limit : Nat) : Compression → Bytes → Except Fault Bytes
  | .none, b => .ok b
  | .deflate, b => Deflate.inflate limit b

/-! ## The sample step -/

def represent : Representation → List UInt16 → List UInt16
  | .gray, ss => ss.map Gray.encode
  | .binary, ss => ss

def unrepresent : Representation → List UInt16 → List UInt16
  | .gray, ss => ss.map Gray.decode
  | .binary, ss => ss

/-- length of the staged form of a payload of `n` bytes -/
def stagedSize (l : Layout) (noise : Noise) (n : Nat) : Nat :=
  match noise with
  | .untransposed => n
  | .removed k => Planes.size (l.sampleCount n) k + l.rawSize n

/-- the payload with its samples recoded: in place, or as planes in front of the raw bytes -/
def stage (l : Layout) (s : Stages) (payload : Bytes) : Except Fault Bytes :=
  let (samples, raw) := l.split payload
  match s.noise with
  | .untransposed => l.join (represent s.representation samples) raw
  | .removed k =>
    .ok (Planes.transpose k (represent s.representation (samples.map (Planes.reduce k))) ++ raw)

/-- the samples and raw bytes of a staged payload of `n` bytes -/
def unstage (l : Layout) (noise : Noise) (n : Nat) (staged : Bytes) :
    Except Fault (List UInt16 × Bytes) :=
  match noise with
  | .untransposed => .ok (l.split staged)
  | .removed k =>
    let planes := Planes.size (l.sampleCount n) k
    (Planes.untranspose (l.sampleCount n) k (staged.take planes)).map fun samples =>
      (samples, staged.drop planes)

/-! ## All steps -/

/-- a body and its length before the ASCII step -/
structure Encoded where
  compressedSize : Nat
  body : Bytes
  deriving DecidableEq, Repr

def encode [Deflate.Encoder] (l : Layout) (s : Stages) (payload : Bytes) : Except Fault Encoded := do
  let staged ← stage l s payload
  let compressed := compress s.compression staged
  .ok ⟨compressed.length, armor s.encoding compressed⟩

/-- the staged payload of a body, refused if it inflates to more than `limit` bytes -/
def unpack (s : Stages) (limit : Nat) (body : Bytes) : Except Fault Bytes := do
  let compressed ← unarmor s.encoding body
  decompress limit s.compression compressed

/-- the payload of `n` bytes that a body stands for -/
def decode (l : Layout) (s : Stages) (n : Nat) (body : Bytes) : Except Fault Bytes := do
  let expected := stagedSize l s.noise n
  let staged ← unpack s expected body
  if staged.length ≠ expected then .error (.body (.stagedLength expected staged.length))
  else
    let (samples, raw) ← unstage l s.noise n staged
    let samples := (unrepresent s.representation samples).map (Planes.expand s.noise.bits)
    l.join samples raw

/-- the payload as it comes out at the other end: each sample rounded, all else unchanged -/
def rounded (l : Layout) (noise : Noise) (payload : Bytes) : Bytes :=
  let (samples, raw) := l.split payload
  match l.join (samples.map (Planes.round noise.bits)) raw with
  | .ok b => b
  | .error _ => payload

end Shoreline.Body
