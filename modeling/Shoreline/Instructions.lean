import Shoreline.Fault

/-!
# Transmit instructions

How a profile is to be encoded and framed.  `validate` accepts instructions whose burst size is
permitted and whose noise bits can be removed.
-/

namespace Shoreline

/-- the permitted burst sizes: the powers of two from 128 to 8192 -/
def burstSizes : List Nat := (List.range' 7 7).map (2 ^ ·)

structure Instructions where
  representation : Representation
  /-- spread the samples over bit planes -/
  planes : Bool
  /-- low bits to round away before that -/
  noiseBits : Nat
  compression : Compression
  encoding : Encoding
  burstSize : Nat
  deriving DecidableEq, Repr

namespace Instructions

def standard : Instructions := ⟨.gray, true, 0, .deflate, .none, 1024⟩

/-- instructions that leave payloads as they are -/
def identity (burstSize : Nat) : Instructions := ⟨.binary, false, 0, .none, .none, burstSize⟩

def validate (i : Instructions) : Except Fault Unit :=
  if i.burstSize ∉ burstSizes then .error (.burstSize i.burstSize)
  else if Noise.most < i.noiseBits then .error .noiseBits
  else if i.planes = false ∧ 0 < i.noiseBits then .error .noiseWithoutPlanes
  else .ok ()

def noise (i : Instructions) : Noise := if i.planes then .removed i.noiseBits else .untransposed

def stages (i : Instructions) : Stages := ⟨i.representation, i.noise, i.compression, i.encoding⟩

end Instructions

end Shoreline
