import Shoreline.Proofs.Reencoding

/-!
# Where the faults of a packet come from

A staged payload of the right length comes apart into streams that can be joined, so once its length
is checked nothing else can be wrong with a body (`Body.decode_of_unpack`).  The faults of a packet are
then those of its fields, those of the ASCII and DEFLATE steps, and a wrong staged length; the planes
and the layout have none of their own (`Packet.failsIn_decode`).

* `Layout.exists_join`      streams of the lengths that a payload splits into can be joined;
* `Body.exists_unstage`     staged payloads come apart into such streams;
* `failsIn_bind`, `failsIn_foldlM`   what the faults of a reader are, from those of its steps.
-/

namespace Shoreline

/-! ## Streams of the right lengths -/

theorem Layout.exists_join {l : Layout} (hl : 0 < l.itemSize) {n : Nat} {samples : List UInt16}
    {raw : Bytes} (hsamples : samples.length = l.sampleCount n) (hraw : raw.length = l.rawSize n) :
    ∃ b, l.join samples raw = .ok b := by
  by_cases hs : l.samplesPerItem = 0
  · rw [sampleCount, hs, Nat.mul_zero] at hsamples
    rw [List.length_eq_zero_iff.mp hsamples]
    exact ⟨raw, l.join_of_no_samples hs raw⟩
  · have hitems : samples.length / l.samplesPerItem = n / l.itemSize := by
      rw [hsamples, sampleCount, Nat.mul_div_cancel _ (Nat.pos_of_ne_zero hs)]
    have hwhole : n / l.itemSize * l.samplesPerItem = samples.length := hsamples.symm
    have hlen : raw.length = n / l.itemSize * l.rawPerItem + n % l.itemSize := by
      have hdiv := Nat.div_add_mod n l.itemSize
      have hitem : l.itemSize * (n / l.itemSize) =
          2 * (n / l.itemSize * l.samplesPerItem) + n / l.itemSize * l.rawPerItem := by
        rw [Nat.mul_comm, l.itemSize_eq, Nat.mul_add, Nat.mul_left_comm]
      rw [hraw, rawSize, sampleCount]
      omega
    have htail := Nat.mod_lt n hl
    refine ⟨l.weaveItems samples (raw.take (n / l.itemSize * l.rawPerItem)) ++
      raw.drop (n / l.itemSize * l.rawPerItem), ?_⟩
    rw [join, hitems, if_neg (not_not_intro hwhole), if_neg (by omega)]

namespace Body

theorem exists_unstage {l : Layout} (hl : 0 < l.itemSize) {noise : Noise} {n : Nat} {staged : Bytes}
    (hlen : staged.length = stagedSize l noise n) :
    ∃ samples raw, unstage l noise n staged = .ok (samples, raw) ∧
      samples.length = l.sampleCount n ∧ raw.length = l.rawSize n := by
  cases noise with
  | untransposed =>
    have hlen : staged.length = n := hlen
    refine ⟨(l.split staged).1, (l.split staged).2, rfl, ?_, ?_⟩
    · rw [length_samples l hl, hlen]
    · rw [length_raw l hl, hlen]
  | removed k =>
    rw [stagedSize] at hlen
    have hplanes : (staged.take (Planes.size (l.sampleCount n) k)).length =
        Planes.size (l.sampleCount n) k := by
      rw [List.length_take]
      omega
    obtain ⟨samples, hsamples⟩ : ∃ samples, Planes.untranspose (l.sampleCount n) k
        (staged.take (Planes.size (l.sampleCount n) k)) = .ok samples := ⟨_, if_pos hplanes⟩
    refine ⟨samples, staged.drop (Planes.size (l.sampleCount n) k), ?_,
      (Planes.untranspose_eq_ok hsamples).1, ?_⟩
    · rw [unstage, hsamples]
      rfl
    · rw [List.length_drop]
      omega

/-- nothing is wrong with a body once its staged payload has the right length -/
theorem decode_of_unpack {l : Layout} (hl : 0 < l.itemSize) {s : Stages} {n : Nat}
    {body staged : Bytes} (h : unpack s (stagedSize l s.noise n) body = .ok staged)
    (hlen : staged.length = stagedSize l s.noise n) :
    ∃ payload, decode l s n body = .ok payload := by
  obtain ⟨samples, raw, hun, hsamples, hraw⟩ := exists_unstage hl hlen
  have hcount : ((unrepresent s.representation samples).map (Planes.expand s.noise.bits)).length =
      l.sampleCount n := by rw [List.length_map, length_unrepresent, hsamples]
  obtain ⟨payload, hjoin⟩ := Layout.exists_join hl hcount hraw
  refine ⟨payload, ?_⟩
  rw [decode, h]
  dsimp only [bind, Except.bind]
  rw [if_neg (not_not_intro hlen), hun]
  exact hjoin

theorem decode_eq_error {l : Layout} (hl : 0 < l.itemSize) {s : Stages} {n : Nat} {body : Bytes}
    {e : Fault} (h : decode l s n body = .error e) :
    unpack s (stagedSize l s.noise n) body = .error e ∨
      ∃ got, e = .body (.stagedLength (stagedSize l s.noise n) got) := by
  cases hun : unpack s (stagedSize l s.noise n) body with
  | error f =>
    rw [decode, hun] at h
    exact Or.inl h
  | ok staged =>
    by_cases hlen : staged.length = stagedSize l s.noise n
    · obtain ⟨payload, hpayload⟩ := decode_of_unpack hl hun hlen
      exact absurd (hpayload.symm.trans h) (by simp)
    · rw [decode, hun] at h
      dsimp only [bind, Except.bind] at h
      rw [if_pos hlen] at h
      exact Or.inr ⟨_, (Except.error.inj h).symm⟩

end Body

/-! ## Where a fault comes from -/

/-- every fault of a reader is one of these -/
def FailsIn {α ε : Type} (x : Except ε α) (P : ε → Prop) : Prop := ∀ e, x = .error e → P e

section
variable {α β ε : Type} {P : ε → Prop}

theorem failsIn_ok (a : α) : FailsIn (.ok a : Except ε α) P := fun _ h => absurd h (by simp)

theorem failsIn_error {e : ε} (h : P e) : FailsIn (.error e : Except ε α) P :=
  fun _ he => Except.error.inj he ▸ h

theorem failsIn_bind {x : Except ε α} {f : α → Except ε β} (hx : FailsIn x P)
    (hf : ∀ a, FailsIn (f a) P) : FailsIn (x >>= f) P := by
  intro e he
  rcases bind_eq_error he with he | ⟨a, -, he⟩
  · exact hx e he
  · exact hf a e he

theorem failsIn_map {x : Except ε α} (hx : FailsIn x P) (f : α → β) : FailsIn (x.map f) P := by
  cases x with
  | error e => exact failsIn_error (hx e rfl)
  | ok a => exact failsIn_ok (f a)

theorem failsIn_orFault {P : Fault → Prop} {e : Fault} (h : P e) (o : Option α) :
    FailsIn (orFault e o) P := by
  cases o with
  | none => exact failsIn_error h
  | some a => exact failsIn_ok a

theorem failsIn_foldlM {f : β → α → Except ε β} (hf : ∀ s x, FailsIn (f s x) P) (xs : List α)
    (s : β) : FailsIn (xs.foldlM f s) P := by
  induction xs generalizing s with
  | nil => exact failsIn_ok s
  | cons x xs ih =>
    rw [List.foldlM_cons]
    exact failsIn_bind (hf s x) ih

end

/-- the fault of one stage of a body -/
def Fault.OfStage (stage : String) (e : Fault) : Prop := ∃ f, e = .body f ∧ f.stage = stage

/-- a fault that is not one of a body -/
def Fault.OfField (e : Fault) : Prop := ∀ f, e ≠ .body f

namespace Base85

theorem failsIn_groupBytes (ds : List Nat) : FailsIn (groupBytes ds) (Fault.OfStage "ascii85") := by
  rw [groupBytes]
  split
  · exact failsIn_ok _
  · exact failsIn_error ⟨_, rfl, rfl⟩

theorem failsIn_step (s : State) (c : UInt8) : FailsIn (step s c) (Fault.OfStage "ascii85") := by
  rw [step]
  split
  · exact failsIn_ok _
  split
  · dsimp only
    split
    · exact failsIn_map (failsIn_groupBytes _) _
    · exact failsIn_ok _
  · exact failsIn_error ⟨_, rfl, rfl⟩

theorem failsIn_decode (b : Bytes) : FailsIn (decode b) (Fault.OfStage "ascii85") := by
  refine failsIn_bind (failsIn_foldlM failsIn_step b _) fun s => ?_
  rw [finish]
  split
  · exact failsIn_ok _
  · exact failsIn_error ⟨_, rfl, rfl⟩
  · exact failsIn_map (failsIn_groupBytes _) _

end Base85

namespace Base64

theorem failsIn_symbols (offset : Nat) (acc : List Nat) (b : Bytes) :
    FailsIn (symbols offset acc b) (Fault.OfStage "base64") := by
  induction b generalizing offset acc with
  | nil => exact failsIn_ok _
  | cons c cs ih =>
    rw [symbols]
    split
    · exact ih _ _
    · exact failsIn_error ⟨_, rfl, rfl⟩

theorem failsIn_lastQuad (offset : Nat) (acc : List Nat) (b : Bytes) :
    FailsIn (lastQuad offset acc b) (Fault.OfStage "base64") := by
  induction b generalizing acc with
  | nil => exact failsIn_ok _
  | cons c cs ih =>
    rw [lastQuad]
    split
    · split
      · exact failsIn_error ⟨_, rfl, rfl⟩
      · exact failsIn_ok _
    · split
      · exact ih _
      · exact failsIn_error ⟨_, rfl, rfl⟩

theorem failsIn_checkSingle (b : Bytes) : FailsIn (checkSingle b) (Fault.OfStage "base64") := by
  rw [checkSingle]
  split
  · split
    · exact failsIn_error ⟨_, rfl, rfl⟩
    · exact failsIn_ok _
  · exact failsIn_ok _

theorem failsIn_decode (b : Bytes) : FailsIn (decode b) (Fault.OfStage "base64") := by
  refine failsIn_bind (failsIn_checkSingle b) fun _ => ?_
  refine failsIn_bind (failsIn_symbols _ _ _) fun front => ?_
  refine failsIn_bind (failsIn_lastQuad _ _ _) fun (rear, padding) => ?_
  dsimp only
  split
  · exact failsIn_error ⟨_, rfl, rfl⟩
  split
  · exact failsIn_error ⟨_, rfl, rfl⟩
  split
  · exact failsIn_error ⟨_, rfl, rfl⟩
  · exact failsIn_ok _

end Base64

theorem Deflate.failsIn_inflate (limit : Nat) (b : Bytes) :
    FailsIn (inflate limit b) (Fault.OfStage "deflate") := by
  rw [inflate]
  split
  · split
    · exact failsIn_error ⟨_, rfl, rfl⟩
    · exact failsIn_ok _
  · exact failsIn_error ⟨_, rfl, rfl⟩
  · split <;> exact failsIn_error ⟨_, rfl, rfl⟩
  · split <;> exact failsIn_error ⟨_, rfl, rfl⟩

namespace Body

/-- the faults of the ASCII and DEFLATE steps name these steps -/
theorem failsIn_unpack (s : Stages) (limit : Nat) (body : Bytes) :
    FailsIn (unpack s limit body)
      fun e => e.OfStage "ascii85" ∨ e.OfStage "base64" ∨ e.OfStage "deflate" := by
  refine failsIn_bind ?_ fun compressed => ?_
  · cases s.encoding with
    | none => exact failsIn_ok _
    | base85 => exact fun e he => Or.inl (Base85.failsIn_decode body e he)
    | base64 => exact fun e he => Or.inr (Or.inl (Base64.failsIn_decode body e he))
  · cases s.compression with
    | none => exact failsIn_ok _
    | deflate => exact fun e he => Or.inr (Or.inr (Deflate.failsIn_inflate limit compressed e he))

/-- and the only other fault is that of the staged length -/
theorem failsIn_decode {l : Layout} (hl : 0 < l.itemSize) (s : Stages) (n : Nat) (body : Bytes) :
    FailsIn (decode l s n body) fun e =>
      ∃ stage ∈ ["ascii85", "base64", "deflate", "payload"], e.OfStage stage := by
  intro e he
  rcases decode_eq_error hl he with he | ⟨got, rfl⟩
  · rcases failsIn_unpack s _ body e he with he | he | he
    · exact ⟨"ascii85", by decide, he⟩
    · exact ⟨"base64", by decide, he⟩
    · exact ⟨"deflate", by decide, he⟩
  · exact ⟨"payload", by decide, _, rfl, rfl⟩

end Body

theorem Field.failsIn_number (field : Field) (b : Bytes) : FailsIn (field.number b) Fault.OfField :=
  failsIn_orFault (fun _ => by simp) _

theorem failsIn_stageLetter {α : Type} (stage : StageLetter) (ofCode? : UInt8 → Option α)
    (c : UInt8) : FailsIn (stageLetter stage ofCode? c) Fault.OfField :=
  failsIn_orFault (fun _ => by simp) _

theorem Stages.failsIn_parse (i : Nat) (b : Bytes) : FailsIn (parse i b) Fault.OfField :=
  failsIn_bind (failsIn_stageLetter _ _ _) fun _ =>
    failsIn_bind (failsIn_stageLetter _ _ _) fun _ =>
      failsIn_bind (failsIn_stageLetter _ _ _) fun _ =>
        failsIn_bind (failsIn_stageLetter _ _ _) fun _ => failsIn_ok _

theorem DataHeader.failsIn_parse (b : Bytes) : FailsIn (parse b) Fault.OfField := by
  rw [parse]
  split
  · exact failsIn_error fun _ => by simp
  split
  · exact failsIn_error fun _ => by simp
  refine failsIn_bind (failsIn_orFault (fun _ => by simp) _) fun sensor => ?_
  refine failsIn_bind (Field.failsIn_number _ _) fun items => ?_
  refine failsIn_bind (Stages.failsIn_parse _ _) fun stages => ?_
  refine failsIn_bind (Field.failsIn_number _ _) fun compressed => ?_
  exact failsIn_bind (Field.failsIn_number _ _) fun encoded => failsIn_ok _

namespace InfoPacket

theorem failsIn_parseClass (b : Bytes) (s : Sensor) : FailsIn (parseClass b s) Fault.OfField := by
  refine failsIn_bind (Field.failsIn_number _ _) fun items => ?_
  refine failsIn_bind (Field.failsIn_number _ _) fun packets => ?_
  split
  · exact failsIn_ok _
  · exact failsIn_error fun _ => by simp

theorem failsIn_parse (b : Bytes) : FailsIn (parse b) Fault.OfField := by
  rw [parse]
  split
  · exact failsIn_error fun _ => by simp
  split
  · exact failsIn_error fun _ => by simp
  refine failsIn_bind (failsIn_parseClass b .starboard) fun starboard => ?_
  refine failsIn_bind (failsIn_parseClass b .port) fun port => ?_
  refine failsIn_bind (failsIn_parseClass b .ocr) fun ocr => ?_
  exact failsIn_bind (failsIn_parseClass b .mcoms) fun mcoms => failsIn_ok _

end InfoPacket

/-- of a packet's faults, those of its body name the stages before the staged length, or that
length -/
theorem Packet.failsIn_decode (b : Bytes) : FailsIn (decode b) fun e =>
    e.OfField ∨ ∃ stage ∈ ["ascii85", "base64", "deflate", "payload"], e.OfStage stage := by
  rw [decode]
  split
  · exact failsIn_error (Or.inl fun _ => by simp)
  split
  · exact failsIn_map (fun e he => Or.inl (InfoPacket.failsIn_parse b e he)) _
  refine failsIn_map (failsIn_bind ?_ fun header => ?_) _
  · exact fun e he => Or.inl (DataHeader.failsIn_parse b e he)
  dsimp only
  split
  · exact failsIn_error (Or.inl fun _ => by simp)
  refine failsIn_bind (fun e he => Or.inr ?_) fun payload => failsIn_ok _
  exact Body.failsIn_decode (Layout.itemSize_ofSensor_pos _) _ _ _ e he

end Shoreline
