import Shoreline.Session
import Shoreline.Proofs.Acquisition

/-!
# What can be sent

Whether an acquired cast can be sent under given instructions is decided by the checks that are made
first: the burst size, the noise bits and the items of each class (`Profile.Sendable`).  Every later
limit, of packet numbers, item counts, sizes and bursts, is then kept, so a sender is made; and what is
refused is refused before the link is touched.

* `Instructions.validate_eq_ok_iff`, `Profile.checkItems_eq_ok_iff`, `Profile.package_eq_ok_iff`
  what the checks accept;
* `Profile.refused_of_package`     what they refuse, and why;
* `Profile.exists_sender`          every package that is made can be sent;
* `Sender.transmit_ne`             sending does not end as if packaging had failed;
* `transmitted_iff_sendable`       all of it, for whatever is acquired.
-/

namespace Shoreline

/-! ## Checks -/

theorem Instructions.validate_eq_ok_iff {i : Instructions} :
    i.validate = .ok () ↔ i.burstSize ∈ burstSizes ∧ i.noiseBits ≤ Noise.most ∧
      (i.planes = false → i.noiseBits = 0) := by
  rw [validate]
  split
  · next hsize => exact ⟨fun h => absurd h (by simp), fun h => absurd h.1 hsize⟩
  next hsize =>
  split
  · next hbits => exact ⟨fun h => absurd h (by simp), fun h => absurd h.2.1 (Nat.not_le.mpr hbits)⟩
  next hbits =>
  split
  · next hplanes =>
    exact ⟨fun h => absurd h (by simp), fun h => absurd (h.2.2 hplanes.1) (Nat.pos_iff_ne_zero.mp
      hplanes.2)⟩
  · next hplanes =>
    refine iff_of_true rfl ⟨Decidable.not_not.mp hsize, Nat.le_of_not_lt hbits, fun h => ?_⟩
    exact Nat.eq_zero_of_not_pos fun hpos => hplanes ⟨h, hpos⟩

namespace Profile
variable {p : Profile} {i : Instructions} {pkg : Package} {e : Fault}

theorem checkItems_eq_ok_iff : p.checkItems = .ok () ↔ ∀ c, p.definition.items.get c ≤ mostItems :=
  ⟨checkItems_eq_ok, checkItems_of_le⟩

/-- a cast of whole items is packaged if both checks pass -/
theorem package_eq_ok_iff (hwhole : ∀ c : Sensor, c.itemSize ∣ (p.samples.get c).length) :
    (∃ pkg, p.package i = .ok pkg) ↔ i.validate = .ok () ∧ p.checkItems = .ok () := by
  constructor
  · rintro ⟨pkg, h⟩
    obtain ⟨⟨⟩, hvalid, h⟩ := bind_eq_ok h
    obtain ⟨⟨⟩, hcheck, -⟩ := bind_eq_ok h
    exact ⟨hvalid, hcheck⟩
  · rintro ⟨hvalid, hcheck⟩
    obtain ⟨pkg, hpkg, -⟩ := exists_package hwhole (checkItems_eq_ok_iff.mp hcheck) hvalid
    exact ⟨pkg, hpkg⟩

/-- the cast can be sent under the instructions -/
structure Sendable (p : Profile) (i : Instructions) : Prop where
  isPowerOfTwo : i.burstSize.isPowerOfTwo
  burstSize : 128 ≤ i.burstSize ∧ i.burstSize ≤ 8192
  noiseBits : i.noiseBits ≤ 7
  planes : i.planes = false → i.noiseBits = 0
  items : ∀ c, p.definition.items.get c ≤ 9999

theorem sendable_iff : p.Sendable i ↔ i.validate = .ok () ∧ p.checkItems = .ok () := by
  rw [Instructions.validate_eq_ok_iff, checkItems_eq_ok_iff, Framed.mem_burstSizes_iff]
  constructor
  · rintro ⟨hpower, hsize, hbits, hplanes, hitems⟩
    exact ⟨⟨⟨hpower, hsize⟩, hbits, hplanes⟩, hitems⟩
  · rintro ⟨⟨⟨hpower, hsize⟩, hbits, hplanes⟩, hitems⟩
    exact ⟨hpower, hsize, hbits, hplanes, hitems⟩

/-! ## Refusals -/

/-- the reasons why a cast is not sent under the instructions -/
inductive Refused (p : Profile) (i : Instructions) : Fault → Prop where
  | burstSize : i.burstSize ∉ burstSizes → Refused p i (.burstSize i.burstSize)
  | noiseBits : 7 < i.noiseBits → Refused p i .noiseBits
  | noiseWithoutPlanes : i.planes = false → 0 < i.noiseBits → Refused p i .noiseWithoutPlanes
  | items (c : Sensor) : 9999 < p.definition.items.get c →
    Refused p i (.overflow .classItems (p.definition.items.get c))

theorem refused_of_validate (h : i.validate = .error e) : p.Refused i e := by
  rw [Instructions.validate] at h
  split at h
  · next hsize =>
    rw [← Except.error.inj h]
    exact .burstSize hsize
  split at h
  · next hbits =>
    rw [← Except.error.inj h]
    exact .noiseBits hbits
  split at h
  · next hplanes =>
    rw [← Except.error.inj h]
    exact .noiseWithoutPlanes hplanes.1 hplanes.2
  · exact absurd h (by simp)

theorem refused_of_checkItems (h : p.checkItems = .error e) : p.Refused i e := by
  rw [checkItems] at h
  split at h
  · next n hn =>
    obtain ⟨c, -, rfl⟩ := List.mem_map.mp (List.mem_of_find?_eq_some hn)
    have hlt := List.find?_some hn
    rw [decide_eq_true_iff] at hlt
    rw [← Except.error.inj h]
    exact .items c hlt
  · exact absurd h (by simp)

theorem refused_of_package (hwhole : ∀ c : Sensor, c.itemSize ∣ (p.samples.get c).length)
    (h : p.package i = .error e) : p.Refused i e := by
  rcases bind_eq_error h with hvalid | ⟨⟨⟩, hvalid, h'⟩
  · exact refused_of_validate hvalid
  rcases bind_eq_error h' with hcheck | ⟨⟨⟩, hcheck, -⟩
  · exact refused_of_checkItems hcheck
  · obtain ⟨pkg, hpkg⟩ := (package_eq_ok_iff hwhole).mpr ⟨hvalid, hcheck⟩
    rw [hpkg] at h
    exact absurd h (by simp)

/-- the limits behind the checks are never the reason -/
theorem Refused.early (h : p.Refused i e) (n m : Nat) :
    e ≠ .overflow .packetNumber n ∧ e ≠ .overflow .itemCount n ∧
      e ≠ .overflow .compressedSize n ∧ e ≠ .overflow .encodedSize n ∧ e ≠ .tooManyBursts n m := by
  cases h <;> simp

/-! ## Sending -/

theorem exists_sender [Deflate.Encoder] (hdeflate : Deflate.Bounded) (h : p.package i = .ok pkg)
    (config : SenderConfig) (now : Nat) : ∃ s, Sender.new pkg config now = .ok s :=
  Sender.exists_new (package_eq_ok h).2.2.2.burstSize (length_le_of_package h) (fun _ => hdeflate)
    config now

end Profile

theorem Sender.pollStatus_ne (s : Sender) (now : Nat) :
    (s.pollStatus now).1 ≠ some .packageFailure := by
  rw [pollStatus]
  split
  · simp
  split
  · simp
  split <;> simp

theorem Sender.transmit_ne (s : Sender) (link : Script) :
    (s.transmit link).1 ≠ .packageFailure := by
  fun_induction transmit s link with
  | case1 s link hcancelled => simp
  | case2 s link hcancelled s₁ e link₁ h₁ => simp
  | case3 s link hcancelled s₁ link₁ h₁ s₂ e link₂ h₂ =>
    -- the link has failed: the status that the timers show, or else a failure of the modem
    have hne := s₂.pollStatus_ne link₂.now.1
    dsimp only
    cases hstatus : (s₂.pollStatus link₂.now.1).1 with
    | none => simp
    | some status => exact fun he => hne (hstatus.trans (congrArg some he))
  | case4 s link hcancelled s₁ link₁ h₁ s₂ link₂ h₂ status s₃ h₃ =>
    have hne := s₂.pollStatus_ne link₂.now.1
    rw [h₃] at hne
    exact fun he => hne (congrArg some he)
  | case5 s link hcancelled s₁ link₁ h₁ s₂ link₂ h₂ s₃ h₃ hc ih => exact ih

theorem transmitProfile_of_error [Deflate.Encoder] {p : Profile} {i : Instructions} {e : Fault}
    (h : p.package i = .error e) (config : SenderConfig) (link : Script) :
    transmitProfile p i config link = (.packageFailure, link) := by
  rw [transmitProfile, h]

theorem transmitProfile_eq_packageFailure_iff [Deflate.Encoder] (hdeflate : Deflate.Bounded)
    {p : Profile} {i : Instructions} (config : SenderConfig) (link : Script) :
    (transmitProfile p i config link).1 = .packageFailure ↔ ¬ ∃ pkg, p.package i = .ok pkg := by
  cases h : p.package i with
  | error e =>
    rw [transmitProfile_of_error h]
    simp
  | ok pkg =>
    obtain ⟨s, hs⟩ := Profile.exists_sender hdeflate h config link.now.1
    rw [transmitProfile, h]
    dsimp only
    rw [hs]
    exact iff_of_false (s.transmit_ne link.now.2) (not_not_intro ⟨pkg, rfl⟩)

/-- for whatever is acquired: it can be sent if the checks that come first pass, these are the only
ones that fail, and then the link is not touched -/
theorem transmitted_iff_sendable [Deflate.Encoder] (hdeflate : Deflate.Bounded)
    (serial profile : UInt16) (calls : List Builder.Call) (i : Instructions) :
    let cast := ((Builder.new serial profile).acquire calls).finalize
    (∀ config now, (∃ pkg s, cast.package i = .ok pkg ∧ Sender.new pkg config now = .ok s) ↔
      cast.Sendable i) ∧
    (∀ config now e, (cast.package i = .error e ∨
        ∃ pkg, cast.package i = .ok pkg ∧ Sender.new pkg config now = .error e) →
      cast.Refused i e ∧ ∀ n m, e ≠ .overflow .packetNumber n ∧ e ≠ .overflow .itemCount n ∧
        e ≠ .overflow .compressedSize n ∧ e ≠ .overflow .encodedSize n ∧
        e ≠ .tooManyBursts n m) ∧
    ∀ config link,
      ((transmitProfile cast i config link).1 = .packageFailure ↔ ¬ cast.Sendable i) ∧
      (¬ cast.Sendable i → transmitProfile cast i config link = (.packageFailure, link)) := by
  intro cast
  have hwhole := Builder.dvd_acquire serial profile calls
  have hpackage : (∃ pkg, cast.package i = .ok pkg) ↔ cast.Sendable i :=
    (Profile.package_eq_ok_iff hwhole).trans Profile.sendable_iff.symm
  refine ⟨fun config now => ⟨?_, fun hsend => ?_⟩, ?_, fun config link => ⟨?_, fun hnot => ?_⟩⟩
  · rintro ⟨pkg, s, hpkg, -⟩
    exact hpackage.mp ⟨pkg, hpkg⟩
  · obtain ⟨pkg, hpkg⟩ := hpackage.mpr hsend
    obtain ⟨s, hs⟩ := Profile.exists_sender hdeflate hpkg config now
    exact ⟨pkg, s, hpkg, hs⟩
  · rintro config now e (herror | ⟨pkg, hpkg, herror⟩)
    · have hrefused := Profile.refused_of_package hwhole herror
      exact ⟨hrefused, hrefused.early⟩
    · obtain ⟨s, hs⟩ := Profile.exists_sender hdeflate hpkg config now
      rw [hs] at herror
      exact absurd herror (by simp)
  · rw [transmitProfile_eq_packageFailure_iff hdeflate, hpackage]
  · cases h : cast.package i with
    | error e => exact transmitProfile_of_error h config link
    | ok pkg => exact absurd (hpackage.mp ⟨pkg, h⟩) hnot

/-- it can be sent with noise bits removed from the bit planes, but not from whole samples -/
theorem interrupted_cast_sent :
    let cast := ((Builder.new 770 12345).acquire Builder.interruptedCalls).finalize
    let link := Script.ofReadings [.arrived [66], .nothing]
    (∃ pkg s, cast.package ⟨.gray, true, 2, .deflate, .base85, 128⟩ = .ok pkg ∧
      Sender.new pkg .standard 0 = .ok s) ∧
    transmitProfile cast ⟨.gray, false, 2, .deflate, .base85, 128⟩ .standard link =
      (.packageFailure, link) := by
  intro cast link
  have hsend : cast.Sendable ⟨.gray, true, 2, .deflate, .base85, 128⟩ :=
    ⟨⟨7, rfl⟩, by decide, by decide, by decide, fun c => by cases c <;> decide +kernel⟩
  have hnot : ¬ cast.Sendable ⟨.gray, false, 2, .deflate, .base85, 128⟩ := fun h =>
    absurd (h.planes rfl) (by decide)
  obtain ⟨hsent, -, -⟩ := transmitted_iff_sendable Deflate.bounded_stored 770 12345 Builder.interruptedCalls
    ⟨.gray, true, 2, .deflate, .base85, 128⟩
  obtain ⟨-, -, hrefused⟩ := transmitted_iff_sendable Deflate.bounded_stored 770 12345
    Builder.interruptedCalls ⟨.gray, false, 2, .deflate, .base85, 128⟩
  exact ⟨(hsent .standard 0).mpr hsend, (hrefused .standard link).2 hnot⟩

end Shoreline
