import Shoreline.Proofs.BurstReader

/-!
# No burst is jumped over

A reader that is drained, made to give up what is still arriving, and drained again until there is
nothing to give up, has found every burst of its bytes but those inside a burst that it gave
(`every_burst_found`).  Wherever the scan moves on without giving a burst, none begins in the bytes
that it leaves (`Bare`): a burst begins with the magic, and the magic does not overlap itself, so the
four bytes of a magic that begins no burst may be dropped.

* `scan_some`, `scan_none`   what one search leaves behind;
* `Sifted`                   the bursts of a string, the first one first, then those behind its end;
* `sifted_exhaust`           these are what the reader gives.
-/

namespace Shoreline

namespace Burst

/-! ## Where bursts begin -/

theorem parseKey_le {header : Bytes} {key : PacketKey} (h : parseKey header = .ok key) :
    key.serial.toNat ≤ 9999 ∧ key.packet.toNat ≤ 9999 := by
  obtain ⟨serial, hserial, h⟩ := bind_eq_ok h
  obtain ⟨profile, -, h⟩ := bind_eq_ok h
  obtain ⟨packet, hpacket, h⟩ := bind_eq_ok h
  rw [← Except.ok.inj h]
  exact ⟨Nat.le_of_lt_succ (Field.word_lt hserial), Nat.le_of_lt_succ (Field.word_lt hpacket)⟩

theorem fits_of_found {m : Nat} {b : Bytes} {burst : Burst} (h : Found m b burst) : burst.Fits := by
  obtain ⟨hserial, hpacket⟩ := parseKey_le h.key
  refine ⟨hserial, hpacket, ?_⟩
  have hkind := h.kind
  obtain ⟨key, kind⟩ := burst
  cases kind with
  | announce count =>
    obtain ⟨-, -, hsize⟩ := hkind
    exact Nat.le_of_lt_succ (Field.number_lt hsize)
  | data index piece =>
    obtain ⟨-, hindex, hsize, hzero, hpos, -⟩ := hkind
    have hne : index.toNat ≠ 0 := fun h0 => hzero (UInt16.toNat_inj.mp h0)
    exact ⟨Nat.pos_of_ne_zero hne, Nat.le_of_lt_succ (Field.word_lt hindex), hpos,
      Nat.le_of_lt_succ (Field.number_lt hsize)⟩
  | terminal => trivial

/-- the bursts that are read are those that can be written, and as long as they are written -/
theorem of_parse {m n : Nat} {b : Bytes} {burst : Burst}
    (h : parse m b = .ok (some (burst, n))) : burst.Fits ∧ n = burst.wireSize :=
  ⟨fits_of_found (found_of_parse h).1, (found_of_parse h).2⟩

theorem wireSize_of_parse {m n : Nat} {b : Bytes} {burst : Burst}
    (h : parse m b = .ok (some (burst, n))) : n = burst.wireSize := (found_of_parse h).2

theorem le_length_of_parse {m n : Nat} {b : Bytes} {burst : Burst}
    (h : parse m b = .ok (some (burst, n))) : n ≤ b.length := by
  obtain ⟨hfound, rfl⟩ := found_of_parse h
  exact hfound.length

/-- a burst stands at the front of `b` -/
def Begins (m : Nat) (b : Bytes) : Prop := ∃ x, parse m b = .ok (some x)

theorem magic_of_begins {m : Nat} {b : Bytes} (h : Begins m b) : magic.isPrefixOf b = true := by
  obtain ⟨⟨burst, n⟩, h⟩ := h
  rw [List.isPrefixOf_iff_prefix, ← (found_of_parse h).1.magic]
  exact List.take_prefix 4 b

theorem length_of_magic {b : Bytes} (h : magic.isPrefixOf b = true) : 4 ≤ b.length :=
  (List.isPrefixOf_iff_prefix.mp h).length_le

/-- the magic does not overlap itself -/
theorem magic_drop {b : Bytes} (h : magic.isPrefixOf b = true) {i : Nat} (h0 : 0 < i) (h4 : i < 4) :
    magic.isPrefixOf (b.drop i) = false := by
  obtain ⟨t, rfl⟩ := List.isPrefixOf_iff_prefix.mp h
  match i, h0, h4 with
  | 1, _, _ | 2, _, _ | 3, _, _ => rfl

/-- no burst begins in the first `k` bytes -/
def Bare (m : Nat) (b : Bytes) (k : Nat) : Prop := ∀ j < k, ¬ Begins m (b.drop j)

namespace Bare
variable {m k l : Nat} {b : Bytes}

theorem zero (m : Nat) (b : Bytes) : Bare m b 0 := fun _ hj => absurd hj (Nat.not_lt_zero _)

theorem append (hk : Bare m b k) (hl : Bare m (b.drop k) l) : Bare m b (k + l) := by
  intro j hj
  by_cases h : j < k
  · exact hk j h
  · have hb := hl (j - k) (by omega)
    rwa [List.drop_drop, show k + (j - k) = j by omega] at hb

theorem of_magic (h : magic.isPrefixOf b = true) (hb : ¬ Begins m b) : Bare m b 4 := by
  intro j hj
  by_cases h0 : j = 0
  · rw [h0, List.drop_zero]
    exact hb
  · intro hbeg
    have hmagic := magic_of_begins hbeg
    rw [magic_drop h (Nat.pos_of_ne_zero h0) hj] at hmagic
    exact absurd hmagic (by decide)

theorem of_short (h : b.length < 4) (k : Nat) : Bare m b k := by
  intro j _ hbeg
  have hlen := length_of_magic (magic_of_begins hbeg)
  rw [List.length_drop] at hlen
  omega

end Bare

end Burst

namespace BurstReader
open Burst

/-! ## One search -/

theorem seek?_some {b t : Bytes} (h : seek? b = some t) (m : Nat) :
    ∃ i, t = b.drop i ∧ magic.isPrefixOf t = true ∧ Bare m b i := by
  induction b with
  | nil => exact absurd h (by simp [seek?])
  | cons x b ih =>
    rw [seek?] at h
    split at h
    · next hp =>
      obtain rfl := Option.some.inj h
      exact ⟨0, rfl, hp, Bare.zero m _⟩
    · next hp =>
      obtain ⟨i, rfl, ht, hbare⟩ := ih h
      have hfirst : Bare m (x :: b) 1 := by
        intro j hj hbeg
        obtain rfl : j = 0 := by omega
        exact hp (magic_of_begins hbeg)
      exact ⟨1 + i, by rw [← List.drop_drop]; rfl, ht, hfirst.append hbare⟩

theorem seek?_none {b : Bytes} (h : seek? b = none) (m k : Nat) : Bare m b k := by
  induction b generalizing k with
  | nil => exact Bare.of_short (by decide) k
  | cons x b ih =>
    rw [seek?] at h
    split at h
    · exact absurd h (by simp)
    · next hp =>
      intro j hj hbeg
      cases j with
      | zero => exact hp (magic_of_begins hbeg)
      | succ j => exact ih h k j (by omega) hbeg

theorem not_begins_of_parse {m : Nat} {b : Bytes} {x : Except Fault (Option (Burst × Nat))}
    (h : Burst.parse m b = x) (hx : ∀ y, x ≠ .ok (some y)) : ¬ Begins m b := by
  rintro ⟨y, hy⟩
  exact hx y (h.symm.trans hy)

/-- what a magic that begins no burst gives room for -/
theorem bare_of_error {b t : Bytes} {i m : Nat} {e : Fault} (ht : t = b.drop i)
    (hmagic : magic.isPrefixOf t = true) (hbare : Bare m b i) (hp : Burst.parse m t = .error e) :
    Bare m b (i + 4) :=
  hbare.append (ht ▸ Bare.of_magic hmagic (not_begins_of_parse hp fun _ => by simp))

theorem mostPayload_reject (r : BurstReader) (e : Fault) : (r.reject e).mostPayload = r.mostPayload :=
  rfl

/-- a burst that the search gives is the first one, and what is left follows it -/
theorem scan_some {r r' : BurstReader} {b : Bytes} {burst : Burst}
    (h : r.scan b = (some burst, r')) :
    r'.mostPayload = r.mostPayload ∧ ∃ i, Bare r.mostPayload b i ∧
      Burst.parse r.mostPayload (b.drop i) = .ok (some (burst, burst.wireSize)) ∧
      r'.buffer = b.drop (i + burst.wireSize) := by
  fun_induction scan r b with
  | case1 r b hs => exact absurd h (by simp)
  | case2 r b t hs found used hp =>
    obtain ⟨hfound, rfl⟩ := Prod.mk.inj h
    obtain rfl := Option.some.inj hfound
    obtain ⟨i, rfl, -, hbare⟩ := seek?_some hs r.mostPayload
    obtain rfl := wireSize_of_parse hp
    exact ⟨rfl, i, hbare, hp, List.drop_drop⟩
  | case3 r b t hs hp => exact absurd h (by simp)
  | case4 r b t hs e hp hl ih =>
    obtain ⟨i, ht, hmagic, hbare⟩ := seek?_some hs r.mostPayload
    obtain ⟨hm, j, hrest, hparse, hbuf⟩ := ih h
    have hdrop (k : Nat) : (t.drop 4).drop k = b.drop (i + 4 + k) := by
      rw [ht, List.drop_drop, List.drop_drop, Nat.add_assoc]
    rw [mostPayload_reject] at hm hrest hparse
    refine ⟨hm, i + 4 + j, (bare_of_error ht hmagic hbare hp).append ?_, ?_, ?_⟩
    · rw [← Nat.add_zero (i + 4), ← hdrop 0]
      exact hrest
    · rw [← hdrop]
      exact hparse
    · rw [hbuf, hdrop, Nat.add_assoc (i + 4)]

/-- where the search gives nothing, it has passed over no burst, and what is left is too short for a
magic or begins with one that has to wait -/
theorem scan_none {r r' : BurstReader} {b : Bytes} (h : r.scan b = (none, r')) :
    r'.mostPayload = r.mostPayload ∧
      (∃ k, Bare r.mostPayload b k ∧ r'.buffer = b.drop k) ∧
      (r'.buffer.length < 4 ∨
        magic.isPrefixOf r'.buffer = true ∧ ¬ Begins r.mostPayload r'.buffer) := by
  fun_induction scan r b with
  | case1 r b hs =>
    obtain ⟨-, rfl⟩ := Prod.mk.inj h
    refine ⟨rfl, ⟨b.length - 3, seek?_none hs _ _, rfl⟩, Or.inl ?_⟩
    show (lastPart b).length < 4
    rw [lastPart, List.length_drop]
    omega
  | case2 r b t hs found used hp => exact absurd h (by simp)
  | case3 r b t hs hp =>
    obtain ⟨-, rfl⟩ := Prod.mk.inj h
    obtain ⟨i, rfl, hmagic, hbare⟩ := seek?_some hs r.mostPayload
    exact ⟨rfl, ⟨i, hbare, rfl⟩, Or.inr ⟨hmagic, not_begins_of_parse hp fun _ => by simp⟩⟩
  | case4 r b t hs e hp hl ih =>
    obtain ⟨i, ht, hmagic, hbare⟩ := seek?_some hs r.mostPayload
    obtain ⟨hm, ⟨k, hrest, hbuf⟩, hleft⟩ := ih h
    rw [mostPayload_reject] at hm hrest hleft
    have hdrop : t.drop 4 = b.drop (i + 4) := by rw [ht, List.drop_drop]
    rw [hdrop] at hrest hbuf
    refine ⟨hm, ⟨i + 4 + k, (bare_of_error ht hmagic hbare hp).append hrest, ?_⟩, hleft⟩
    rw [hbuf, List.drop_drop]

/-! ## All bursts of a string -/

/-- the bursts that begin at or behind position `k` of `s`: the first one, then those behind its end -/
inductive Sifted (m : Nat) (s : Bytes) : Nat → List (Nat × Burst) → Prop
  | nil {k : Nat} (h : ∀ l, Bare m (s.drop k) l) : Sifted m s k []
  | cons {k i : Nat} {burst : Burst} {rest : List (Nat × Burst)} (h : Bare m (s.drop k) i)
      (hparse : Burst.parse m (s.drop (k + i)) = .ok (some (burst, burst.wireSize)))
      (hrest : Sifted m s (k + i + burst.wireSize) rest) : Sifted m s k ((k + i, burst) :: rest)

namespace Sifted
variable {m k : Nat} {s : Bytes} {finds : List (Nat × Burst)}

theorem skip {l : Nat} (hl : Bare m (s.drop k) l) (h : Sifted m s (k + l) finds) :
    Sifted m s k finds := by
  cases h with
  | nil hn =>
    refine .nil fun j => ?_
    have hj := hn j
    rw [← List.drop_drop] at hj
    intro i hi
    exact hl.append hj i (by omega)
  | @cons _ i burst rest hb hparse hrest =>
    rw [← List.drop_drop] at hb
    have hall := hl.append hb
    rw [Nat.add_assoc k l i] at hparse hrest ⊢
    exact .cons hall hparse hrest

theorem parse_of_mem (h : Sifted m s k finds) {i : Nat} {burst : Burst} (hi : (i, burst) ∈ finds) :
    k ≤ i ∧ Burst.parse m (s.drop i) = .ok (some (burst, burst.wireSize)) := by
  induction h with
  | nil hn => exact absurd hi (by simp)
  | cons hb hparse hrest ih =>
    rcases List.mem_cons.mp hi with hi | hi
    · obtain ⟨rfl, rfl⟩ := Prod.mk.inj hi
      exact ⟨Nat.le_add_right _ _, hparse⟩
    · obtain ⟨hle, hp⟩ := ih hi
      exact ⟨by omega, hp⟩

theorem pairwise (h : Sifted m s k finds) :
    finds.Pairwise fun x y => x.1 + x.2.wireSize ≤ y.1 := by
  induction h with
  | nil hn => exact List.Pairwise.nil
  | cons hb hparse hrest ih =>
    exact List.pairwise_cons.mpr ⟨fun y hy => (hrest.parse_of_mem hy).1, ih⟩

theorem mem_or_inside (h : Sifted m s k finds) {j n : Nat} {burst : Burst} (hj : k ≤ j)
    (hp : Burst.parse m (s.drop j) = .ok (some (burst, n))) :
    (j, burst) ∈ finds ∨ ∃ x ∈ finds, x.1 < j ∧ j < x.1 + x.2.wireSize := by
  have hbegins {k : Nat} (hk : k ≤ j) : Begins m ((s.drop k).drop (j - k)) := by
    rw [List.drop_drop, show k + (j - k) = j by omega]
    exact ⟨_, hp⟩
  induction h with
  | nil hn => exact absurd (hbegins hj) (hn _ _ (Nat.lt_succ_self _))
  | @cons k i found rest hb hparse hrest ih =>
    have hi : k + i ≤ j := Nat.le_of_not_lt fun hlt => hb (j - k) (by omega) (hbegins hj)
    by_cases heq : j = k + i
    · rw [heq, hparse] at hp
      obtain ⟨rfl, -⟩ := Prod.mk.inj (Option.some.inj (Except.ok.inj hp))
      exact Or.inl (heq ▸ List.mem_cons_self)
    · by_cases hin : j < k + i + found.wireSize
      · exact Or.inr ⟨_, List.mem_cons_self, by omega, hin⟩
      · rcases ih (by omega) with hmem | ⟨x, hx, hin⟩
        · exact Or.inl (List.mem_cons_of_mem _ hmem)
        · exact Or.inr ⟨x, List.mem_cons_of_mem _ hx, hin⟩

end Sifted

/-! ## Draining and giving up in turn -/

theorem next_le {r r' : BurstReader} (h : r.next = (none, r')) :
    r'.buffer.length ≤ r.buffer.length := by
  obtain ⟨-, ⟨k, -, hbuf⟩, -⟩ := scan_none h
  rw [hbuf, List.length_drop]
  omega

theorem skipStalled_cases (r : BurstReader) :
    (magic.isPrefixOf r.buffer = true ∧
      r.skipStalled = (true, { r with buffer := r.buffer.drop 4, rejected := r.rejected + 1 })) ∨
    (¬ magic.isPrefixOf r.buffer = true ∧ r.skipStalled = (false, r)) := by
  by_cases h : magic.isPrefixOf r.buffer = true
  · exact Or.inl ⟨h, skipStalled_of_magic h⟩
  · exact Or.inr ⟨h, if_neg h⟩

theorem skipStalled_shorter {r r' : BurstReader} (h : r.skipStalled = (true, r')) :
    r'.buffer.length < r.buffer.length := by
  rcases skipStalled_cases r with ⟨hmagic, hs⟩ | ⟨-, hs⟩
  · obtain ⟨-, rfl⟩ := Prod.mk.inj (hs.symm.trans h)
    have hlen := length_of_magic hmagic
    rw [List.length_drop]
    omega
  · exact absurd (Prod.mk.inj (hs.symm.trans h)).1 (by decide)

/-- drains the reader, makes it give up what is still arriving, and so on until there is nothing to
give up; each burst with the position it was read from, in a string of `total` bytes that ends where
the reader's bytes end -/
def exhaust (total : Nat) (r : BurstReader) : List (Nat × Burst) :=
  match h : r.next with
  | (some burst, r') =>
    have := next_shorter h
    (total - r'.buffer.length - burst.wireSize, burst) :: exhaust total r'
  | (none, r') =>
    match hs : r'.skipStalled with
    | (true, r'') =>
      have := Nat.lt_of_lt_of_le (skipStalled_shorter hs) (next_le h)
      exhaust total r''
    | (false, _) => []
termination_by r.buffer.length

/-- the reader gives the first burst of its bytes, then those behind its end -/
theorem sifted_exhaust {s : Bytes} {r : BurstReader} {k : Nat} (hr : r.buffer = s.drop k) :
    Sifted r.mostPayload s k (exhaust s.length r) := by
  fun_induction exhaust s.length r generalizing k with
  | case1 r burst r' h hlt ih =>
    obtain ⟨hm, i, hbare, hparse, hbuf⟩ := scan_some h
    rw [hr, List.drop_drop] at hparse hbuf
    rw [hr] at hbare
    have hlen := le_length_of_parse hparse
    have hpos := parse_used hparse
    have hplace : s.length - r'.buffer.length - burst.wireSize = k + i := by
      rw [List.length_drop] at hlen
      rw [hbuf, List.length_drop]
      omega
    rw [hplace]
    refine .cons hbare hparse ?_
    rw [← hm]
    exact ih (by rw [hbuf, Nat.add_assoc])
  | case2 r r' h r'' hs hlt ih =>
    obtain ⟨hm, ⟨i, hbare, hbuf⟩, hleft⟩ := scan_none h
    rw [hr, List.drop_drop] at hbuf
    rw [hr] at hbare
    obtain ⟨hmagic, hstep⟩ | ⟨-, hstep⟩ := skipStalled_cases r'
    · obtain ⟨-, rfl⟩ := Prod.mk.inj (hstep.symm.trans hs)
      have hnone : ¬ Begins r.mostPayload r'.buffer := by
        rcases hleft with hshort | ⟨-, hn⟩
        · exact absurd (length_of_magic hmagic) (by omega)
        · exact hn
      have hfour := Bare.of_magic hmagic hnone
      rw [hbuf] at hfour
      refine Sifted.skip hbare (Sifted.skip hfour ?_)
      rw [← hm]
      exact ih (by rw [hbuf, List.drop_drop])
    · exact absurd (Prod.mk.inj (hstep.symm.trans hs)).1 (by decide)
  | case3 r r' h r'' hs =>
    obtain ⟨-, ⟨i, hbare, hbuf⟩, hleft⟩ := scan_none h
    rw [hr, List.drop_drop] at hbuf
    rw [hr] at hbare
    obtain ⟨-, hstep⟩ | ⟨hmagic, -⟩ := skipStalled_cases r'
    · exact absurd (Prod.mk.inj (hstep.symm.trans hs)).1 (by decide)
    · rcases hleft with hshort | ⟨hmagic', -⟩
      · rw [hbuf] at hshort
        exact Sifted.skip hbare (.nil fun l => Bare.of_short hshort l)
      · exact absurd hmagic' hmagic

/-- every burst of a string is given, in order and whole, but those inside a burst that is given -/
theorem every_burst_found (s : Bytes) (m : Nat) :
    let finds := exhaust s.length ((new m).push s)
    (∀ x ∈ finds, Burst.parse m (s.drop x.1) = .ok (some (x.2, x.2.wireSize))) ∧
      finds.Pairwise (fun x y => x.1 + x.2.wireSize ≤ y.1) ∧
      ∀ (j : Nat) (burst : Burst) (n : Nat),
        Burst.parse m (s.drop j) = .ok (some (burst, n)) →
          (j, burst) ∈ finds ∨ ∃ x ∈ finds, x.1 < j ∧ j < x.1 + x.2.wireSize := by
  intro finds
  have hall : Sifted m s 0 finds := sifted_exhaust (r := (new m).push s) (k := 0) rfl
  exact ⟨fun x hx => (hall.parse_of_mem hx).2, hall.pairwise,
    fun j burst n hp => hall.mem_or_inside (Nat.zero_le j) hp⟩

/-- a burst with a wrong last byte of its checksum, then one that is cut off, then a whole one -/
theorem burst_behind_damage_found :
    let burst : Burst := ⟨⟨⟨770, 12345⟩, 0⟩, .announce 0⟩
    let cut : Burst := ⟨⟨⟨770, 12345⟩, 1⟩, .data 1 (List.replicate 128 66)⟩
    let s := burst.wire.take 31 ++ [90] ++ cut.wire.take 40 ++ burst.wire
    let finds := exhaust s.length ((new 8192).push s)
    Burst.parse 8192 (s.drop 72) = .ok (some (burst, 32)) ∧
      ((72, burst) ∈ finds ∨ ∃ x ∈ finds, x.1 < 72 ∧ 72 < x.1 + x.2.wireSize) := by
  intro burst cut s finds
  have hlen : (burst.wire.take 31 ++ [90] ++ cut.wire.take 40).length = 72 := by decide +kernel
  have hp : Burst.parse 8192 (s.drop 72) = .ok (some (burst, 32)) := by
    rw [← hlen, List.drop_left]
    exact parse_whole burst 8192 ⟨by decide, by decide, by decide⟩ (by decide)
  exact ⟨hp, (every_burst_found s 8192).2.2 72 burst 32 hp⟩

end BurstReader

end Shoreline
