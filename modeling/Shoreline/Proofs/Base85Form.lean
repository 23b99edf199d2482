import Shoreline.Proofs.Base85

/-!
# What ASCII85 text looks like

Every group becomes at most five characters of `!` to `u`, or the letter `z` (`mem_encode`,
`length_encode_le`).  Other texts than the written one are read as the same bytes: four zero bytes may
be spelled out, and the last digit of a short group counts only in part.  The written one is the
shortest of them, since the reader needs five characters or a `z` for each whole group, and one more
than the bytes for a short one (`Came`).

* `came_step`, `came_foldlM`   what the reader has after so many characters;
* `length_encode_of_decode`    what was read is not written longer than it stood.
-/

namespace Shoreline.Base85

/-! ## Writing -/

theorem mem_encodeGroup {g : Bytes} {c : UInt8} (h : c ∈ encodeGroup g) :
    '!'.toUInt8 ≤ c ∧ c ≤ 'u'.toUInt8 ∨ c = 'z'.toUInt8 := by
  rw [encodeGroup] at h
  split at h
  · exact .inr (List.mem_singleton.mp h)
  · obtain ⟨d, hd, rfl⟩ := List.mem_map.mp h
    have hlt := mem_toDigits (List.mem_of_mem_take hd)
    have hfirst : '!'.toUInt8.toNat = 33 := by decide
    have hlast : 'u'.toUInt8.toNat = 117 := by decide
    left
    rw [UInt8.le_iff_toNat_le, UInt8.le_iff_toNat_le, toNat_char hlt]
    omega

theorem mem_encode {b : Bytes} {c : UInt8} (h : c ∈ encode b) :
    '!'.toUInt8 ≤ c ∧ c ≤ 'u'.toUInt8 ∨ c = 'z'.toUInt8 := by
  obtain ⟨g, -, hc⟩ := List.mem_flatMap.mp h
  exact mem_encodeGroup hc

theorem length_encodeGroup_le (g : Bytes) :
    (encodeGroup g).length ≤ g.length + 1 ∧ (encodeGroup g).length ≤ 5 := by
  rw [encodeGroup]
  split
  · rw [List.length_singleton]
    omega
  · rw [List.length_map, List.length_take, show ∀ v, (toDigits v).length = 5 from fun _ => rfl]
    exact ⟨Nat.min_le_left .., Nat.min_le_right ..⟩

/-- five characters for each group that was begun -/
theorem length_encode_le (b : Bytes) : (encode b).length ≤ 5 * ((b.length + 3) / 4) := by
  have hgroups : (chunks 4 b).length = (b.length + 3) / 4 := length_chunks (by decide) b
  rw [← hgroups, encode]
  induction chunks 4 b with
  | nil => exact Nat.le_refl _
  | cons g gs ih =>
    have hg := (length_encodeGroup_le g).2
    rw [List.flatMap_cons, List.length_append, List.length_cons]
    omega

theorem encode_append {a : Bytes} (h : 4 ∣ a.length) (b : Bytes) :
    encode (a ++ b) = encode a ++ encode b := by
  rw [encode, chunks_append (by decide) h, List.flatMap_append]
  rfl

theorem encode_group {g : Bytes} (hne : g ≠ []) (h : g.length ≤ 4) : encode g = encodeGroup g := by
  rw [encode, chunks_of_length_le (by decide) hne h, List.flatMap_singleton]

/-! ## Reading -/

/-- a reader that `n` characters came to: whole groups, which together with the digits of the group
begun are written in no more than `n` characters -/
structure Came (n : Nat) (s : State) : Prop where
  whole : 4 ∣ s.out.length
  begun : s.digits.length < 5
  fits : (encode s.out.reverse).length + s.digits.length ≤ n

theorem came_start : Came 0 ⟨[], []⟩ := by
  refine ⟨⟨0, rfl⟩, Nat.zero_lt_succ 4, ?_⟩
  rw [List.reverse_nil, encode, chunks_nil]
  exact Nat.le_refl 0

variable {n : Nat} {s s' : State}

/-- one more group, for which `k` characters were there -/
theorem Came.group {k m : Nat} {g : Bytes} (h : Came n s) (hg : g.length = 4)
    (hk : (encodeGroup g).length ≤ k) (hm : (encode s.out.reverse).length + k ≤ m) :
    Came m ⟨[], g.reverse ++ s.out⟩ := by
  have hne : g ≠ [] := List.length_pos_iff.mp (by omega)
  have hwhole : 4 ∣ s.out.reverse.length := by
    rw [List.length_reverse]
    exact h.whole
  refine ⟨?_, Nat.zero_lt_succ 4, ?_⟩
  · have hout := h.whole
    rw [List.length_append, List.length_reverse, hg]
    omega
  · rw [List.reverse_append, List.reverse_reverse, encode_append hwhole,
      encode_group hne (Nat.le_of_eq hg), List.length_append, List.length_nil]
    omega

theorem came_step {c : UInt8} (h : Came n s) (hs : step s c = .ok s') : Came (n + 1) s' := by
  have hfits := h.fits
  have hbegun := h.begun
  rw [step] at hs
  split at hs
  · next hz =>
    rw [← Except.ok.inj hs]
    rw [hz.2, List.length_nil] at hfits
    exact h.group (k := 1) (g := [0, 0, 0, 0]) rfl (by decide) (by omega)
  split at hs
  · dsimp only at hs
    split at hs
    · next hfive =>
      rw [List.length_append, List.length_singleton] at hfive
      obtain ⟨g, hg, rfl⟩ := map_eq_ok hs
      exact h.group (length_of_groupBytes hg) (length_encodeGroup_le g).2 (by omega)
    · next hfive =>
      rw [← Except.ok.inj hs]
      rw [List.length_append, List.length_singleton] at hfive
      refine ⟨h.whole, ?_, ?_⟩
      · rw [List.length_append, List.length_singleton]
        omega
      · show (encode s.out.reverse).length + (s.digits ++ [_]).length ≤ n + 1
        rw [List.length_append, List.length_singleton]
        omega
  · exact absurd hs (by simp)

theorem came_foldlM (b : Bytes) (h : Came n s) (hb : b.foldlM step s = .ok s') :
    Came (n + b.length) s' := by
  induction b generalizing n s with
  | nil =>
    rw [← Except.ok.inj hb]
    exact h
  | cons c b ih =>
    rw [List.foldlM_cons] at hb
    obtain ⟨t, ht, hb⟩ := bind_eq_ok hb
    have hrest := ih (came_step h ht) hb
    rwa [Nat.add_assoc, Nat.add_comm 1] at hrest

theorem length_encode_of_finish {b : Bytes} (h : Came n s) (hs : finish s = .ok b) :
    (encode b).length ≤ n := by
  have hfits := h.fits
  have hbegun := h.begun
  rw [finish] at hs
  split at hs
  · rw [← Except.ok.inj hs]
    omega
  · exact absurd hs (by simp)
  · next hnil hone =>
    obtain ⟨g, hg, rfl⟩ := map_eq_ok hs
    have hlen : 2 ≤ s.digits.length := by
      match hd : s.digits with
      | [] => exact absurd hd hnil
      | [d] => exact absurd hd (hone d)
      | _ :: _ :: _ => simp
    have hwhole : 4 ∣ s.out.reverse.length := by
      rw [List.length_reverse]
      exact h.whole
    have hkept : (g.take (s.digits.length - 1)).length = s.digits.length - 1 := by
      rw [List.length_take, length_of_groupBytes hg]
      omega
    have hwritten := (length_encodeGroup_le (g.take (s.digits.length - 1))).1
    have hgroup : encode (g.take (s.digits.length - 1)) = encodeGroup (g.take (s.digits.length - 1)) :=
      encode_group (List.length_pos_iff.mp (by omega)) (by omega)
    rw [encode_append hwhole, List.length_append, hgroup]
    omega

theorem length_encode_of_decode {text b : Bytes} (h : decode text = .ok b) :
    (encode b).length ≤ text.length := by
  obtain ⟨s, hs, hfinish⟩ := bind_eq_ok h
  have hcame := came_foldlM text came_start hs
  rw [Nat.zero_add] at hcame
  exact length_encode_of_finish hcame hfinish

/-- Any bytes are written in the characters `!` to `u` and `z`, at most five for each four bytes
begun, and read back.  What is read from any text is written in no more characters than the text
has, and those are read as the same bytes. -/
theorem written_text_is_shortest :
    (∀ b : Bytes, decode (encode b) = .ok b ∧
      (∀ c ∈ encode b, '!'.toUInt8 ≤ c ∧ c ≤ 'u'.toUInt8 ∨ c = 'z'.toUInt8) ∧
      (encode b).length ≤ 5 * ((b.length + 3) / 4)) ∧
    ∀ text b : Bytes, decode text = .ok b →
      (encode b).length ≤ text.length ∧ decode (encode b) = .ok b := by
  refine ⟨fun b => ⟨decode_encode b, fun c hc => mem_encode hc, length_encode_le b⟩, ?_⟩
  intro text b h
  exact ⟨length_encode_of_decode h, decode_encode b⟩

/-- `!!!!!z5u`: four zero bytes spelled out, four as `z`, and a last byte whose second digit is not
the one that is written -/
theorem spelled_out_zeros_read :
    let text := utf8 "!!!!!z5u"
    let b : Bytes := [0, 0, 0, 0, 0, 0, 0, 0, 65]
    decode text = .ok b ∧ encode b = utf8 "zz5l" ∧ (encode b).length ≤ text.length ∧
      decode (encode b) = .ok b ∧ (∃ c ∈ encode b, c = 'z'.toUInt8) ∧
      ∃ c ∈ encode b, '!'.toUInt8 ≤ c ∧ c ≤ 'u'.toUInt8 := by
  intro text b
  have hread : decode text = .ok b := toOption_eq_some (by decide +kernel)
  have hwritten : encode b = utf8 "zz5l" := by decide +kernel
  obtain ⟨hall, hshortest⟩ := written_text_is_shortest
  obtain ⟨hlen, hback⟩ := hshortest text b hread
  exact ⟨hread, hwritten, hlen, hback, by decide +kernel, by decide +kernel⟩

end Shoreline.Base85
