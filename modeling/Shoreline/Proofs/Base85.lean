import Shoreline.Proofs.Chunks
import Shoreline.Body.Base85

/-!
# ASCII85 is read back

A full group of bytes becomes five digits, or one letter, that are read back by themselves.  The last
group may be short: the digits that it leaves out are read as 84, which changes no byte that it kept
(`groupBytes_take`).

* `encodeGroup_full`   a full group;
* `finish_group`       a short one at the end;
* `decode_encode`      any bytes.
-/

namespace Shoreline.Base85

theorem toNat_char {d : Nat} (h : d < 85) : (char d).toNat = 33 + d := by
  rw [char, UInt8.toNat_ofNat']
  omega

theorem step_char {ds : List Nat} {d : Nat} (out : Bytes) (h : d < 85) :
    step ⟨ds, out⟩ (char d) =
      if (ds ++ [d]).length = 5 then
        (groupBytes (ds ++ [d])).map fun g => ⟨[], g.reverse ++ out⟩
      else .ok ⟨ds ++ [d], out⟩ := by
  have hv := toNat_char h
  have hz : ¬ (char d = zeros ∧ ds = []) := by
    rintro ⟨he, -⟩
    rw [he] at hv
    have : zeros.toNat = 122 := rfl
    omega
  have hr : first ≤ char d ∧ char d ≤ last := by
    rw [UInt8.le_iff_toNat_le, UInt8.le_iff_toNat_le, hv]
    have h₁ : first.toNat = 33 := rfl
    have h₂ : last.toNat = 117 := rfl
    omega
  rw [step, if_neg hz, if_pos hr, hv, Nat.add_sub_cancel_left]

theorem foldlM_chars (l : List Nat) (ds : List Nat) (out : Bytes) (hl : ∀ d ∈ l, d < 85)
    (h : ds.length + l.length ≤ 4) :
    (l.map char).foldlM step ⟨ds, out⟩ = .ok ⟨ds ++ l, out⟩ := by
  induction l generalizing ds with
  | nil =>
    rw [List.append_nil]
    rfl
  | cons d l ih =>
    rw [List.length_cons] at h
    rw [List.map_cons, List.foldlM_cons, step_char out (hl d List.mem_cons_self),
      if_neg (by rw [List.length_append, List.length_singleton]; omega)]
    have := ih (ds ++ [d]) (fun e he => hl e (List.mem_cons_of_mem _ he))
      (by rw [List.length_append, List.length_singleton]; omega)
    rwa [List.append_assoc, List.singleton_append] at this

theorem mem_toDigits {v d : Nat} (h : d ∈ toDigits v) : d < 85 := by
  simp only [toDigits, List.mem_cons, List.not_mem_nil, or_false] at h
  omega

/-- the digits kept, and 84 for each one left out: nothing above them changes -/
theorem ofDigits_take (v n : Nat) (hv : v < 2 ^ (32 : Nat)) (hn : n ≤ 4) :
    ofDigits ((toDigits v).take (n + 1) ++ List.replicate (4 - n) 84) =
      v / 85 ^ (4 - n) * 85 ^ (4 - n) + (85 ^ (4 - n) - 1) := by
  match n, hn with
  | 0, _ => simp [ofDigits, toDigits, List.replicate]; omega
  | 1, _ => simp [ofDigits, toDigits, List.replicate]; omega
  | 2, _ => simp [ofDigits, toDigits, List.replicate]; omega
  | 3, _ => simp [ofDigits, toDigits]; omega
  | 4, _ => simp [ofDigits, toDigits]; omega

/-- the number of a group, filled up with zero bytes -/
def groupNumber (g : Bytes) : Nat := ofBytes (g ++ List.replicate (4 - g.length) 0)

theorem groupNumber_spec (g : Bytes) (h : g.length ≤ 4) :
    groupNumber g < 2 ^ (32 : Nat) ∧ groupNumber g % 256 ^ (4 - g.length) = 0 ∧
      (toBytes (groupNumber g)).take g.length = g := by
  have eq_byte {x : UInt8} {v : Nat} (h : v % 256 = x.toNat) : UInt8.ofNat v = x :=
    UInt8.toNat_inj.mp (by rw [UInt8.toNat_ofNat', ← h])
  match g, h with
  | [], _ => decide
  | [a], _ =>
    have ha := a.toNat_lt
    have hn : groupNumber [a] = a.toNat * 256 ^ 3 := by simp [groupNumber, ofBytes]; omega
    rw [hn]
    exact ⟨by omega, by simp, congrArg (· :: []) (eq_byte (by omega))⟩
  | [a, b], _ =>
    have ha := a.toNat_lt
    have hb := b.toNat_lt
    have hn : groupNumber [a, b] = a.toNat * 256 ^ 3 + b.toNat * 256 ^ 2 := by
      simp [groupNumber, ofBytes]; omega
    rw [hn]
    refine ⟨by omega, by simp; omega, ?_⟩
    show [UInt8.ofNat _, UInt8.ofNat _] = _
    rw [eq_byte (x := a) (by omega), eq_byte (x := b) (by omega)]
  | [a, b, c], _ =>
    have ha := a.toNat_lt
    have hb := b.toNat_lt
    have hc := c.toNat_lt
    have hn : groupNumber [a, b, c] =
        a.toNat * 256 ^ 3 + b.toNat * 256 ^ 2 + c.toNat * 256 := by
      simp [groupNumber, ofBytes]; omega
    rw [hn]
    refine ⟨by omega, by simp; omega, ?_⟩
    show [UInt8.ofNat _, UInt8.ofNat _, UInt8.ofNat _] = _
    rw [eq_byte (x := a) (by omega), eq_byte (x := b) (by omega), eq_byte (x := c) (by omega)]
  | [a, b, c, d], _ =>
    have ha := a.toNat_lt
    have hb := b.toNat_lt
    have hc := c.toNat_lt
    have hd := d.toNat_lt
    have hn : groupNumber [a, b, c, d] =
        a.toNat * 256 ^ 3 + b.toNat * 256 ^ 2 + c.toNat * 256 + d.toNat := by
      simp [groupNumber, ofBytes]; omega
    rw [hn]
    refine ⟨by omega, by simp; omega, ?_⟩
    show [UInt8.ofNat _, UInt8.ofNat _, UInt8.ofNat _, UInt8.ofNat _] = _
    rw [eq_byte (x := a) (by omega), eq_byte (x := b) (by omega), eq_byte (x := c) (by omega),
      eq_byte (x := d) (by omega)]

/-- a byte is decided by the number without what stands below the byte -/
theorem toBytes_take {v w n : Nat} (hn : n ≤ 4) (h : w / 256 ^ (4 - n) = v / 256 ^ (4 - n)) :
    (toBytes w).take n = (toBytes v).take n := by
  match n, hn with
  | 0, _ => rfl
  | 1, _ =>
    show [UInt8.ofNat (w / 256 ^ 3)] = [UInt8.ofNat (v / 256 ^ 3)]
    rw [h]
  | 2, _ =>
    have h₃ : w / 256 ^ 3 = v / 256 ^ 3 := by omega
    show [UInt8.ofNat (w / 256 ^ 3), UInt8.ofNat (w / 256 ^ 2)] = [_, UInt8.ofNat (v / 256 ^ 2)]
    rw [h₃, h]
  | 3, _ =>
    have h₃ : w / 256 ^ 3 = v / 256 ^ 3 := by omega
    have h₂ : w / 256 ^ 2 = v / 256 ^ 2 := by omega
    show [UInt8.ofNat (w / 256 ^ 3), UInt8.ofNat (w / 256 ^ 2), UInt8.ofNat (w / 256)] =
      [_, _, UInt8.ofNat (v / 256)]
    rw [h₃, h₂, show w / 256 = v / 256 by omega]
  | 4, _ =>
    rw [show w = v by omega]

/-- a number that ends in zeros in base 256 keeps what stands above them when its low digits in base 85
become the highest ones -/
theorem fill_digits {v k : Nat} (hk : k ≤ 4) (hv : v < 2 ^ (32 : Nat)) (hz : v % 256 ^ k = 0) :
    v / 85 ^ k * 85 ^ k + (85 ^ k - 1) < 2 ^ (32 : Nat) ∧
      (v / 85 ^ k * 85 ^ k + (85 ^ k - 1)) / 256 ^ k = v / 256 ^ k := by
  have hpow : 85 ^ k ≤ 256 ^ k := Nat.pow_le_pow_left (by decide) k
  have hpos : 0 < 85 ^ k := Nat.pow_pos (by decide)
  have htop : 2 ^ 32 = 256 ^ k * 256 ^ (4 - k) := by
    rw [← Nat.pow_add, Nat.add_sub_cancel' hk, show 2 ^ 32 = 256 ^ 4 by decide]
  have hlow := Nat.div_add_mod' v (85 ^ k)
  have hrem := Nat.mod_lt v hpos
  have hv' : 256 ^ k * (v / 256 ^ k) = v := by
    have := Nat.div_add_mod v (256 ^ k)
    omega
  obtain ⟨r, hr, hw⟩ : ∃ r, r < 256 ^ k ∧
      v / 85 ^ k * 85 ^ k + (85 ^ k - 1) = 256 ^ k * (v / 256 ^ k) + r :=
    ⟨85 ^ k - 1 - v % 85 ^ k, by omega, by omega⟩
  have hquot : v / 256 ^ k < 256 ^ (4 - k) := by
    rw [Nat.div_lt_iff_lt_mul (by omega), Nat.mul_comm, ← htop]
    exact hv
  rw [hw]
  constructor
  · rw [htop]
    have := Nat.mul_le_mul_left (256 ^ k) hquot
    rw [Nat.mul_succ] at this
    omega
  · rw [Nat.mul_add_div (by omega), Nat.div_eq_of_lt hr, Nat.add_zero]

theorem length_of_groupBytes {ds : List Nat} {g : Bytes} (h : groupBytes ds = .ok g) :
    g.length = 4 := by
  rw [groupBytes] at h
  split at h
  · rw [← Except.ok.inj h]
    rfl
  · exact absurd h (by simp)

/-- filling up the digits left out changes no byte that was kept -/
theorem groupBytes_take {v n : Nat} (hv : v < 2 ^ (32 : Nat)) (hn : n ≤ 4)
    (hz : v % 256 ^ (4 - n) = 0) :
    ∃ b, groupBytes ((toDigits v).take (n + 1) ++ List.replicate (4 - n) 84) = .ok b ∧
      b.take n = (toBytes v).take n := by
  obtain ⟨hlt, hdiv⟩ := fill_digits (Nat.sub_le 4 n) hv hz
  rw [← ofDigits_take v n hv hn] at hlt hdiv
  refine ⟨_, ?_, toBytes_take hn hdiv⟩
  rw [groupBytes, if_pos hlt]

/-! ## All groups -/

theorem encodeGroup_full (g : Bytes) (h : g.length = 4) (out : Bytes) :
    (encodeGroup g).foldlM step ⟨[], out⟩ = .ok ⟨[], g.reverse ++ out⟩ := by
  by_cases hz : g = [0, 0, 0, 0]
  · rw [hz]
    rfl
  · obtain ⟨hlt, hmod, htake⟩ := groupNumber_spec g (Nat.le_of_eq h)
    have hpad : 4 - g.length = 0 := by omega
    obtain ⟨b, hb, hbt⟩ := groupBytes_take (n := 4) hlt (by decide) (Nat.mod_one _)
    have hb4 : b = g := by
      rw [h] at htake
      rw [List.take_of_length_le (Nat.le_of_eq (length_of_groupBytes hb))] at hbt
      exact hbt.trans htake
    have hsplit : (toDigits (groupNumber g)).take 5 =
        (toDigits (groupNumber g)).take 4 ++ [groupNumber g % 85] := rfl
    have hfront := foldlM_chars ((toDigits (groupNumber g)).take 4) [] out
      (fun d hd => mem_toDigits (List.mem_of_mem_take hd)) (Nat.le_refl 4)
    have hfive : ((toDigits (groupNumber g)).take 4 ++ [groupNumber g % 85]).length = 5 := rfl
    rw [List.replicate_zero, List.append_nil] at hb
    rw [encodeGroup, if_neg hz, h, show ofBytes _ = groupNumber g by rw [groupNumber, h], hsplit,
      List.map_append, List.foldlM_append, hfront]
    show step ⟨[] ++ _, out⟩ (char _) >>= _ = _
    rw [List.nil_append, step_char out (by omega), if_pos hfive, ← hsplit, hb, hb4]
    rfl

theorem finish_group (g : Bytes) (hne : g ≠ []) (h : g.length < 4) (out : Bytes) :
    (encodeGroup g).foldlM step ⟨[], out⟩ >>= finish = .ok (out.reverse ++ g) := by
  have hpos := List.length_pos_iff.mpr hne
  have hz : g ≠ [0, 0, 0, 0] := by
    intro he
    rw [he] at h
    exact absurd h (by decide)
  obtain ⟨hlt, hmod, htake⟩ := groupNumber_spec g (by omega)
  obtain ⟨b, hb, hbt⟩ := groupBytes_take (n := g.length) hlt (by omega) hmod
  have hlen : ((toDigits (groupNumber g)).take (g.length + 1)).length = g.length + 1 := by
    rw [List.length_take, show (toDigits (groupNumber g)).length = 5 from rfl]
    omega
  have hrun := foldlM_chars ((toDigits (groupNumber g)).take (g.length + 1)) [] out
    (fun d hd => mem_toDigits (List.mem_of_mem_take hd)) (by rw [hlen, List.length_nil]; omega)
  rw [encodeGroup, if_neg hz, ← groupNumber, hrun]
  show finish ⟨[] ++ _, out⟩ = _
  rw [List.nil_append]
  generalize hds : (toDigits (groupNumber g)).take (g.length + 1) = ds at hb hlen
  match ds, hlen with
  | [], hlen => exact absurd hlen (by simp)
  | [_], hlen =>
    rw [List.length_singleton] at hlen
    omega
  | d₁ :: d₂ :: ds, hlen =>
    show (groupBytes ((d₁ :: d₂ :: ds) ++ List.replicate (5 - (d₁ :: d₂ :: ds).length) 84)).map
      (fun b => out.reverse ++ b.take ((d₁ :: d₂ :: ds).length - 1)) = _
    rw [hlen, show 5 - (g.length + 1) = 4 - g.length by omega, hb, Nat.add_sub_cancel]
    show Except.ok (out.reverse ++ b.take g.length) = _
    rw [hbt, htake]

theorem foldlM_encode (b : Bytes) (out : Bytes) :
    (encode b).foldlM step ⟨[], out⟩ >>= finish = .ok (out.reverse ++ b) := by
  by_cases hb : b = []
  · rw [hb, encode, chunks_nil, List.append_nil]
    rfl
  · by_cases h4 : b.length < 4
    · rw [encode, chunks_of_length_le (by decide) hb (by omega), List.flatMap_singleton]
      exact finish_group b hb h4 out
    · have hfull : (b.take 4).length = 4 := by
        rw [List.length_take]
        omega
      rw [encode, chunks_of_ne_nil 4 (by decide) b hb, List.flatMap_cons, List.foldlM_append,
        encodeGroup_full _ hfull]
      show (encode (b.drop 4)).foldlM step ⟨[], _⟩ >>= finish = _
      rw [foldlM_encode (b.drop 4), List.reverse_append, List.reverse_reverse, List.append_assoc,
        List.take_append_drop]
termination_by b.length
decreasing_by
  have := List.length_pos_iff.mpr hb
  simp only [List.length_drop]
  omega

theorem decode_encode (b : Bytes) : decode (encode b) = .ok b := foldlM_encode b []

end Shoreline.Base85
