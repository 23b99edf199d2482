import Shoreline.Bytes

/-!
# Pieces of equal length, the other way round

* `chunks_flatten_of_length`   pieces of the right length, put together, are cut the same way again;
* `getElem?_flatten_of_length` where an element of one piece stands when they are put together;
* `chunks_append`              a list of full pieces and what follows it are cut apart;
* `length_chunks`              how many pieces there are;
* `chunks_eq_map`              where they come out even, the pieces by their positions;
* `length_of_getElem?_chunks`  each is full but the last, which is not empty;
* `length_of_mem_chunks`       where they come out even, each is full;
* `flatMap_chunks`             a function of whole pieces that pads only short ones.
-/

namespace Shoreline

section
variable {α β : Type}

theorem chunks_append_of_length {n : Nat} (hn : 0 < n) {c : List α} (hc : c.length = n)
    (xs : List α) : chunks n (c ++ xs) = c :: chunks n xs := by
  have hne : c ++ xs ≠ [] := by
    intro h
    have := congrArg List.length h
    rw [List.length_append, List.length_nil] at this
    omega
  rw [chunks_of_ne_nil n hn _ hne, ← hc, List.take_left, List.drop_left]

theorem chunks_flatten_of_length {n : Nat} (hn : 0 < n) {cs : List (List α)}
    (h : ∀ c ∈ cs, c.length = n) : chunks n cs.flatten = cs := by
  induction cs with
  | nil => exact chunks_nil n
  | cons c cs ih =>
    rw [List.flatten_cons, chunks_append_of_length hn (h c List.mem_cons_self),
      ih fun d hd => h d (List.mem_cons_of_mem _ hd)]

theorem length_flatten_of_length {n : Nat} {cs : List (List α)} (h : ∀ c ∈ cs, c.length = n) :
    cs.flatten.length = cs.length * n := by
  rw [List.length_flatten, List.map_congr_left h, List.map_const', List.sum_replicate_nat]

theorem getElem?_flatten_of_length {n : Nat} (hn : 0 < n) {cs : List (List α)}
    (h : ∀ c ∈ cs, c.length = n) (i : Nat) :
    cs.flatten[i]? = cs[i / n]?.bind (·[i % n]?) := by
  induction cs generalizing i with
  | nil => rfl
  | cons c cs ih =>
    have hc := h c List.mem_cons_self
    rw [List.flatten_cons]
    by_cases hi : i < n
    · rw [List.getElem?_append_left (by omega), Nat.div_eq_of_lt hi, Nat.mod_eq_of_lt hi]
      rfl
    · rw [List.getElem?_append_right (by omega), hc,
        ih (fun d hd => h d (List.mem_cons_of_mem _ hd)), Nat.mod_eq_sub_mod (a := i) (by omega),
        Nat.div_eq_sub_div (a := i) hn (by omega)]
      rfl

theorem chunks_append {n : Nat} (hn : 0 < n) {xs : List α} (h : n ∣ xs.length) (ys : List α) :
    chunks n (xs ++ ys) = chunks n xs ++ chunks n ys := by
  obtain ⟨k, hk⟩ := h
  induction k generalizing xs with
  | zero =>
    rw [List.length_eq_zero_iff.mp hk, List.nil_append, chunks_nil, List.nil_append]
  | succ k ih =>
    rw [Nat.mul_succ] at hk
    have htake : (xs.take n).length = n := by
      rw [List.length_take]
      omega
    have hdrop : (xs.drop n).length = n * k := by
      rw [List.length_drop]
      omega
    rw [← List.take_append_drop n xs, List.append_assoc, chunks_append_of_length hn htake,
      chunks_append_of_length hn htake, ih hdrop, List.cons_append]

theorem length_of_mem_chunks {n : Nat} (hn : 0 < n) {k : Nat} {xs : List α}
    (h : xs.length = k * n) : ∀ c ∈ chunks n xs, c.length = n := by
  induction k generalizing xs with
  | zero =>
    intro c hc
    rw [List.length_eq_zero_iff.mp (h.trans (Nat.zero_mul n)), chunks_nil] at hc
    exact absurd hc (by simp)
  | succ k ih =>
    rw [Nat.succ_mul] at h
    intro c hc
    rw [chunks_of_ne_nil n hn xs (List.length_pos_iff.mp (by omega))] at hc
    rcases List.mem_cons.mp hc with rfl | hc
    · rw [List.length_take]
      omega
    · have hdrop : (xs.drop n).length = k * n := by
        rw [List.length_drop]
        omega
      exact ih hdrop c hc

theorem chunks_of_length_le {n : Nat} (hn : 0 < n) {xs : List α} (hx : xs ≠ [])
    (h : xs.length ≤ n) : chunks n xs = [xs] := by
  rw [chunks_of_ne_nil n hn xs hx, List.take_of_length_le h, List.drop_of_length_le h, chunks_nil]

theorem ne_nil_of_mem_chunks {n : Nat} (hn : 0 < n) (xs : List α) :
    ∀ c ∈ chunks n xs, c ≠ [] := by
  intro c hc
  by_cases hx : xs = []
  · rw [hx, chunks_nil] at hc
    exact absurd hc (by simp)
  · rw [chunks_of_ne_nil n hn xs hx] at hc
    rcases List.mem_cons.mp hc with rfl | hc
    · intro ht
      have := congrArg List.length ht
      have := List.length_pos_iff.mpr hx
      rw [List.length_take, List.length_nil] at *
      omega
    · exact ne_nil_of_mem_chunks hn (xs.drop n) c hc
termination_by xs.length
decreasing_by
  have := List.length_pos_iff.mpr hx
  simp only [List.length_drop]
  omega

theorem length_chunks {n : Nat} (hn : 0 < n) (xs : List α) :
    (chunks n xs).length = (xs.length + n - 1) / n := by
  by_cases hx : xs = []
  · rw [hx, chunks_nil, List.length_nil, List.length_nil, Nat.zero_add,
      Nat.div_eq_of_lt (by omega)]
  · have hpos := List.length_pos_iff.mpr hx
    rw [chunks_of_ne_nil n hn xs hx, List.length_cons, length_chunks hn (xs.drop n),
      List.length_drop]
    by_cases hle : xs.length ≤ n
    · rw [Nat.sub_eq_zero_of_le hle, Nat.zero_add, Nat.div_eq_of_lt (by omega)]
      rw [show xs.length + n - 1 = n + (xs.length - 1) by omega, Nat.add_div_left _ hn,
        Nat.div_eq_of_lt (by omega)]
    · rw [show xs.length + n - 1 = (xs.length - n + n - 1) + n by omega, Nat.add_div_right _ hn]
termination_by xs.length
decreasing_by
  have := List.length_pos_iff.mpr hx
  simp only [List.length_drop]
  omega

theorem getElem?_chunks {n : Nat} (hn : 0 < n) (xs : List α) (k : Nat) :
    (chunks n xs)[k]? = if k * n < xs.length then some ((xs.drop (k * n)).take n) else none := by
  induction k generalizing xs with
  | zero =>
    by_cases hx : xs = []
    · rw [hx, chunks_nil, List.length_nil, if_neg (Nat.not_lt_zero _)]
      rfl
    · rw [chunks_of_ne_nil n hn xs hx, Nat.zero_mul, if_pos (List.length_pos_iff.mpr hx)]
      rfl
  | succ k ih =>
    by_cases hx : xs = []
    · rw [hx, chunks_nil, List.length_nil, if_neg (Nat.not_lt_zero _)]
      rfl
    · rw [chunks_of_ne_nil n hn xs hx, List.getElem?_cons_succ, ih, List.length_drop,
        List.drop_drop, Nat.succ_mul, Nat.add_comm n]
      simp only [Nat.lt_sub_iff_add_lt]

theorem chunks_eq_map {n : Nat} (hn : 0 < n) {k : Nat} {xs : List α} (h : xs.length = k * n) :
    chunks n xs = (List.range k).map fun i => (xs.drop (i * n)).take n := by
  refine List.ext_getElem? fun i => ?_
  rw [getElem?_chunks hn, h, List.getElem?_map]
  by_cases hi : i < k
  · rw [if_pos (Nat.mul_lt_mul_of_pos_right hi hn), List.getElem?_range hi]
    rfl
  · rw [if_neg (Nat.not_lt_of_le (Nat.mul_le_mul_right n (Nat.le_of_not_lt hi))),
      List.getElem?_eq_none (by rw [List.length_range]; exact Nat.le_of_not_lt hi)]
    rfl

theorem length_of_getElem?_chunks {n : Nat} (hn : 0 < n) {xs : List α} {k : Nat} {c : List α}
    (h : (chunks n xs)[k]? = some c) :
    1 ≤ c.length ∧ c.length ≤ n ∧ (k + 1 < (chunks n xs).length → c.length = n) := by
  rw [getElem?_chunks hn] at h
  split at h
  · next hk =>
    have hlen : c.length = min n (xs.length - k * n) := by
      rw [← Option.some.inj h, List.length_take, List.length_drop]
    refine ⟨by omega, by omega, fun hnext => ?_⟩
    have hfull := getElem?_chunks hn xs (k + 1)
    rw [List.getElem?_eq_getElem hnext] at hfull
    split at hfull
    · next hk' =>
      rw [Nat.succ_mul] at hk'
      omega
    · exact absurd hfull (by simp)
  · exact absurd h (by simp)

/-- what is made of the pieces one by one, when a full piece becomes its image and a short one its
image with something behind it -/
theorem flatMap_chunks {n : Nat} (hn : 0 < n) (f : List α → List β) (g : α → β)
    (h : ∀ c : List α, c.length ≤ n → ∃ pad, f c = c.map g ++ pad ∧ (c.length = n → pad = []))
    (xs : List α) : ∃ pad, (chunks n xs).flatMap f = xs.map g ++ pad := by
  by_cases hx : xs = []
  · exact ⟨[], by rw [hx, chunks_nil]; rfl⟩
  · rw [chunks_of_ne_nil n hn xs hx, List.flatMap_cons]
    obtain ⟨pad, hpad, hfull⟩ := h (xs.take n) (List.length_take_le n xs)
    by_cases hle : xs.length ≤ n
    · rw [List.drop_of_length_le hle, chunks_nil, List.flatMap_nil, List.append_nil, hpad,
        List.take_of_length_le hle]
      exact ⟨pad, rfl⟩
    · obtain ⟨pad', hpad'⟩ := flatMap_chunks hn f g h (xs.drop n)
      rw [hpad, hpad', hfull (by rw [List.length_take]; omega), List.append_nil,
        ← List.append_assoc, ← List.map_append, List.take_append_drop]
      exact ⟨pad', rfl⟩
termination_by xs.length
decreasing_by
  have := List.length_pos_iff.mpr hx
  simp only [List.length_drop]
  omega

end

end Shoreline
