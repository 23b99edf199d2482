import Shoreline.Control.Reader
import Mathlib.Data.List.TakeWhile

/-!
# What a reader makes of lines

A string is its lines, each ended by an LF, and what follows the last LF (`lines`).  A drained
reader has read exactly those lines, each on its own (`meaning?`), and has kept what follows them if
it is no longer than a line may be (`feed_eq`).

* `lines_line`     the first line;
* `lines_append`   a string in two parts: the rest of the first one begins the next line;
* `lines_front`    more in front of the first line.
-/

namespace Shoreline.LineReader

/-! ## Lines -/

/-- the lines of a string, without the LF that ends each, and what follows the last LF -/
def lines : Bytes → List Bytes × Bytes
  | [] => ([], [])
  | x :: b =>
    if x = lf then ([] :: (lines b).1, (lines b).2)
    else
      match lines b with
      | ([], rest) => ([], x :: rest)
      | (line :: ls, rest) => ((x :: line) :: ls, rest)

theorem lines_of_not_mem {b : Bytes} (h : lf ∉ b) : lines b = ([], b) := by
  induction b with
  | nil => rfl
  | cons x b ih =>
    rw [List.mem_cons, not_or] at h
    rw [lines, if_neg (Ne.symm h.1), ih h.2]

theorem lines_line {line : Bytes} (h : lf ∉ line) (rest : Bytes) :
    lines (line ++ lf :: rest) = (line :: (lines rest).1, (lines rest).2) := by
  induction line with
  | nil => rw [List.nil_append, lines, if_pos rfl]
  | cons x line ih =>
    rw [List.mem_cons, not_or] at h
    rw [List.cons_append, lines, if_neg (Ne.symm h.1), ih h.2]

theorem lines_flatMap {ls : List Bytes} (h : ∀ line ∈ ls, lf ∉ line) (rest : Bytes) :
    lines (ls.flatMap (· ++ [lf]) ++ rest) = (ls ++ (lines rest).1, (lines rest).2) := by
  induction ls with
  | nil => rfl
  | cons line ls ih =>
    rw [List.flatMap_cons, List.append_assoc, List.append_assoc, List.singleton_append,
      lines_line (h line List.mem_cons_self), ih fun l hl => h l (List.mem_cons_of_mem line hl)]
    rfl

/-- a string is made of its lines -/
theorem lines_spec (b : Bytes) :
    (∀ line ∈ (lines b).1, lf ∉ line) ∧ lf ∉ (lines b).2 ∧
      (lines b).1.flatMap (· ++ [lf]) ++ (lines b).2 = b := by
  induction b with
  | nil => exact ⟨fun _ h => absurd h (by simp [lines]), by simp [lines], rfl⟩
  | cons x b ih =>
    obtain ⟨hlines, hrest, hb⟩ := ih
    rw [lines]
    by_cases hx : x = lf
    · rw [if_pos hx]
      refine ⟨?_, hrest, ?_⟩
      · intro line hl
        rcases List.mem_cons.mp hl with rfl | hl
        · exact List.not_mem_nil
        · exact hlines line hl
      · rw [List.flatMap_cons, List.append_assoc, hb, hx]
        rfl
    · rw [if_neg hx]
      have hcons {l : Bytes} (hl : lf ∉ l) : lf ∉ x :: l := by
        rw [List.mem_cons, not_or]
        exact ⟨Ne.symm hx, hl⟩
      match hm : lines b with
      | ([], rest) =>
        rw [hm] at hrest hb
        exact ⟨fun _ h => absurd h List.not_mem_nil, hcons hrest, congrArg (x :: ·) hb⟩
      | (line :: ls, rest) =>
        rw [hm] at hlines hrest hb
        refine ⟨?_, hrest, congrArg (x :: ·) hb⟩
        intro l hl
        rcases List.mem_cons.mp hl with rfl | hl
        · exact hcons (hlines line List.mem_cons_self)
        · exact hlines l (List.mem_cons_of_mem line hl)

theorem not_mem_of_mem_lines {b line : Bytes} (h : line ∈ (lines b).1) : lf ∉ line :=
  (lines_spec b).1 line h

theorem not_mem_rest (b : Bytes) : lf ∉ (lines b).2 := (lines_spec b).2.1

theorem flatMap_lines (b : Bytes) : (lines b).1.flatMap (· ++ [lf]) ++ (lines b).2 = b :=
  (lines_spec b).2.2

theorem lines_append (a b : Bytes) :
    lines (a ++ b) =
      ((lines a).1 ++ (lines ((lines a).2 ++ b)).1, (lines ((lines a).2 ++ b)).2) := by
  have h := lines_flatMap (fun _ hl => not_mem_of_mem_lines (b := a) hl) ((lines a).2 ++ b)
  rwa [← List.append_assoc, flatMap_lines] at h

/-- bytes without an LF lengthen the first line that follows them -/
theorem lines_front {a : Bytes} (h : lf ∉ a) (b : Bytes) :
    lines (a ++ b) =
      match lines b with
      | ([], rest) => ([], a ++ rest)
      | (line :: ls, rest) => ((a ++ line) :: ls, rest) := by
  induction a with
  | nil =>
    match lines b with
    | ([], rest) => rfl
    | (line :: ls, rest) => rfl
  | cons x a ih =>
    rw [List.mem_cons, not_or] at h
    rw [List.cons_append, lines, if_neg (Ne.symm h.1), ih h.2]
    match lines b with
    | ([], rest) => rfl
    | (line :: ls, rest) => rfl

/-! ## The first line of a buffer -/

theorem cut?_none {b : Bytes} (h : cut? b = none) : lf ∉ b := by
  unfold cut? at h
  split at h
  · next hd =>
    intro hmem
    have hall := List.dropWhile_eq_nil_iff.mp hd lf hmem
    exact absurd hall (by decide)
  · exact absurd h (by simp)

theorem cut?_some {b line rest : Bytes} (h : cut? b = some (line, rest)) :
    lf ∉ line ∧ b = line ++ lf :: rest := by
  unfold cut? at h
  split at h
  · exact absurd h (by simp)
  · next x r hd =>
    obtain ⟨rfl, rfl⟩ := Prod.mk.inj (Option.some.inj h)
    have hx : x = lf := by
      have hhead := List.head?_dropWhile_not (fun y => y != lf) b
      rw [hd] at hhead
      simpa using hhead
    refine ⟨?_, ?_⟩
    · intro hmem
      have hall := List.mem_takeWhile_imp hmem
      exact absurd hall (by decide)
    · have hb := List.takeWhile_append_dropWhile (p := fun y => y != lf) (l := b)
      rw [hd, hx] at hb
      exact hb.symm

/-! ## Reading them -/

/-- what a line says; a blank one says nothing -/
def meaning? (line : Bytes) : Option (Except Fault Inbound) :=
  if trim line = [] then none else some (classify (trim line))

/-- what a reader keeps of bytes without an LF -/
def kept (rest : Bytes) : Bytes := if mostPending < rest.length then [] else rest

theorem scan_none {r r' : LineReader} {b : Bytes} (h : r.scan b = (none, r')) :
    (lines b).1.filterMap meaning? = [] ∧ r'.buffer = kept (lines b).2 := by
  fun_induction scan r b with
  | case1 b hc =>
    obtain ⟨-, rfl⟩ := Prod.mk.inj h
    rw [lines_of_not_mem (cut?_none hc)]
    exact ⟨rfl, rfl⟩
  | case2 b line rest hc hl ht ih =>
    obtain ⟨hline, rfl⟩ := cut?_some hc
    have hblank : meaning? line = none := if_pos ht
    rw [lines_line hline, List.filterMap_cons_none hblank]
    exact ih h
  | case3 b line rest hc hl ht said => exact absurd h (by simp)

theorem scan_some {r r' : LineReader} {b : Bytes} {x : Except Fault Inbound}
    (h : r.scan b = (some x, r')) :
    (lines b).1.filterMap meaning? = x :: (lines r'.buffer).1.filterMap meaning? ∧
      (lines b).2 = (lines r'.buffer).2 := by
  fun_induction scan r b with
  | case1 b hc => exact absurd h (by simp)
  | case2 b line rest hc hl ht ih =>
    obtain ⟨hline, rfl⟩ := cut?_some hc
    have hblank : meaning? line = none := if_pos ht
    rw [lines_line hline, List.filterMap_cons_none hblank]
    exact ih h
  | case3 b line rest hc hl ht said =>
    obtain ⟨hsaid, rfl⟩ := Prod.mk.inj h
    obtain ⟨hline, rfl⟩ := cut?_some hc
    have hx : meaning? line = some x := (if_neg ht).trans hsaid
    rw [lines_line hline, List.filterMap_cons_some hx]
    exact ⟨rfl, rfl⟩

theorem drainOnto_eq (acc : List (Except Fault Inbound)) (r : LineReader) :
    (drainOnto acc r).1 = acc.reverse ++ (lines r.buffer).1.filterMap meaning? ∧
      (drainOnto acc r).2.buffer = kept (lines r.buffer).2 := by
  fun_induction drainOnto acc r with
  | case1 acc r r' h =>
    obtain ⟨hsaid, hkept⟩ := scan_none h
    rw [hsaid, List.append_nil]
    exact ⟨rfl, hkept⟩
  | case2 acc r x r' h hlt ih =>
    obtain ⟨hsaid, hrest⟩ := scan_some h
    obtain ⟨ihsaid, ihkept⟩ := ih
    rw [ihsaid, ihkept, hsaid, hrest, List.reverse_cons, List.append_assoc]
    exact ⟨rfl, rfl⟩

theorem feed_eq (r : LineReader) (b : Bytes) :
    (r.feed b).1 = (lines (r.buffer ++ b)).1.filterMap meaning? ∧
      (r.feed b).2.buffer = kept (lines (r.buffer ++ b)).2 :=
  drainOnto_eq [] (r.push b)

end Shoreline.LineReader
