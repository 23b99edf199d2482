import Shoreline.Proofs.Lines
import Mathlib.Data.List.Forall2

/-!
# Lines in pieces

A reader that is drained after every piece reads the lines of the stream, whole or worn: bytes that
have piled up without an LF are dropped when there are more than a line may have, and what comes
then is taken for the line.  So a line may lose its first bytes, none or more than `mostPending`, and
every such loss comes from some way to cut the stream (`said_iff_worn`).

* `feedAll_worn`            what is read of pieces;
* `exists_pieces`           every loss has its cut;
* `feedAll_of_isSettled`    nothing is lost where no line that is too long shows anything;
* `cutsAgree_iff`           and only there every cut shows the same.
-/

namespace Shoreline.LineReader

/-- takes in the pieces one after the other, and is drained after each -/
def feedAll (r : LineReader) : List Bytes → List (Except Fault Inbound) × LineReader
  | [] => ([], r)
  | b :: bs => ((r.feed b).1 ++ ((r.feed b).2.feedAll bs).1, ((r.feed b).2.feedAll bs).2)

theorem feedAll_append (r : LineReader) (bs cs : List Bytes) :
    r.feedAll (bs ++ cs) =
      ((r.feedAll bs).1 ++ ((r.feedAll bs).2.feedAll cs).1, ((r.feedAll bs).2.feedAll cs).2) := by
  induction bs generalizing r with
  | nil => rfl
  | cons b bs ih => rw [List.cons_append, feedAll, ih, feedAll, List.append_assoc]

/-! ## What a line may lose -/

/-- what is left of a line that lost nothing or more than `mostPending` bytes at its front -/
def Worn (line left : Bytes) : Prop :=
  ∃ k, (k = 0 ∨ mostPending < k) ∧ k ≤ line.length ∧ left = line.drop k

theorem Worn.refl (line : Bytes) : Worn line line := ⟨0, Or.inl rfl, Nat.zero_le _, rfl⟩

theorem forall₂_worn_refl (ls : List Bytes) : List.Forall₂ Worn ls ls :=
  List.forall₂_same.mpr fun line _ => Worn.refl line

theorem Worn.append {line left : Bytes} (h : Worn line left) (b : Bytes) :
    Worn (line ++ b) (left ++ b) := by
  obtain ⟨k, hk, hle, rfl⟩ := h
  refine ⟨k, hk, ?_, (List.drop_append_of_le_length hle).symm⟩
  rw [List.length_append]
  omega

theorem Worn.kept {line left : Bytes} (h : Worn line left) : Worn line (kept left) := by
  rw [LineReader.kept]
  split
  · next hlong =>
    obtain ⟨k, -, -, rfl⟩ := h
    rw [List.length_drop] at hlong
    exact ⟨line.length, Or.inr (by omega), Nat.le_refl _, List.drop_length.symm⟩
  · exact h

/-- what wore the beginning of a line wears the line -/
theorem worn_lines {p q : Bytes} (hp : lf ∉ p) (h : Worn p q) (b : Bytes) :
    List.Forall₂ Worn (lines (p ++ b)).1 (lines (q ++ b)).1 ∧
      Worn (lines (p ++ b)).2 (lines (q ++ b)).2 := by
  have hq : lf ∉ q := by
    obtain ⟨k, -, -, rfl⟩ := h
    exact fun hm => hp (List.mem_of_mem_drop hm)
  rw [lines_front hp, lines_front hq]
  match lines b with
  | ([], rest) => exact ⟨List.Forall₂.nil, h.append rest⟩
  | (line :: ls, rest) =>
    exact ⟨List.Forall₂.cons (h.append line) (forall₂_worn_refl ls), Worn.refl rest⟩

/-- a reader whose buffer is what is left of `p` reads worn lines, and what it keeps is left of what
follows them -/
theorem feedAll_worn {r : LineReader} {p : Bytes} (hp : lf ∉ p) (h : Worn p r.buffer)
    (bs : List Bytes) :
    (∃ left, List.Forall₂ Worn (lines (p ++ bs.flatten)).1 left ∧
      (r.feedAll bs).1 = left.filterMap meaning?) ∧
      Worn (lines (p ++ bs.flatten)).2 (r.feedAll bs).2.buffer := by
  induction bs generalizing r p with
  | nil =>
    rw [List.flatten_nil, List.append_nil, lines_of_not_mem hp]
    exact ⟨⟨[], List.Forall₂.nil, rfl⟩, h⟩
  | cons b bs ih =>
    obtain ⟨hsaid, hkept⟩ := feed_eq r b
    obtain ⟨hlines, hrest⟩ := worn_lines hp h b
    have hbuffer : Worn (lines (p ++ b)).2 (r.feed b).2.buffer := by
      rw [hkept]
      exact hrest.kept
    obtain ⟨⟨left, hleft, hnext⟩, hlast⟩ := ih (not_mem_rest (p ++ b)) hbuffer
    rw [List.flatten_cons, ← List.append_assoc, lines_append]
    refine ⟨⟨(lines (r.buffer ++ b)).1 ++ left, List.rel_append hlines hleft, ?_⟩, hlast⟩
    rw [feedAll, hsaid, hnext, List.filterMap_append]

/-! ## Every loss has its cut -/

theorem exists_pieces_line {r : LineReader} {line left : Bytes} (hr : r.buffer = [])
    (hline : lf ∉ line) (h : Worn line left) :
    ∃ bs : List Bytes, bs.flatten = line ++ [lf] ∧ (r.feedAll bs).1 = (meaning? left).toList ∧
      (r.feedAll bs).2.buffer = [] := by
  obtain ⟨k, hk, hle, rfl⟩ := h
  have hfront : lf ∉ line.take k := fun hm => hline (List.mem_of_mem_take hm)
  have hrear : lf ∉ line.drop k := fun hm => hline (List.mem_of_mem_drop hm)
  obtain ⟨hsaid₁, hkept₁⟩ := feed_eq r (line.take k)
  rw [hr, List.nil_append, lines_of_not_mem hfront] at hsaid₁ hkept₁
  have hdropped : kept (line.take k) = [] := by
    rw [kept]
    rcases hk with rfl | hk
    · rw [List.take_zero]
      rfl
    · rw [if_pos]
      rw [List.length_take]
      omega
  rw [hdropped] at hkept₁
  obtain ⟨hsaid₂, hkept₂⟩ := feed_eq (r.feed (line.take k)).2 (line.drop k ++ [lf])
  rw [hkept₁, List.nil_append, lines_line hrear] at hsaid₂ hkept₂
  refine ⟨[line.take k, line.drop k ++ [lf]], ?_, ?_, hkept₂⟩
  · rw [List.flatten_cons, List.flatten_singleton, ← List.append_assoc, List.take_append_drop]
  · rw [feedAll, feedAll, feedAll, hsaid₁, hsaid₂]
    show [] ++ ((List.filterMap meaning? [line.drop k]) ++ []) = _
    rw [List.nil_append, List.append_nil]
    cases hs : meaning? (line.drop k) with
    | none => exact List.filterMap_cons_none hs
    | some x => exact List.filterMap_cons_some hs

theorem exists_pieces {ls left : List Bytes} (h : List.Forall₂ Worn ls left)
    (hls : ∀ line ∈ ls, lf ∉ line) {r : LineReader} (hr : r.buffer = []) :
    ∃ bs : List Bytes, bs.flatten = ls.flatMap (· ++ [lf]) ∧
      (r.feedAll bs).1 = left.filterMap meaning? ∧ (r.feedAll bs).2.buffer = [] := by
  induction h generalizing r with
  | nil => exact ⟨[], rfl, rfl, hr⟩
  | @cons line left ls lefts hworn htail ih =>
    obtain ⟨bs, hflat, hsaid, hbuffer⟩ :=
      exists_pieces_line hr (hls line List.mem_cons_self) hworn
    obtain ⟨cs, hflat', hsaid', hbuffer'⟩ :=
      ih (fun l hl => hls l (List.mem_cons_of_mem line hl)) hbuffer
    refine ⟨bs ++ cs, ?_, ?_, ?_⟩
    · rw [List.flatten_append, hflat, hflat', List.flatMap_cons]
    · rw [feedAll_append, hsaid, hsaid', List.filterMap_cons]
      cases meaning? left <;> rfl
    · rw [feedAll_append]
      exact hbuffer'

/-- over all ways to cut a stream, what is read is what its worn lines say -/
theorem said_iff_worn (s : Bytes) (said : List (Except Fault Inbound)) :
    (∃ bs : List Bytes, bs.flatten = s ∧ (new.feedAll bs).1 = said) ↔
      ∃ left, List.Forall₂ Worn (lines s).1 left ∧ said = left.filterMap meaning? := by
  constructor
  · rintro ⟨bs, rfl, rfl⟩
    exact (feedAll_worn (r := new) List.not_mem_nil (Worn.refl []) bs).1
  · rintro ⟨left, hleft, rfl⟩
    obtain ⟨bs, hflat, hsaid, hbuffer⟩ :=
      exists_pieces (r := new) hleft (fun _ h => not_mem_of_mem_lines h) rfl
    refine ⟨bs ++ [(lines s).2], ?_, ?_⟩
    · rw [List.flatten_append, hflat, List.flatten_singleton, flatMap_lines]
    · have hlast := (feed_eq (new.feedAll bs).2 (lines s).2).1
      rw [hbuffer, List.nil_append, lines_of_not_mem (not_mem_rest s)] at hlast
      rw [feedAll_append, feedAll, feedAll, hlast, hsaid]
      exact List.append_nil _

/-! ## Streams that lose nothing -/

section
variable {α : Type} {see : Except Fault Inbound → Option α}

/-- what is seen of a line by one who does not look at everything that is read -/
def seen (see : Except Fault Inbound → Option α) (line : Bytes) : Option α :=
  (meaning? line).bind see

/-- no more is seen of a line that lost bytes at its front than of the whole line -/
def IsSteady (see : Except Fault Inbound → Option α) : Prop :=
  ∀ front line : Bytes, seen see (front ++ line) = none → seen see line = none

/-- nothing is seen of the lines that are longer than a line may be -/
def IsSettled (see : Except Fault Inbound → Option α) (s : Bytes) : Prop :=
  ∀ line ∈ (lines s).1, mostPending < line.length → seen see line = none

instance (see : Except Fault Inbound → Option α) (s : Bytes) : Decidable (IsSettled see s) :=
  inferInstanceAs
    (Decidable (∀ line ∈ (lines s).1, mostPending < line.length → seen see line = none))

/-- the same is seen wherever the stream is cut -/
def CutsAgree (see : Except Fault Inbound → Option α) (s : Bytes) : Prop :=
  ∀ bs cs : List Bytes, bs.flatten = s → cs.flatten = s →
    (new.feedAll bs).1.filterMap see = (new.feedAll cs).1.filterMap see

theorem isSettled_append {a b : Bytes} :
    IsSettled see (a ++ b) ↔ IsSettled see a ∧ IsSettled see ((lines a).2 ++ b) := by
  rw [IsSettled, lines_append]
  exact List.forall_mem_append

theorem filterMap_seen (ls : List Bytes) :
    (ls.filterMap meaning?).filterMap see = ls.filterMap (seen see) := List.filterMap_filterMap

theorem seen_of_worn (hsee : IsSteady see) {line left : Bytes} (h : Worn line left)
    (hline : mostPending < line.length → seen see line = none) : seen see left = seen see line := by
  obtain ⟨k, rfl | hk, hle, rfl⟩ := h
  · rfl
  · have hwhole := hline (by omega)
    have hrest : seen see (line.drop k) = none := by
      rw [← List.take_append_drop k line] at hwhole
      exact hsee _ _ hwhole
    rw [hwhole, hrest]

theorem filterMap_of_worn (hsee : IsSteady see) {ls left : List Bytes}
    (h : List.Forall₂ Worn ls left)
    (hls : ∀ line ∈ ls, mostPending < line.length → seen see line = none) :
    left.filterMap (seen see) = ls.filterMap (seen see) := by
  induction h with
  | nil => rfl
  | @cons line left ls lefts hworn htail ih =>
    have hhead := seen_of_worn hsee hworn (hls line List.mem_cons_self)
    have hrest := ih fun l hl => hls l (List.mem_cons_of_mem line hl)
    rw [List.filterMap_cons, List.filterMap_cons, hhead, hrest]

theorem feedAll_of_isSettled (hsee : IsSteady see) {r : LineReader} {p : Bytes} (hp : lf ∉ p)
    (h : Worn p r.buffer) {bs : List Bytes} (hs : IsSettled see (p ++ bs.flatten)) :
    (r.feedAll bs).1.filterMap see = (lines (p ++ bs.flatten)).1.filterMap (seen see) := by
  obtain ⟨⟨left, hleft, hsaid⟩, -⟩ := feedAll_worn hp h bs
  rw [hsaid, filterMap_seen, filterMap_of_worn hsee hleft hs]

/-- every two cuts of a stream show the same exactly when it loses nothing that is seen -/
theorem cutsAgree_iff (hsee : IsSteady see) (s : Bytes) : CutsAgree see s ↔ IsSettled see s := by
  constructor
  · intro h line hline hlong
    -- a cut that drops the whole line, and one that drops nothing
    obtain ⟨before, after, hls⟩ := List.append_of_mem hline
    have hworn : Worn line [] :=
      ⟨line.length, Or.inr hlong, Nat.le_refl _, List.drop_length.symm⟩
    have hdropped : List.Forall₂ Worn (lines s).1 (before ++ [] :: after) := by
      rw [hls]
      exact List.rel_append (forall₂_worn_refl before)
        (List.Forall₂.cons hworn (forall₂_worn_refl after))
    obtain ⟨bs, hbs, hsaid⟩ := (said_iff_worn s _).mpr ⟨_, hdropped, rfl⟩
    obtain ⟨cs, hcs, hsaid'⟩ := (said_iff_worn s _).mpr ⟨_, forall₂_worn_refl _, rfl⟩
    have hsame := h bs cs hbs hcs
    rw [hsaid, hsaid', filterMap_seen, filterMap_seen, hls, List.filterMap_append,
      List.filterMap_append, List.append_cancel_left_eq] at hsame
    have hnil : seen see [] = none := rfl
    cases hv : seen see line with
    | none => rfl
    | some v =>
      rw [List.filterMap_cons_none hnil, List.filterMap_cons_some hv] at hsame
      have hlen := congrArg List.length hsame
      rw [List.length_cons] at hlen
      omega
  · intro h bs cs hbs hcs
    have hread (ds : List Bytes) (hds : ds.flatten = s) :
        (new.feedAll ds).1.filterMap see = (lines s).1.filterMap (seen see) := by
      subst hds
      exact feedAll_of_isSettled hsee (r := new) List.not_mem_nil (Worn.refl []) h
    rw [hread bs hbs, hread cs hcs]

end

/-! ## Seeing everything -/

theorem trim_eq_nil_iff {line : Bytes} : trim line = [] ↔ ∀ x ∈ line, isLineBlank x = true := by
  rw [trim, List.reverse_eq_nil_iff, List.dropWhile_eq_nil_iff]
  simp only [List.mem_reverse]

/-- blank lines say nothing, and no others -/
theorem meaning?_eq_none_iff {line : Bytes} :
    meaning? line = none ↔ ∀ x ∈ line, isLineBlank x = true := by
  rw [← trim_eq_nil_iff, meaning?]
  split
  · next h => exact ⟨fun _ => h, fun _ => rfl⟩
  · next h => exact ⟨fun hs => absurd hs (by simp), fun ht => absurd ht h⟩

theorem seen_some (line : Bytes) : seen some line = meaning? line := Option.bind_fun_some _

theorem isSteady_some : IsSteady (some : Except Fault Inbound → Option (Except Fault Inbound)) := by
  intro front line h
  rw [seen_some, meaning?_eq_none_iff] at h ⊢
  intro x hx
  exact h x (List.mem_append_right front hx)

end Shoreline.LineReader
