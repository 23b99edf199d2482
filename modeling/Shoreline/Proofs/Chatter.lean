import Shoreline.Proofs.ControlWire
import Shoreline.Proofs.LinePieces

/-!
# Messages are read through chatter

Control lines and heartbeats, each behind chatter on its own line, come out of the reader one by one
and in order, wherever the stream is cut (`messages_read_back`).  The chatter may hold tags, parts
of tags or whole control lines: the last tag of the line is the message's own, and a line that is too
long for a heartbeat is none.  It may not hold an LF, and has to leave the line short enough that
nothing of it is dropped before its end comes.

* `meaning?_line`          a line says its message;
* `lines_transcript`       the lines of the stream;
* `isSettled_transcript`   none of them loses anything.
-/

namespace Shoreline

def Inbound.text : Inbound → Bytes
  | control c => c.text
  | heartbeat => Shoreline.heartbeat

namespace LineReader

/-- a message at the end of its line, chatter in front of it and blank lines in front of that -/
structure Entry where
  blanks : List Bytes
  chatter : Bytes
  message : Inbound
  /-- the line ends in CR LF, not in LF alone -/
  hasCR : Bool
  deriving DecidableEq

namespace Entry

def ending (e : Entry) : Bytes := if e.hasCR then ControlLine.lineEnd else [lf]

def bytes (e : Entry) : Bytes :=
  e.blanks.flatMap (· ++ [lf]) ++ (e.chatter ++ e.message.text ++ e.ending)

/-- the message's line up to its LF -/
def line (e : Entry) : Bytes := e.chatter ++ e.message.text ++ if e.hasCR then [13] else []

/-- blank lines are blank, and the chatter leaves room for the message on its line -/
structure Clear (e : Entry) : Prop where
  blanks : ∀ b ∈ e.blanks, ∀ x ∈ b, isLineBlank x = true
  chatter : lf ∉ e.chatter
  room : match e.message with
    | .control c => c.Fits ∧ e.chatter.length ≤ 220
    | .heartbeat => e.chatter.length ≤ 28

end Entry

/-- the entries, and blank lines behind the last one -/
def transcript (entries : List Entry) (blanks : List Bytes) : Bytes :=
  entries.flatMap Entry.bytes ++ blanks.flatMap (· ++ [lf])

/-! ## One line -/

theorem bytes_eq (e : Entry) :
    e.bytes = (e.blanks ++ [e.line]).flatMap (· ++ [lf]) := by
  have hending : (if e.hasCR then [13] else []) ++ [lf] = e.ending := by
    rw [Entry.ending]
    split <;> rfl
  rw [List.flatMap_append, List.flatMap_singleton, Entry.line, List.append_assoc _ _ [lf], hending]
  rfl

theorem plain_text (x : Inbound) : x.text ≠ [] ∧ ∀ y ∈ x.text, isPlain y = true := by
  cases x with
  | control c =>
    refine ⟨?_, fun y hy => ControlLine.isPlain_text hy⟩
    intro he
    have hlen := ControlLine.length_text c
    rw [show c.text = [] from he] at hlen
    exact absurd hlen (by decide)
  | heartbeat =>
    have hall : heartbeat.all isPlain = true := by decide
    exact ⟨by decide, List.all_eq_true.mp hall⟩

theorem not_mem_of_blank {b : Bytes} (h : ∀ x ∈ b, isLineBlank x = true) : lf ∉ b :=
  fun hm => absurd (h lf hm) (by decide)

theorem meaning?_of_blank {b : Bytes} (h : ∀ x ∈ b, isLineBlank x = true) : meaning? b = none :=
  meaning?_eq_none_iff.mpr h

variable {e : Entry}

theorem not_mem_line (he : e.Clear) : lf ∉ e.line := by
  have hcr : lf ∉ (if e.hasCR then [13] else [] : Bytes) := by
    split <;> decide
  have htext : lf ∉ e.message.text := fun hm => absurd ((plain_text e.message).2 lf hm) (by decide)
  rw [Entry.line, List.mem_append, List.mem_append, not_or, not_or]
  exact ⟨⟨he.chatter, htext⟩, hcr⟩

theorem length_line (he : e.Clear) : e.line.length ≤ mostPending := by
  have hroom := he.room
  have hcr : (if e.hasCR then [13] else [] : Bytes).length ≤ 1 := by
    split <;> decide
  have hmost : mostPending = 256 := rfl
  rw [Entry.line, List.length_append, List.length_append]
  cases hs : e.message with
  | control c =>
    rw [hs] at hroom
    have hlen : (Inbound.control c).text.length = 33 := ControlLine.length_text c
    have hchatter := hroom.2
    omega
  | heartbeat =>
    rw [hs] at hroom
    have hlen : Inbound.heartbeat.text.length = 4 := rfl
    omega

theorem meaning?_line (he : e.Clear) : meaning? e.line = some (.ok e.message) := by
  obtain ⟨hne, hplain⟩ := plain_text e.message
  have htext : trim (e.message.text ++ if e.hasCR then [13] else []) = e.message.text := by
    refine trim_plain hne hplain ?_
    intro x hx
    split at hx
    · rw [List.mem_singleton.mp hx]
      rfl
    · exact absurd hx List.not_mem_nil
  have htrim : trim e.line = e.chatter ++ e.message.text := by
    rw [Entry.line, List.append_assoc, trim_front (htext.symm ▸ hne), htext]
  have hsome : e.chatter ++ e.message.text ≠ [] := fun h => hne (List.append_eq_nil_iff.mp h).2
  have hclassify : classify (e.chatter ++ e.message.text) = .ok e.message := by
    have hroom := he.room
    cases hs : e.message with
    | control c =>
      rw [hs] at hroom
      exact classify_append_text e.chatter c hroom.1
    | heartbeat =>
      rw [hs] at hroom
      exact classify_append_heartbeat hroom
  rw [meaning?, htrim, if_neg hsome, hclassify]

/-! ## The stream -/

variable {entries : List Entry} {blanks : List Bytes}

theorem transcript_eq (entries : List Entry) (blanks : List Bytes) :
    transcript entries blanks =
      (entries.flatMap (fun e => e.blanks ++ [e.line]) ++ blanks).flatMap (· ++ [lf]) := by
  have hbytes : Entry.bytes = fun e => (e.blanks ++ [e.line]).flatMap (· ++ [lf]) := funext bytes_eq
  rw [transcript, List.flatMap_append, List.flatMap_assoc, hbytes]

/-- the lines of the stream: those of its entries, and blank ones -/
theorem mem_lines_cases (hentries : ∀ e ∈ entries, e.Clear)
    (hblanks : ∀ b ∈ blanks, ∀ x ∈ b, isLineBlank x = true) {line : Bytes}
    (h : line ∈ entries.flatMap (fun e => e.blanks ++ [e.line]) ++ blanks) :
    (∀ x ∈ line, isLineBlank x = true) ∨ ∃ e ∈ entries, line = e.line := by
  rcases List.mem_append.mp h with h | h
  · obtain ⟨e, he, hl⟩ := List.mem_flatMap.mp h
    rcases List.mem_append.mp hl with hl | hl
    · exact Or.inl ((hentries e he).blanks line hl)
    · exact Or.inr ⟨e, he, List.mem_singleton.mp hl⟩
  · exact Or.inl (hblanks line h)

theorem lines_transcript (hentries : ∀ e ∈ entries, e.Clear)
    (hblanks : ∀ b ∈ blanks, ∀ x ∈ b, isLineBlank x = true) :
    lines (transcript entries blanks) =
      (entries.flatMap (fun e => e.blanks ++ [e.line]) ++ blanks, []) := by
  have hlines : ∀ line ∈ entries.flatMap (fun e => e.blanks ++ [e.line]) ++ blanks, lf ∉ line := by
    intro line hl
    rcases mem_lines_cases hentries hblanks hl with hblank | ⟨e, he, rfl⟩
    · exact not_mem_of_blank hblank
    · exact not_mem_line (hentries e he)
  have h := lines_flatMap hlines []
  rw [List.append_nil, ← transcript_eq] at h
  rw [h]
  exact congrArg (·, []) (List.append_nil _)

theorem isSettled_transcript (hentries : ∀ e ∈ entries, e.Clear)
    (hblanks : ∀ b ∈ blanks, ∀ x ∈ b, isLineBlank x = true) :
    IsSettled some (transcript entries blanks) := by
  intro line hl hlong
  rw [lines_transcript hentries hblanks] at hl
  rcases mem_lines_cases hentries hblanks hl with hblank | ⟨e, he, rfl⟩
  · exact (seen_some line).trans (meaning?_of_blank hblank)
  · have hshort := length_line (hentries e he)
    omega

theorem filterMap_of_blank {bs : List Bytes} (h : ∀ b ∈ bs, ∀ x ∈ b, isLineBlank x = true) :
    bs.filterMap meaning? = [] :=
  List.filterMap_eq_nil_iff.mpr fun b hb => meaning?_of_blank (h b hb)

theorem filterMap_entries (hentries : ∀ e ∈ entries, e.Clear) :
    (entries.flatMap fun e => e.blanks ++ [e.line]).filterMap meaning? =
      entries.map fun e => .ok e.message := by
  induction entries with
  | nil => rfl
  | cons e entries ih =>
    have he := hentries e List.mem_cons_self
    have hrest := ih fun e' h => hentries e' (List.mem_cons_of_mem e h)
    rw [List.flatMap_cons, List.filterMap_append, List.filterMap_append,
      filterMap_of_blank he.blanks, List.filterMap_cons_some (meaning?_line he), hrest]
    rfl

/-- the messages come out in order and no fault does, whatever chatter stands in front of them -/
theorem messages_read_back (entries : List Entry) (blanks : List Bytes)
    (hentries : ∀ e ∈ entries, e.Clear) (hblanks : ∀ b ∈ blanks, ∀ x ∈ b, isLineBlank x = true)
    (pieces : List Bytes) (hpieces : pieces.flatten = transcript entries blanks) :
    (new.feedAll pieces).1 = entries.map fun e => .ok e.message := by
  have hsettled := isSettled_transcript hentries hblanks
  rw [← hpieces] at hsettled
  have hread := feedAll_of_isSettled isSteady_some (r := new) List.not_mem_nil (Worn.refl [])
    hsettled
  rw [List.filterMap_some] at hread
  rw [hread, funext seen_some]
  show (lines pieces.flatten).1.filterMap meaning? = _
  rw [hpieces, lines_transcript hentries hblanks, List.filterMap_append, filterMap_of_blank hblanks,
    List.append_nil, filterMap_entries hentries]

/-- a control line behind the beginning of another one and most of a heartbeat, then blank lines,
then a heartbeat behind a tag, byte by byte -/
theorem messages_behind_tags_read :
    let line := ControlLine.resendBurst ⟨⟨770, 12345⟩, 1⟩ 2
    let other := ControlLine.received ⟨⟨770, 12345⟩, 9999⟩
    let entries : List Entry :=
      [⟨[], other.text.take 31 ++ [65, 76, 73, 82], .control line, true⟩,
        ⟨[[13], [32, 13], []], heartbeat ++ [82, 88, 69, 68], .heartbeat, false⟩]
    let pieces := (transcript entries [[]]).map fun x => [x]
    ((∀ e ∈ entries, e.Clear) ∧ (∀ b ∈ [([] : Bytes)], ∀ x ∈ b, isLineBlank x = true) ∧
      pieces.flatten = transcript entries [[]]) ∧
      (new.feedAll pieces).1 = [.ok (.control line), .ok .heartbeat] := by
  intro line other entries pieces
  have hfits : line.Fits := ⟨by decide, by decide, by decide⟩
  have hentries : ∀ e ∈ entries, e.Clear := by
    intro e he
    simp only [entries, List.mem_cons, List.not_mem_nil, or_false] at he
    obtain rfl | rfl := he
    · exact ⟨by decide, by decide +kernel, hfits, by decide +kernel⟩
    · exact ⟨by simp [isLineBlank], by decide, by decide⟩
  have hblanks : ∀ b ∈ [([] : Bytes)], ∀ x ∈ b, isLineBlank x = true := by simp
  have hflat : pieces.flatten = transcript entries [[]] := by
    rw [← List.flatMap_def, List.flatMap_singleton']
  exact ⟨⟨hentries, hblanks, hflat⟩, messages_read_back entries [[]] hentries hblanks pieces hflat⟩

end LineReader

end Shoreline
