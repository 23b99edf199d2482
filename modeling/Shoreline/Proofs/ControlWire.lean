import Shoreline.Proofs.Fields
import Shoreline.Control.Reader

/-!
# Control lines are read back

A control line whose numbers fit into their fields is read back from its text, and a line reader that
holds nothing reads each line that is sent to it as what it says.  Both rest on the bytes of a line:
none of them is a blank or ends a line (`isPlain`), and the letter that begins a tag stands only in
front.

* `parse_text`      a control line is read back;
* `feed_wire`       a line reader reads a control line;
* `feed_heartbeat`  and a heartbeat.
-/

namespace Shoreline

/-! ## Bytes of a line -/

/-- bytes that neither end a line nor are dropped at its end -/
def isPlain (x : UInt8) : Bool := 44 ≤ x.toNat

theorem isPlain_of_isDigit {x : UInt8} (h : isDigit x = true) : isPlain x = true := by
  rw [isDigit_iff] at h
  rw [isPlain, decide_eq_true_iff]
  omega

theorem ne_of_isPlain {x : UInt8} (h : isPlain x = true) : x ≠ 10 ∧ x ≠ 13 ∧ x ≠ 32 := by
  refine ⟨?_, ?_, ?_⟩ <;> (rintro rfl; exact absurd h (by decide))

def tagLetter : UInt8 := 82

theorem mem_decimal {width v : Nat} {x : UInt8} (h : x ∈ decimal width v) :
    isPlain x = true ∧ x ≠ tagLetter := by
  have hx := List.all_eq_true.mp (all_isDigit_decimal width v) x h
  refine ⟨isPlain_of_isDigit hx, ?_⟩
  rintro rfl
  exact absurd hx (by decide)

theorem mem_hexadecimal {width v : Nat} {x : UInt8} (h : x ∈ hexadecimal width v) :
    isPlain x = true ∧ x ≠ tagLetter := by
  induction width generalizing v with
  | zero => exact absurd h (by simp [hexadecimal])
  | succ n ih =>
    rw [hexadecimal, List.mem_append, List.mem_singleton] at h
    rcases h with h | rfl
    · exact ih h
    · have hd : ∀ d, d < 16 → isPlain (hexDigit d) = true ∧ hexDigit d ≠ tagLetter := by decide
      exact hd _ (Nat.mod_lt v (by decide))

namespace ControlLine

def Fits (c : ControlLine) : Prop :=
  c.key.serial.toNat ≤ 9999 ∧ c.key.packet.toNat ≤ 9999 ∧ c.burst.toNat ≤ 999

def rear (c : ControlLine) : Bytes :=
  comma :: (decimal 4 c.key.serial.toNat ++ comma :: (decimal 5 c.key.profile.toNat ++
    comma :: (decimal 4 c.key.packet.toNat ++ comma :: (decimal 3 c.burst.toNat ++
      comma :: checksumField (crc32 c.body)))))

theorem text_eq (c : ControlLine) : c.text = c.kind.tag ++ c.rear := by
  simp only [text, body, rear, List.append_assoc, List.cons_append, List.nil_append]

theorem length_tag (k : ControlKind) : k.tag.length = 4 := by cases k <;> rfl

theorem length_body (c : ControlLine) : c.body.length = bodySize := by
  simp only [body, List.length_append, length_decimal, length_tag, List.length_singleton]
  rfl

theorem length_text (c : ControlLine) : c.text.length = size := by
  rw [text, List.length_append, length_body, length_checksumField]
  rfl

theorem mem_rear {c : ControlLine} {x : UInt8} (h : x ∈ c.rear) :
    isPlain x = true ∧ x ≠ tagLetter := by
  have hcomma : isPlain comma = true ∧ comma ≠ tagLetter := by decide
  simp only [rear, List.mem_cons, List.mem_append] at h
  rcases h with rfl | h | rfl | h | rfl | h | rfl | h | rfl | h
  · exact hcomma
  · exact mem_decimal h
  · exact hcomma
  · exact mem_decimal h
  · exact hcomma
  · exact mem_decimal h
  · exact hcomma
  · exact mem_decimal h
  · exact hcomma
  · exact mem_hexadecimal h

theorem isPlain_text {c : ControlLine} {x : UInt8} (h : x ∈ c.text) : isPlain x = true := by
  rw [text_eq, List.mem_append] at h
  rcases h with h | h
  · have htag : c.kind.tag.all isPlain = true := by cases c.kind <;> decide
    exact List.all_eq_true.mp htag x h
  · exact (mem_rear h).1

/-! ## Fields are read back -/

theorem getD_mid {i : Nat} {a : Bytes} (x : UInt8) (c : Bytes) (ha : a.length = i) :
    (a ++ x :: c).getD i 0 = x := by
  rw [← ha, List.getD_eq_getElem?_getD, List.getElem?_append_right (Nat.le_refl _), Nat.sub_self]
  rfl

theorem parseField_mid (field : Field) {i width v : Nat} {a : Bytes} (c : Bytes)
    (ha : a.length = i) (hw : 0 < width) (hv : v < 10 ^ width) :
    parseField field i width (a ++ comma :: (decimal width v ++ c)) = .ok v := by
  have hs : slice (i + 1) width (a ++ comma :: (decimal width v ++ c)) = decimal width v := by
    rw [List.append_cons]
    exact slice_mid c (by rw [List.length_append, ha]; rfl) (length_decimal _ _)
  rw [parseField, getD_mid _ _ ha, if_neg (by simp), hs]
  exact Field.number_decimal field hw hv

theorem ofTag?_tag (k : ControlKind) : ControlKind.ofTag? k.tag = some k := by cases k <;> rfl

theorem body_append (c : ControlLine) (f : Bytes) :
    c.body ++ f = c.kind.tag ++ comma :: (decimal 4 c.key.serial.toNat ++
      comma :: (decimal 5 c.key.profile.toNat ++ comma :: (decimal 4 c.key.packet.toNat ++
        comma :: (decimal 3 c.burst.toNat ++ comma :: f)))) := by
  simp only [body, List.append_assoc, List.cons_append, List.nil_append]

/-- a line is read whatever digits spell its checksum -/
theorem parse_body (c : ControlLine) {f : Bytes} (hf : c.Fits) (hlen : f.length = 8)
    (hsum : Field.checksumIn f = .ok (crc32 c.body)) : parse (c.body ++ f) = .ok c := by
  obtain ⟨hs, hp, hb⟩ := hf
  have hq := c.key.profile.toNat_lt
  have hline := body_append c f
  have htag : (c.body ++ f).take 4 = c.kind.tag := by
    rw [hline, ← length_tag c.kind, List.take_left]
  have hserial : parseField .serial 4 4 (c.body ++ f) = .ok c.key.serial.toNat := by
    rw [hline]
    exact parseField_mid .serial _ (length_tag _) (by decide) (by omega)
  have hprofile : parseField .profile 9 5 (c.body ++ f) = .ok c.key.profile.toNat := by
    rw [hline, ← List.cons_append, ← List.append_assoc]
    refine parseField_mid .profile _ ?_ (by decide) (by omega)
    simp only [List.length_append, length_tag, List.length_cons, length_decimal]
  have hpacket : parseField .packet 15 4 (c.body ++ f) = .ok c.key.packet.toNat := by
    rw [hline, ← List.cons_append, ← List.append_assoc, ← List.cons_append, ← List.append_assoc]
    refine parseField_mid .packet _ ?_ (by decide) (by omega)
    simp only [List.length_append, length_tag, List.length_cons, length_decimal]
  have hburst : parseField .burst 20 3 (c.body ++ f) = .ok c.burst.toNat := by
    rw [hline, ← List.cons_append, ← List.append_assoc, ← List.cons_append, ← List.append_assoc,
      ← List.cons_append, ← List.append_assoc]
    refine parseField_mid .burst _ ?_ (by decide) (by omega)
    simp only [List.length_append, length_tag, List.length_cons, length_decimal]
  have hcomma : (c.body ++ f).getD 24 0 = comma := by
    rw [hline, ← List.cons_append, ← List.append_assoc, ← List.cons_append, ← List.append_assoc,
      ← List.cons_append, ← List.append_assoc, ← List.cons_append, ← List.append_assoc]
    refine getD_mid _ _ ?_
    simp only [List.length_append, length_tag, List.length_cons, length_decimal]
  have hsize : (c.body ++ f).length = size := by
    rw [List.length_append, length_body, hlen]
    rfl
  have hbody : (c.body ++ f).take bodySize = c.body := by
    rw [← length_body c, List.take_left]
  have hrear : (c.body ++ f).drop bodySize = f := by
    rw [← length_body c, List.drop_left]
  rw [parse, if_neg (by rw [hsize]; simp), htag, ofTag?_tag]
  dsimp only [orFault, bind, Except.bind]
  rw [hserial, hprofile, hpacket, hburst]
  dsimp only
  rw [hcomma, if_neg (by simp), hrear, hsum, hbody]
  dsimp only
  rw [Burst.verify, if_pos rfl]
  dsimp only
  rw [if_neg (by omega), UInt16.ofNat_toNat, UInt16.ofNat_toNat, UInt16.ofNat_toNat,
    UInt16.ofNat_toNat]

theorem parse_text (c : ControlLine) (hf : c.Fits) : parse c.text = .ok c :=
  parse_body c hf (length_checksumField _) (Field.checksumIn_checksumField _)

end ControlLine

/-! ## Lines are read one by one -/

namespace LineReader

theorem ofTag?_cons_ne {x : UInt8} {b : Bytes} (h : x ≠ tagLetter) :
    ControlKind.ofTag? ((x :: b).take 4) = none := by
  rw [List.take_succ_cons, ControlKind.ofTag?, if_neg, if_neg]
  · intro he
    exact h (List.cons.inj he).1
  · intro he
    exact h (List.cons.inj he).1

/-- behind the last tag letter nothing changes the choice -/
theorem lastTag?_of_ne (best : Option Bytes) {b : Bytes} (h : ∀ x ∈ b, x ≠ tagLetter) :
    lastTag? best b = best := by
  induction b with
  | nil => rfl
  | cons x b ih =>
    rw [lastTag?, ofTag?_cons_ne (h x List.mem_cons_self), Option.isSome_none, if_neg (by simp)]
    exact ih fun y hy => h y (List.mem_cons_of_mem _ hy)

theorem lastTag?_of_tag (best : Option Bytes) {x : UInt8} {b : Bytes}
    (h : (ControlKind.ofTag? ((x :: b).take 4)).isSome = true) :
    lastTag? best (x :: b) = lastTag? (some (x :: b)) b := by
  rw [lastTag?, if_pos h]

theorem lastTag?_eq_or (best : Option Bytes) (b : Bytes) :
    lastTag? best b = (lastTag? none b).or best := by
  induction b generalizing best with
  | nil => rfl
  | cons x b ih =>
    rw [lastTag?, lastTag?]
    split
    · rw [ih (some (x :: b)), Option.or_assoc]
      rfl
    · exact ih best

/-- what is in front of the last tag does not matter -/
theorem lastTag?_front {b t : Bytes} (h : lastTag? none b = some t) (a : Bytes) :
    lastTag? none (a ++ b) = some t := by
  have hany (best : Option Bytes) : lastTag? best (a ++ b) = some t := by
    induction a generalizing best with
    | nil =>
      rw [List.nil_append, lastTag?_eq_or, h]
      rfl
    | cons x a ih => exact ih _
  exact hany none

/-- the last tag of a control line is its own -/
theorem lastTag?_text (c : ControlLine) : lastTag? none c.text = some c.text := by
  have hsome : (ControlKind.ofTag? (c.text.take 4)).isSome = true := by
    rw [ControlLine.text_eq, ← ControlLine.length_tag c.kind, List.take_left,
      ControlLine.ofTag?_tag]
    rfl
  have htail : c.kind.tag.tail.all (· != tagLetter) = true := by cases c.kind <;> decide
  obtain ⟨x, hx⟩ : ∃ x, c.kind.tag = x :: c.kind.tag.tail := by
    cases c.kind <;> exact ⟨_, rfl⟩
  have hc : c.text = x :: (c.kind.tag.tail ++ c.rear) := by
    rw [ControlLine.text_eq, hx]
    rfl
  have hb : ∀ y ∈ c.kind.tag.tail ++ c.rear, y ≠ tagLetter := by
    intro y hy
    rcases List.mem_append.mp hy with hy | hy
    · exact bne_iff_ne.mp (List.all_eq_true.mp htail y hy)
    · exact (ControlLine.mem_rear hy).2
  rw [hc] at hsome
  rw [hc, lastTag?_of_tag none hsome, lastTag?_of_ne _ hb]

theorem classify_append_text (a : Bytes) (c : ControlLine) (hf : c.Fits) :
    classify (a ++ c.text) = .ok (.control c) := by
  have hlong : ¬ (heartbeat.isSuffixOf (a ++ c.text) = true ∧
      (a ++ c.text).length < ControlLine.size) := by
    rw [List.length_append, ControlLine.length_text]
    omega
  rw [classify, if_neg hlong, lastTag?_front (lastTag?_text c)]
  show (ControlLine.parse c.text).map _ = _
  rw [ControlLine.parse_text c hf]
  rfl

theorem classify_append_heartbeat {a : Bytes} (h : a.length ≤ 28) :
    classify (a ++ heartbeat) = .ok .heartbeat := by
  have hlen : (a ++ heartbeat).length < ControlLine.size := by
    rw [List.length_append]
    show a.length + 4 < 33
    omega
  rw [classify, if_pos ⟨List.isSuffixOf_iff_suffix.mpr (List.suffix_append a heartbeat), hlen⟩]

/-! ## Cutting off a line -/

theorem cut?_line {line : Bytes} (h : ∀ x ∈ line, isPlain x = true) :
    cut? (line ++ ControlLine.lineEnd) = some (line ++ [13], []) := by
  have hne : ∀ x ∈ line ++ [13], (x != lf) = true := by
    intro x hx
    rw [bne_iff_ne]
    rcases List.mem_append.mp hx with hx | hx
    · exact (ne_of_isPlain (h x hx)).1
    · rw [List.mem_singleton.mp hx]
      decide
  have hsplit : line ++ ControlLine.lineEnd = (line ++ [13]) ++ [lf] := by
    rw [List.append_assoc]
    rfl
  rw [cut?, hsplit, List.dropWhile_append_of_pos hne, List.takeWhile_append_of_pos hne]
  simp

/-- nothing is dropped in front of what is left of a line -/
theorem trim_front {b : Bytes} (h : trim b ≠ []) (a : Bytes) : trim (a ++ b) = a ++ trim b := by
  have hrest : (b.reverse.dropWhile isLineBlank).isEmpty ≠ true := fun he =>
    h (List.reverse_eq_nil_iff.mpr (List.isEmpty_iff.mp he))
  rw [trim, List.reverse_append, List.dropWhile_append, if_neg hrest, List.reverse_append,
    List.reverse_reverse]
  rfl

/-- blanks behind the last plain byte are dropped, and nothing else is -/
theorem trim_plain {b t : Bytes} (hne : b ≠ []) (hb : ∀ x ∈ b, isPlain x = true)
    (ht : ∀ x ∈ t, isLineBlank x = true) : trim (b ++ t) = b := by
  have hrev : b.reverse.dropWhile isLineBlank = b.reverse := by
    obtain ⟨x, r, hr⟩ := List.exists_cons_of_ne_nil (mt List.reverse_eq_nil_iff.mp hne)
    have hx : x ∈ b := List.mem_reverse.mp (hr ▸ List.mem_cons_self)
    obtain ⟨-, h13, h32⟩ := ne_of_isPlain (hb x hx)
    rw [hr, List.dropWhile_cons_of_neg]
    simp [isLineBlank, h13, h32]
  rw [trim, List.reverse_append,
    List.dropWhile_append_of_pos fun x hx => ht x (List.mem_reverse.mp hx), hrev,
    List.reverse_reverse]

theorem drainOnto_none {r r' : LineReader} (acc : List (Except Fault Inbound))
    (h : r.next = (none, r')) : drainOnto acc r = (acc.reverse, r') := by
  rw [drainOnto]
  split
  · next r₂ h₂ =>
    rw [h] at h₂
    rw [(Prod.mk.inj h₂).2]
  · next h₂ =>
    rw [h] at h₂
    exact absurd h₂ (by simp)

theorem drainOnto_some {r r' : LineReader} {x : Except Fault Inbound}
    (acc : List (Except Fault Inbound)) (h : r.next = (some x, r')) :
    drainOnto acc r = drainOnto (x :: acc) r' := by
  rw [drainOnto]
  split
  · next h₂ =>
    rw [h] at h₂
    exact absurd h₂ (by simp)
  · next x₂ r₂ h₂ =>
    rw [h] at h₂
    obtain ⟨h₃, rfl⟩ := Prod.mk.inj h₂
    rw [Option.some.inj h₃]

theorem next_of_nil {r : LineReader} (h : r.buffer = []) : r.next = (none, r) := by
  rw [next, h, scan]
  split
  · rw [if_neg (by decide), ← h]
  · next line rest hc => exact absurd hc (by simp [cut?])

/-- a line of plain bytes is read as what it says, and nothing of it is left -/
theorem feed_line {r : LineReader} {line : Bytes} (hb : r.buffer = []) (hne : line ≠ [])
    (h : ∀ x ∈ line, isPlain x = true) :
    r.feed (line ++ ControlLine.lineEnd) = ([classify line], r.note (classify line)) := by
  have hnext : (r.push (line ++ ControlLine.lineEnd)).next =
      (some (classify line), r.note (classify line)) := by
    rw [next, push, hb, List.nil_append, scan]
    split
    · next hc =>
      rw [cut?_line h] at hc
      exact absurd hc (by simp)
    · next l rest hc =>
      obtain ⟨rfl, rfl⟩ := Prod.mk.inj (Option.some.inj ((cut?_line h).symm.trans hc))
      have htrim : trim (line ++ [13]) = line :=
        trim_plain hne h fun x hx => by rw [List.mem_singleton.mp hx]; rfl
      rw [htrim, if_neg hne]
      dsimp only
      cases hcl : classify line with
      | ok x => cases x <;> simp only [note, ← hb]
      | error e => cases e <;> simp only [note, ← hb]
  rw [feed, drain, drainOnto_some [] hnext]
  exact drainOnto_none _ (next_of_nil ((buffer_note _ _).trans hb))

theorem feed_wire {r : LineReader} {c : ControlLine} (hb : r.buffer = []) (hf : c.Fits) :
    r.feed c.wire = ([.ok (.control c)], { r with accepted := r.accepted + 1 }) := by
  have hne : c.text ≠ [] := by
    intro he
    have := ControlLine.length_text c
    rw [he] at this
    exact absurd this (by decide)
  have hc : classify c.text = .ok (.control c) := classify_append_text [] c hf
  rw [ControlLine.wire, feed_line hb hne fun x hx => ControlLine.isPlain_text hx, hc]
  rfl

theorem feed_heartbeat {r : LineReader} (hb : r.buffer = []) :
    r.feed (heartbeat ++ ControlLine.lineEnd) = ([.ok .heartbeat], r) := by
  have hc : classify heartbeat = .ok .heartbeat := classify_append_heartbeat (a := []) (Nat.zero_le 28)
  have hplain : heartbeat.all isPlain = true := by decide
  rw [feed_line hb (by decide) (List.all_eq_true.mp hplain), hc]
  rfl

end LineReader

end Shoreline
