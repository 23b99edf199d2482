import Shoreline.Deflate.Code
import Shoreline.Deflate.Output
import Shoreline.Fault

/-!
# Inflating

A DEFLATE stream is a row of blocks, each stored, coded with the fixed codes or coded with codes of
its own; the last one is marked, and bytes after it are not looked at.  A stream that breaks a rule
is corrupt; one that ends before its last block does is incomplete.

Input is taken in pieces and output is made in windows, of 32 KiB each.  A window is made as far as
the piece at hand allows before any byte of it is handed on, and a new piece is taken when the last
one is used up.  `inflate limit` refuses a stream with more than `limit` bytes of output, but it
makes every window of which it wants a byte, and a fault that shows then comes first.
-/

namespace Shoreline.Deflate

/-- `n` bits that must be there -/
def bits (n : Nat) (c : Cursor) : Except Halt (Nat × Cursor) :=
  match c.bits? n with
  | none => .error .exhausted
  | some p => .ok p

theorem size_of_bits {n v : Nat} {c c' : Cursor} (h : bits n c = .ok (v, c')) :
    c'.size + n = c.size := by
  unfold bits at h
  split at h
  · exact absurd h (by simp)
  · next p hb =>
    obtain rfl := Except.ok.inj h
    exact Cursor.size_of_bits? hb

/-! ## Tokens -/

inductive Token where
  | literal (b : UInt8)
  | endOfBlock
  | copy (length distance : Nat)

/-- the shortest length and the extra bits of each length symbol, from 257 on -/
def lengthTable : List (Nat × Nat) :=
  [(3, 0), (4, 0), (5, 0), (6, 0), (7, 0), (8, 0), (9, 0), (10, 0),
    (11, 1), (13, 1), (15, 1), (17, 1), (19, 2), (23, 2), (27, 2), (31, 2),
    (35, 3), (43, 3), (51, 3), (59, 3), (67, 4), (83, 4), (99, 4), (115, 4),
    (131, 5), (163, 5), (195, 5), (227, 5), (258, 0)]

/-- the shortest distance and the extra bits of each distance symbol -/
def distanceTable : List (Nat × Nat) :=
  [(1, 0), (2, 0), (3, 0), (4, 0), (5, 1), (7, 1), (9, 2), (13, 2),
    (17, 3), (25, 3), (33, 4), (49, 4), (65, 5), (97, 5), (129, 6), (193, 6),
    (257, 7), (385, 7), (513, 8), (769, 8), (1025, 9), (1537, 9), (2049, 10), (3073, 10),
    (4097, 11), (6145, 11), (8193, 12), (12289, 12), (16385, 13), (24577, 13)]

/-- a table entry's value with its extra bits added -/
def extended (entry : Option (Nat × Nat)) (c : Cursor) : Except Halt (Nat × Cursor) :=
  match entry with
  | none => .error .corrupt
  | some (base, extra) => (bits extra c).map fun (v, c) => (base + v, c)

def distance (distances : Code) (length : Nat) (c : Cursor) : Except Halt (Token × Cursor) :=
  match distances.symbol c with
  | .error e => .error e
  | .ok (d, c) => (extended distanceTable[d]? c).map fun (d, c) => (.copy length d, c)

def token (literals distances : Code) (c : Cursor) : Except Halt (Token × Cursor) :=
  match literals.symbol c with
  | .error e => .error e
  | .ok (s, c) =>
    if s < 256 then .ok (.literal (UInt8.ofNat s), c)
    else if s = 256 then .ok (.endOfBlock, c)
    else
      match extended lengthTable[s - 257]? c with
      | .error e => .error e
      | .ok (length, c) => distance distances length c

theorem size_of_extended {entry : Option (Nat × Nat)} {v : Nat} {c c' : Cursor}
    (h : extended entry c = .ok (v, c')) : c'.size ≤ c.size := by
  match entry, h with
  | none, h => exact absurd h (by simp [extended])
  | some (base, extra), h =>
    obtain ⟨⟨w, c₁⟩, hw, he⟩ := map_eq_ok h
    obtain ⟨_, rfl⟩ := Prod.mk.inj he
    have := size_of_bits hw
    omega

theorem size_of_distance {distances : Code} {length : Nat} {t : Token} {c c' : Cursor}
    (h : distance distances length c = .ok (t, c')) : c'.size < c.size := by
  unfold distance at h
  split at h
  · exact absurd h (by simp)
  · next d c₁ hd =>
    obtain ⟨⟨w, c₂⟩, hw, he⟩ := map_eq_ok h
    obtain ⟨_, rfl⟩ := Prod.mk.inj he
    have := Code.size_of_symbol hd
    have := size_of_extended hw
    omega

theorem size_of_token {literals distances : Code} {t : Token} {c c' : Cursor}
    (h : token literals distances c = .ok (t, c')) : c'.size < c.size := by
  unfold token at h
  split at h
  · exact absurd h (by simp)
  · next s c₁ hs =>
    have h₁ := Code.size_of_symbol hs
    split at h
    · obtain ⟨_, rfl⟩ := Prod.mk.inj (Except.ok.inj h)
      exact h₁
    · split at h
      · obtain ⟨_, rfl⟩ := Prod.mk.inj (Except.ok.inj h)
        exact h₁
      · split at h
        · exact absurd h (by simp)
        · next l c₂ hl =>
          have h₂ := size_of_extended hl
          have h₃ := size_of_distance h
          omega

/-! ## Blocks -/

/-- the tokens of a coded block, up to its end -/
def coded (room : Nat) (literals distances : Code) (c : Cursor) (out : Output) :
    Except (Halt × Output) (Cursor × Output) :=
  match h : token literals distances c with
  | .error e => .error (e, out)
  | .ok (.endOfBlock, c') => .ok (c', out)
  | .ok (.literal b, c') =>
    have := size_of_token h
    match emit room c'.isSpent out b with
    | .error e => .error e
    | .ok out => coded room literals distances c' out
  | .ok (.copy length distance, c') =>
    have := size_of_token h
    match copy room c'.isSpent distance length out with
    | .error e => .error e
    | .ok out => coded room literals distances c' out
termination_by c.size

def fixedLiterals : List Nat :=
  List.replicate 144 8 ++ List.replicate 112 9 ++ List.replicate 24 7 ++ List.replicate 8 8

/-- the fixed code of distances; its last two symbols have no meaning -/
def fixedDistances : List Nat := List.replicate 32 5

/-- the order in which the lengths of the code of code lengths are given -/
def lengthOrder : List Nat := [16, 17, 18, 0, 8, 7, 9, 6, 10, 5, 11, 4, 12, 3, 13, 2, 14, 1, 15]

def triples : Nat → Cursor → Except Halt (List Nat × Cursor)
  | 0, c => .ok ([], c)
  | n + 1, c =>
    match bits 3 c with
    | .error e => .error e
    | .ok (v, c) => (triples n c).map fun (vs, c) => (v :: vs, c)

/-- the lengths that one symbol of the code of code lengths adds to those before it (given in
reverse): a length, the last one repeated, or a run of zeros -/
def repeated (before : List Nat) (symbol : Nat) (c : Cursor) : Except Halt (List Nat × Cursor) :=
  if symbol < 16 then .ok ([symbol], c)
  else if symbol = 16 then
    match before with
    | [] => .error .corrupt
    | l :: _ => (bits 2 c).map fun (v, c) => (List.replicate (3 + v) l, c)
  else if symbol = 17 then (bits 3 c).map fun (v, c) => (List.replicate (3 + v) 0, c)
  else (bits 7 c).map fun (v, c) => (List.replicate (11 + v) 0, c)

theorem size_of_repeated {before ls : List Nat} {s : Nat} {c c' : Cursor}
    (h : repeated before s c = .ok (ls, c')) : c'.size ≤ c.size := by
  have key : ∀ {n : Nat} {f : Nat × Cursor → List Nat × Cursor}, (∀ p, (f p).2 = p.2) →
      (bits n c).map f = .ok (ls, c') → c'.size ≤ c.size := by
    intro n f hf hm
    obtain ⟨⟨v, c₁⟩, hv, he⟩ := map_eq_ok hm
    have h₁ := size_of_bits hv
    have h₂ : (f (v, c₁)).2 = c₁ := hf (v, c₁)
    rw [he] at h₂
    rw [show c' = c₁ from h₂]; omega
  unfold repeated at h
  split at h
  · obtain ⟨_, rfl⟩ := Prod.mk.inj (Except.ok.inj h)
    exact Nat.le_refl _
  · split at h
    · split at h
      · exact absurd h (by simp)
      · exact key (fun _ => rfl) h
    · split at h
      · exact key (fun _ => rfl) h
      · exact key (fun _ => rfl) h

/-- `total` code lengths, read behind those in `acc` (given in reverse) -/
def lengths (code : Code) (total : Nat) (acc : List Nat) (c : Cursor) :
    Except Halt (List Nat × Cursor) :=
  if acc.length = total then .ok (acc.reverse, c)
  else if total < acc.length then .error .corrupt
  else
    match h : code.symbol c with
    | .error e => .error e
    | .ok (s, c₁) =>
      match h' : repeated acc s c₁ with
      | .error e => .error e
      | .ok (ls, c₂) =>
        have := Code.size_of_symbol h
        have := size_of_repeated h'
        lengths code total (ls.reverse ++ acc) c₂
termination_by c.size

/-- the two codes at the front of a block with codes of its own -/
def codes (c : Cursor) : Except Halt (Code × Code × Cursor) := do
  let (l, c) ← bits 5 c
  let (d, c) ← bits 5 c
  let (n, c) ← bits 4 c
  if 286 < l + 257 ∨ 30 < d + 1 then .error .corrupt
  else
    let (given, c) ← triples (n + 4) c
    let order := lengthOrder.zip given
    let own := (List.range 19).map fun s => ((order.find? fun p => p.1 == s).map (·.2)).getD 0
    if ¬ Code.isComplete own then .error .corrupt
    else
      let (ls, c) ← lengths (.ofLengths own) (l + 257 + (d + 1)) [] c
      let literals := ls.take (l + 257)
      let distances := ls.drop (l + 257)
      if Code.isUsable literals ∧ Code.isUsable distances then
        .ok (.ofLengths literals, .ofLengths distances, c)
      else .error .corrupt

theorem size_of_coded {room : Nat} {literals distances : Code} {c c' : Cursor}
    {out out' : Output} (h : coded room literals distances c out = .ok (c', out')) :
    c'.size ≤ c.size := by
  fun_induction coded room literals distances c out with
  | case1 c out e ht => exact absurd h (by simp)
  | case2 c out c₁ ht =>
    obtain ⟨rfl, _⟩ := Prod.mk.inj (Except.ok.inj h)
    exact Nat.le_of_lt (size_of_token ht)
  | case3 c out b c₁ ht hlt e he => exact absurd h (by simp)
  | case4 c out b c₁ ht hlt out₁ he ih => exact Nat.le_trans (ih h) (Nat.le_of_lt hlt)
  | case5 c out l d c₁ ht hlt e he => exact absurd h (by simp)
  | case6 c out l d c₁ ht hlt out₁ he ih => exact Nat.le_trans (ih h) (Nat.le_of_lt hlt)

theorem size_of_triples {n : Nat} {vs : List Nat} {c c' : Cursor}
    (h : triples n c = .ok (vs, c')) : c'.size ≤ c.size := by
  induction n generalizing c vs with
  | zero =>
    obtain ⟨_, rfl⟩ := Prod.mk.inj (Except.ok.inj h)
    exact Nat.le_refl _
  | succ n ih =>
    unfold triples at h
    split at h
    · exact absurd h (by simp)
    · next v c₁ hv =>
      obtain ⟨⟨ws, c₂⟩, hw, he⟩ := map_eq_ok h
      obtain ⟨_, rfl⟩ := Prod.mk.inj he
      have := size_of_bits hv
      have := ih hw
      omega

theorem size_of_lengths {code : Code} {total : Nat} {acc ls : List Nat} {c c' : Cursor}
    (h : lengths code total acc c = .ok (ls, c')) : c'.size ≤ c.size := by
  fun_induction lengths code total acc c with
  | case1 acc c ha =>
    obtain ⟨_, rfl⟩ := Prod.mk.inj (Except.ok.inj h)
    exact Nat.le_refl _
  | case2 acc c ha hl => exact absurd h (by simp)
  | case3 acc c ha hl e he => exact absurd h (by simp)
  | case4 acc c ha hl s c₁ hs e he => exact absurd h (by simp)
  | case5 acc c ha hl s c₁ hs ls₁ c₂ hr h₁ h₂ ih =>
    have := ih h
    omega

theorem size_of_codes {literals distances : Code} {c c' : Cursor}
    (h : codes c = .ok (literals, distances, c')) : c'.size ≤ c.size := by
  unfold codes at h
  obtain ⟨⟨l, c₁⟩, h₁, h⟩ := bind_eq_ok h
  obtain ⟨⟨d, c₂⟩, h₂, h⟩ := bind_eq_ok h
  obtain ⟨⟨n, c₃⟩, h₃, h⟩ := bind_eq_ok h
  simp only at h
  split at h
  · exact absurd h (by simp)
  · obtain ⟨⟨given, c₄⟩, h₄, h⟩ := bind_eq_ok h
    simp only at h
    split at h
    · exact absurd h (by simp)
    · obtain ⟨⟨ls, c₅⟩, h₅, h⟩ := bind_eq_ok h
      simp only at h
      split at h
      · obtain ⟨_, h⟩ := Prod.mk.inj (Except.ok.inj h)
        obtain ⟨_, rfl⟩ := Prod.mk.inj h
        have := size_of_bits h₁
        have := size_of_bits h₂
        have := size_of_bits h₃
        have := size_of_triples h₄
        have := size_of_lengths h₅
        omega
      · exact absurd h (by simp)

/-- a stored block, from the byte boundary on: its length twice, the second time complemented, and
its bytes -/
def stored (room : Nat) (b : Bytes) (out : Output) :
    Except (Halt × Output) (Cursor × Output) :=
  match b with
  | l₀ :: l₁ :: n₀ :: n₁ :: r =>
    let length := (word l₀ l₁).toNat
    if length + (word n₀ n₁).toNat ≠ 65535 then .error (.corrupt, out)
    else
      match (r.take length).foldlM (emit room false) out with
      | .error e => .error e
      | .ok out =>
        if r.length < length then .error (.exhausted, out) else .ok (⟨[], r.drop length⟩, out)
  | _ => .error (.exhausted, out)

/-- the body of a block of the given kind -/
def block (room kind : Nat) (c : Cursor) (out : Output) :
    Except (Halt × Output) (Cursor × Output) :=
  if kind = 0 then stored room c.aligned out
  else if kind = 1 then coded room (.ofLengths fixedLiterals) (.ofLengths fixedDistances) c out
  else if kind = 2 then
    match codes c with
    | .error e => .error (e, out)
    | .ok (literals, distances, c) => coded room literals distances c out
  else .error (.corrupt, out)

theorem size_of_stored {room : Nat} {b : Bytes} {c' : Cursor} {out out' : Output}
    (h : stored room b out = .ok (c', out')) : c'.size ≤ 8 * b.length := by
  unfold stored at h
  split at h
  · simp only at h
    split at h
    · exact absurd h (by simp)
    · split at h
      · exact absurd h (by simp)
      · split at h
        · exact absurd h (by simp)
        · obtain ⟨rfl, _⟩ := Prod.mk.inj (Except.ok.inj h)
          simp only [Cursor.size, List.length_nil, List.length_drop, List.length_cons]
          omega
  · exact absurd h (by simp)

theorem size_of_block {room kind : Nat} {c c' : Cursor} {out out' : Output}
    (h : block room kind c out = .ok (c', out')) : c'.size ≤ c.size := by
  unfold block at h
  split at h
  · have := size_of_stored h
    simp only [Cursor.aligned, Cursor.size] at this ⊢
    omega
  · split at h
    · exact size_of_coded h
    · split at h
      · split at h
        · exact absurd h (by simp)
        · next hc => exact Nat.le_trans (size_of_coded h) (size_of_codes hc)
      · exact absurd h (by simp)

/-! ## Streams -/

/-- the output of the blocks from the cursor on, put behind `out` -/
def blocks (room : Nat) (c : Cursor) (out : Output) : Except (Halt × Output) Output :=
  match h : bits 3 c with
  | .error e => .error (e, out)
  | .ok (header, c₁) =>
    match h' : block room (header / 2) c₁ out with
    | .error e => .error e
    | .ok (c₂, out) =>
      have := size_of_bits h
      have := size_of_block h'
      if header % 2 = 1 then .ok out else blocks room c₂ out
termination_by c.size

/-- inflates as many windows as hold the first `limit + 1` bytes of output -/
def run (limit : Nat) (b : Bytes) : Except (Halt × Output) Output :=
  blocks ((limit / window + 1) * window) ⟨[], b⟩ .empty

/-- the first `n` bytes of a stream show no fault and give more than `limit` bytes of output, and
some of them were left when the last window was begun -/
def isEnough (limit : Nat) (b : Bytes) (n : Nat) : Bool :=
  match run limit (b.take n) with
  | .error (.exhausted, out) => limit < out.size && !out.dry
  | _ => false

/-- some of the pieces of a stream, but not all, are enough for more than `limit` bytes -/
def stopsEarly (limit : Nat) (b : Bytes) : Bool :=
  (List.range' 1 ((b.length - 1) / window)).any fun i => isEnough limit b (i * window)

/-- fewer bytes than this are not asked for alone -/
def leastRequest : Nat := 32

/-- a stream that ends too early has given more than `limit` bytes.  The bytes up to the limit are
asked for first and one more after them, or all at once when only few are left up to the limit; of a
window begun when no input was left only the first request is met. -/
def overruns (limit : Nat) (out : Output) : Bool :=
  limit < out.size && (!out.dry || limit % window < leastRequest)

/-- the bytes that a stream stands for, at most `limit` of them -/
def inflate (limit : Nat) (b : Bytes) : Except Fault Bytes :=
  let pastLimit := Except.error (.body (.deflatePastLimit limit))
  match run limit b with
  | .ok out => if limit < out.size then pastLimit else .ok out.bytes.toList
  | .error (.full, _) => pastLimit
  | .error (.corrupt, _) =>
    if stopsEarly limit b then pastLimit else .error (.body .deflateCorrupt)
  | .error (.exhausted, out) =>
    if stopsEarly limit b || overruns limit out then pastLimit
    else .error (.body .deflateIncomplete)

end Shoreline.Deflate
