import Shoreline.Proofs.Answers

/-!
# What the two sides know of a packet

A packet is looked at on both sides at once: what is there of it at the receiver, and the packet at
the sender once it has heard all that was said.  Each thing that the receiver does with a burst or a
timer is a `Move` of this pair.  Nothing is lost by a move, and either nothing is said, or the packet is
done, or everything that is missing is asked for.

* `Move.trans`       moves add up to a move;
* `Cover`, `Done`, `Asked`   what moves keep;
* `move_receive`     a burst comes;
* `move_pursue`      the packet is asked for.
-/

namespace Shoreline

/-! ## What is there -/

namespace PacketAssembly

/-- what a burst of this kind brings is there -/
def Got (p : PacketAssembly) : BurstKind → Prop
  | .announce _ => p.announced.isSome = true
  | .data i _ => p.pieces.contains i = true
  | .terminal => p.terminalSeen = true

/-- a burst of this kind brings nothing new -/
def Recorded (p : PacketAssembly) (k : BurstKind) : Prop := p.held = true ∨ p.Got k

/-- nothing is lost -/
structure Grows (p p' : PacketAssembly) : Prop where
  held : p.held = true → p'.held = true
  recorded : ∀ k, p.Recorded k → p'.Recorded k

variable {p p' p'' : PacketAssembly}

theorem Grows.refl (p : PacketAssembly) : Grows p p := ⟨id, fun _ => id⟩

theorem Grows.trans (h : Grows p p') (h' : Grows p' p'') : Grows p p'' :=
  ⟨fun hp => h'.held (h.held hp), fun k hk => h'.recorded k (h.recorded k hk)⟩

theorem Grows.of_held (h : p'.held = true) : Grows p p' := ⟨fun _ => h, fun _ _ => Or.inl h⟩

theorem Recorded.got {k : BurstKind} (h : p.Recorded k) (hopen : p.held = false) : p.Got k := by
  rcases h with h | h
  · rw [hopen] at h
    exact absurd h Bool.false_ne_true
  · exact h

section
variable {S : Shipment} {n : UInt16} {k : BurstKind}

/-- the number of a shipment's bursts is announced once and for all -/
theorem announce_eq (h : S.supply.Contents n p) {c : UInt16} (hc : S.Has n (.announce c)) :
    p.announce c = { p with announced := some c } := by
  obtain ⟨q, hq⟩ := S.exists_parcel hc
  have hcount := Shipment.announce_of_has hc hq
  have hsame : p.announced.any (· != c) = false := by
    cases ha : p.announced with
    | none => rfl
    | some d =>
      have hd := Shipment.announce_of_has (h.announced d ha) hq
      rw [Option.any_some, UInt16.toNat_inj.mp (hd.trans hcount.symm)]
      exact bne_self_eq_false c
  have hall : p.pieces.filter (fun i _ => i ≤ c) = p.pieces := by
    apply Keyed.filter_of_forall
    intro i b hb
    have := (Shipment.data_of_has (h.piece i b hb) hq).2.1
    rw [decide_eq_true_iff, UInt16.le_iff_toNat_le]
    omega
  rw [announce, hsame, if_neg Bool.false_ne_true, hall]

theorem got_take (h : S.supply.Contents n p) (hk : S.Has n k) : (p.take k).Got k := by
  cases k with
  | announce c =>
    rw [take, announce_eq h hk]
    exact rfl
  | data i b => exact Keyed.contains_insert _ _ _
  | terminal => exact rfl

theorem grows_take (h : S.supply.Contents n p) (hk : S.Has n k) : Grows p (p.take k) := by
  refine ⟨fun hp => (held_take p k).trans hp, fun l hl => ?_⟩
  rcases hl with hl | hl
  · exact Or.inl ((held_take p k).trans hl)
  refine Or.inr ?_
  cases k with
  | announce c =>
    rw [take, announce_eq h hk]
    cases l with
    | announce d => exact rfl
    | data i b => exact hl
    | terminal => exact hl
  | data i b =>
    cases l with
    | announce d => exact hl
    | data j d => exact Keyed.contains_insert_of_contains b hl
    | terminal => exact hl
  | terminal =>
    cases l with
    | announce d => exact hl
    | data j d => exact hl
    | terminal => exact rfl

/-- the announcement and all the pieces are there -/
theorem hasAll_of_recorded (h : S.supply.Contents n p) (hopen : p.held = false) {q : Parcel}
    (hq : S.parcels[n.toNat]? = some q)
    (hall : ∀ i k, q.framed.kind? i = some k → k ≠ .terminal → p.Recorded k) :
    p.hasAll = true := by
  have hsome : p.announced.isSome = true :=
    (hall 0 _ q.framed.kind?_zero (by simp)).got hopen
  obtain ⟨c, hc⟩ := Option.isSome_iff_exists.mp hsome
  have hcount := Shipment.announce_of_has (h.announced c hc) hq
  apply (hasAll_iff hc).mpr
  intro i h₁ h₂
  have hlt : i.toNat - 1 < q.framed.pieces.length := by
    rw [UInt16.le_iff_toNat_le] at h₂
    rw [Framed.count] at hcount
    omega
  have hgot := (hall _ _ (Framed.kind?_data (List.getElem?_eq_getElem hlt)) (by simp)).got hopen
  rwa [Nat.sub_add_cancel h₁, UInt16.ofNat_toNat] at hgot

/-- what is recorded down to the terminal burst and is not ready is held -/
theorem held_of_recorded (h : S.supply.Contents n p) (hready : p.ready = false) {q : Parcel}
    (hq : S.parcels[n.toNat]? = some q)
    (hall : ∀ i k, q.framed.kind? i = some k → p.Recorded k) : p.held = true := by
  cases hopen : p.held with
  | true => rfl
  | false =>
    have hterminal : p.terminalSeen = true := (hall _ _ q.framed.kind?_terminal).got hopen
    have hhas := hasAll_of_recorded h hopen hq fun i k hk _ => hall i k hk
    rw [ready, hopen, hterminal, hhas] at hready
    exact absurd hready (by decide)

end

end PacketAssembly

/-! ## What is heard -/

namespace Outbound

/-- packet `n` of the profile once these answers are heard -/
def told (key : ProfileKey) (n : UInt16) (x : Outbound) (as : List Answer) : Outbound :=
  (as.map fun a => Outgoing.control (a.line key)).foldl (hear n.toNat) x

variable {key : ProfileKey} {n : UInt16} {x : Outbound} {f : Framed}

theorem told_append (as bs : List Answer) :
    x.told key n (as ++ bs) = (x.told key n as).told key n bs := by
  rw [told, List.map_append, List.foldl_append]
  rfl

theorem told_cons (a : Answer) (as : List Answer) :
    x.told key n (a :: as) = (x.hear n.toNat (.control (a.line key))).told key n as := rfl

theorem tabled_told (h : Tabled f x) (as : List Answer) : Tabled f (x.told key n as) :=
  tabled_foldl_hear h n.toNat _

theorem told_of_ne {as : List Answer} (h : ∀ a ∈ as, (a.line key).key.packet ≠ n) :
    x.told key n as = x := by
  induction as with
  | nil => rfl
  | cons a as ih =>
    have hne : (a.line key).key.packet.toNat ≠ n.toNat := fun he =>
      h a List.mem_cons_self (UInt16.toNat_inj.mp he)
    rw [told_cons, hear, if_neg hne]
    exact ih fun b hb => h b (List.mem_cons_of_mem _ hb)

theorem told_singleton {a : Answer} (h : (a.line key).key.packet = n) :
    x.told key n [a] = x.apply (a.line key) := by
  rw [told_cons, hear, if_pos (by rw [h])]
  rfl

theorem confirmed_apply_received (x : Outbound) (k : PacketKey) :
    (x.apply (.received k)).status = .confirmed := by
  have hwhole : (ControlLine.received k).isWholePacket = true := rfl
  show (if _ then _ else _ : Outbound).status = _
  split
  · rfl
  · next h =>
    rw [hwhole, Bool.true_and, bne_iff_ne, Decidable.not_not] at h
    exact h

theorem apply_resendPacket (x : Outbound) (k : PacketKey) :
    x.apply (.resendPacket k) = { x with status := .unsent, bursts := x.bursts.reset } := rfl

/-- no burst number stands for the whole packet -/
theorem apply_resendBurst (k : PacketKey) {i : UInt16} (hi : i.toNat ≤ mostBursts)
    (hsize : i.toNat < x.bursts.size) :
    x.apply (.resendBurst k i) =
      { x with status := .unsent, bursts := x.bursts.markUnsent i.toNat } := by
  have hwhole : (ControlLine.resendBurst k i).isWholePacket = false := by
    show (i == ControlLine.wholePacket) = false
    rw [beq_eq_false_iff_ne]
    rintro rfl
    exact absurd hi (by decide)
  show (if _ then _ else _) = _
  rw [hwhole, if_neg Bool.false_ne_true]
  exact if_pos hsize

theorem unsent_told_wants (h : Tabled f x) (hcount : f.count ≤ mostBursts) {is : List UInt16}
    (his : ∀ i ∈ is, i.toNat ≤ f.count) {j : Nat}
    (hj : x.bursts.Unsent j ∨ ∃ i ∈ is, i.toNat = j) :
    (x.told key n (is.map (.wantsBurst n))).bursts.Unsent j := by
  induction is generalizing x with
  | nil =>
    rcases hj with hj | ⟨i, hi, -⟩
    · exact hj
    · exact absurd hi (by simp)
  | cons i is ih =>
    have hi := his i List.mem_cons_self
    have hsize : i.toNat < x.bursts.size := by
      rw [h.size_eq]
      omega
    have hhear : x.hear n.toNat (.control ((Answer.wantsBurst n i).line key)) =
        { x with status := .unsent, bursts := x.bursts.markUnsent i.toNat } :=
      (if_pos rfl).trans (apply_resendBurst _ (Nat.le_trans hi hcount) hsize)
    have ht := tabled_hear h n.toNat (.control ((Answer.wantsBurst n i).line key))
    rw [List.map_cons, told_cons]
    refine ih ht (fun i' hi' => his i' (List.mem_cons_of_mem _ hi')) ?_
    rw [hhear]
    rcases hj with hj | ⟨i', hi', rfl⟩
    · exact Or.inl (BurstTable.unsent_markUnsent.mpr (Or.inr hj))
    · rcases List.mem_cons.mp hi' with rfl | hi'
      · exact Or.inl (BurstTable.unsent_markUnsent.mpr (Or.inl ⟨rfl, hsize⟩))
      · exact Or.inr ⟨i', hi', rfl⟩

end Outbound

/-! ## Moves -/

/-- every burst but the terminal one is there or waits -/
def Cover (f : Framed) (x : Outbound) (p : PacketAssembly) : Prop :=
  ∀ i k, f.kind? i = some k → k ≠ .terminal → p.Recorded k ∨ x.bursts.Unsent i

/-- the packet is held, and the sender knows it -/
def Done (x : Outbound) (p : PacketAssembly) : Prop := p.held = true ∧ x.status = .confirmed

/-- an open packet whose terminal burst has come waits only for bursts that are on their way -/
structure Asked (f : Framed) (x : Outbound) (p : PacketAssembly) : Prop where
  isOpen : p.held = false
  cover : Cover f x p
  terminalSeen : p.terminalSeen = true

/-- nothing is lost, and either nothing is said, or the packet is done, or all that is missing is
asked for; the last happens only for the reason `why` -/
structure Move (why : Prop) (f : Framed) (x : Outbound) (p : PacketAssembly) (x' : Outbound)
    (p' : PacketAssembly) : Prop where
  grows : p.Grows p'
  outcome : (x' = x ∧ (p'.held = true → p.held = true)) ∨ Done x' p' ∨
    (why ∧ p'.held = false ∧ Cover f x' p')

section
variable {f : Framed} {x x' x'' : Outbound} {p p' p'' : PacketAssembly} {why why' : Prop}
open PacketAssembly

theorem Cover.grows (h : Cover f x p) (hp : p.Grows p') : Cover f x p' := fun i k hi hk =>
  (h i k hi hk).imp_left (hp.recorded k)

theorem Cover.of_held (h : p.held = true) : Cover f x p := fun _ _ _ _ => Or.inl (Or.inl h)

theorem Cover.unsent (h : Cover f x p) (hx : ∀ i, x.bursts.Unsent i → x'.bursts.Unsent i) :
    Cover f x' p := fun i k hi hk => (h i k hi hk).imp_right (hx i)

theorem Move.refl (why : Prop) (f : Framed) (x : Outbound) (p : PacketAssembly) :
    Move why f x p x p :=
  ⟨Grows.refl p, Or.inl ⟨rfl, id⟩⟩

theorem Move.mono (h : Move why f x p x' p') (hwhy : why → why') : Move why' f x p x' p' :=
  ⟨h.grows, h.outcome.imp_right fun h => h.imp_right fun h => ⟨hwhy h.1, h.2⟩⟩

theorem Move.trans (h : Move why f x p x' p') (h' : Move why f x' p' x'' p'') :
    Move why f x p x'' p'' := by
  refine ⟨h.grows.trans h'.grows, ?_⟩
  rcases h'.outcome with ⟨rfl, hheld'⟩ | hdone' | ⟨hwhy, hopen', hcover'⟩
  · rcases h.outcome with ⟨rfl, hheld⟩ | ⟨hheld, hx⟩ | ⟨hwhy, hopen, hcover⟩
    · exact Or.inl ⟨rfl, fun hp => hheld (hheld' hp)⟩
    · exact Or.inr (Or.inl ⟨h'.grows.held hheld, hx⟩)
    · refine Or.inr (Or.inr ⟨hwhy, Bool.eq_false_iff.mpr fun hp => ?_, hcover.grows h'.grows⟩)
      rw [hheld' hp] at hopen
      exact absurd hopen (by decide)
  · exact Or.inr (Or.inl hdone')
  · exact Or.inr (Or.inr ⟨hwhy, hopen', hcover'⟩)

/-- the packet became held, so that the sender knows it -/
theorem Move.done_of_held (h : Move why f x p x' p') (hopen : p.held = false)
    (hheld : p'.held = true) : Done x' p' := by
  rcases h.outcome with ⟨-, hp⟩ | hdone | ⟨-, hopen', -⟩
  · rw [hp hheld] at hopen
    exact absurd hopen (by decide)
  · exact hdone
  · rw [hheld] at hopen'
    exact absurd hopen' (by decide)

theorem Move.done (h : Move why f x p x' p') (hdone : Done x p) : Done x' p' := by
  rcases h.outcome with ⟨rfl, -⟩ | hdone' | ⟨-, hopen, -⟩
  · exact ⟨h.grows.held hdone.1, hdone.2⟩
  · exact hdone'
  · rw [h.grows.held hdone.1] at hopen
    exact absurd hopen (by decide)

theorem Move.cover (h : Move why f x p x' p') (hcover : Cover f x p) : Cover f x' p' := by
  rcases h.outcome with ⟨rfl, -⟩ | hdone | ⟨-, -, hcover'⟩
  · exact hcover.grows h.grows
  · exact Cover.of_held hdone.1
  · exact hcover'

theorem Move.done_or_asked (h : Move why f x p x' p') (h₀ : Done x p ∨ Asked f x p) :
    Done x' p' ∨ Asked f x' p' := by
  rcases h₀ with hdone | hasked
  · exact Or.inl (h.done hdone)
  cases hp : p'.held with
  | true => exact Or.inl (h.done_of_held hasked.isOpen hp)
  | false =>
    have hseen : p'.Recorded .terminal := h.grows.recorded _ (Or.inr hasked.terminalSeen)
    exact Or.inr ⟨hp, h.cover hasked.cover, hseen.got hp⟩

/-- nothing is asked for without a reason -/
theorem Move.eq_or_done (h : Move why f x p x' p') (hnot : ¬ why) : x' = x ∨ Done x' p' := by
  rcases h.outcome with ⟨hx, -⟩ | hdone | ⟨hwhy, -⟩
  · exact Or.inl hx
  · exact Or.inr hdone
  · exact absurd hwhy hnot

end

/-! ## What the receiver does with a packet -/

theorem Framed.lt_of_kind? {f : Framed} {i : Nat} {k : BurstKind} (h : f.kind? i = some k) :
    i < f.count + 2 := by
  rcases kind?_cases h with ⟨rfl, -⟩ | ⟨j, b, rfl, hb, -⟩ | ⟨rfl, -⟩
  · exact Nat.succ_pos _
  · have hj : j < f.count := (List.getElem?_eq_some_iff.mp hb).1
    omega
  · exact Nat.lt_succ_self _

section
variable {S : Shipment} {n : UInt16} {p : PacketAssembly} {q : Parcel} {x : Outbound}
  {k : BurstKind}
open PacketAssembly Outbound

/-- what is asked for are all the bursts that are not there -/
theorem cover_request (h : S.supply.Contents n p) (hq : S.parcels[n.toNat]? = some q)
    (hx : Tabled q.framed x) : Cover q.framed (x.told S.key n (p.request n)) p := by
  intro i k hk hterminal
  rw [request]
  cases ha : p.announced with
  | none =>
    refine Or.inr ?_
    rw [Option.isSome_none, if_neg Bool.false_ne_true,
      told_singleton (n := n) (a := .wantsAll n) rfl]
    show (x.apply (.resendPacket _)).bursts.Unsent i
    rw [apply_resendPacket]
    refine BurstTable.unsent_reset.mpr ?_
    rw [hx.size_eq]
    exact Framed.lt_of_kind? hk
  | some c =>
    have hcount := Shipment.announce_of_has (h.announced c ha) hq
    have hindices : p.indices = numbersTo c.toNat := by rw [indices, ha, Option.getD_some]
    rw [Option.isSome_some, if_pos rfl]
    rcases Framed.kind?_cases hk with ⟨-, rfl⟩ | ⟨j, b, rfl, hb, rfl⟩ | ⟨-, rfl⟩
    · exact Or.inl (Or.inr (by rw [Got, ha]; rfl))
    · cases hj : p.pieces.contains (UInt16.ofNat (j + 1)) with
      | true => exact Or.inl (Or.inr hj)
      | false =>
        have hlt : j < q.framed.count := (List.getElem?_eq_some_iff.mp hb).1
        have hmost : q.framed.count ≤ 998 := (S.sound _ _ hq).count_le
        have hindex : (UInt16.ofNat (j + 1)).toNat = j + 1 := by
          rw [UInt16.toNat_ofNat']
          omega
        refine Or.inr (unsent_told_wants hx (S.sound _ _ hq).count_le ?_
          (Or.inr ⟨UInt16.ofNat (j + 1), ?_, hindex⟩))
        · intro i hi
          have hi' := (List.mem_filter.mp hi).1
          rw [hindices, mem_numbersTo] at hi'
          omega
        · refine List.mem_filter.mpr ⟨?_, by rw [hj]; rfl⟩
          rw [hindices, mem_numbersTo, hindex]
          omega
    · exact absurd rfl hterminal

theorem receive_cases (p : PacketAssembly) (n : UInt16) (k : BurstKind) :
    (p.held = true ∧ p.receive n k = (p, if k = .terminal then [.stillHeld n] else [])) ∨
    (p.held = false ∧ p.receive n k = ((p.take k).hold, [.rebuilt n])) ∨
    (p.held = false ∧
      p.receive n k = (p.take k, if k = .terminal then (p.take k).request n else [])) := by
  cases hheld : p.held with
  | true => exact Or.inl ⟨rfl, by rw [receive, if_pos hheld]⟩
  | false =>
    rw [receive, hheld, if_neg Bool.false_ne_true]
    split
    · exact Or.inr (Or.inl ⟨rfl, rfl⟩)
    · exact Or.inr (Or.inr ⟨rfl, rfl⟩)

theorem done_of_received {a : Answer} (ha : a = .rebuilt n ∨ a = .stillHeld n)
    (hp : p.held = true) : Done (x.told S.key n [a]) p := by
  refine ⟨hp, ?_⟩
  rcases ha with rfl | rfl
  · rw [told_singleton (n := n) (a := .rebuilt n) rfl]
    exact confirmed_apply_received x _
  · rw [told_singleton (n := n) (a := .stillHeld n) rfl]
    exact confirmed_apply_received x _

theorem grows_receive (h : S.supply.Contents n p) (hk : S.Has n k) : p.Grows (p.receive n k).1 := by
  rcases receive_cases p n k with ⟨-, he⟩ | ⟨-, he⟩ | ⟨-, he⟩ <;> rw [he]
  · exact Grows.refl p
  · exact Grows.of_held rfl
  · exact grows_take h hk

/-- a burst comes; only the terminal one makes the receiver ask for what is missing -/
theorem move_receive (h : S.supply.Contents n p) (hq : S.parcels[n.toNat]? = some q)
    (hx : Tabled q.framed x) (hk : S.Has n k) :
    Move (k = .terminal) q.framed x p (x.told S.key n (p.receive n k).2) (p.receive n k).1 := by
  refine ⟨grows_receive h hk, ?_⟩
  rcases receive_cases p n k with ⟨hheld, he⟩ | ⟨hopen, he⟩ | ⟨hopen, he⟩ <;> rw [he]
  · dsimp only
    split
    · exact Or.inr (Or.inl (done_of_received (Or.inr rfl) hheld))
    · exact Or.inl ⟨rfl, id⟩
  · exact Or.inr (Or.inl (done_of_received (Or.inl rfl) rfl))
  · have hopen' : (p.take k).held = false := (held_take p k).trans hopen
    dsimp only
    split
    · next hterminal =>
      exact Or.inr (Or.inr ⟨hterminal, hopen',
        cover_request (Supply.contents_take h hk (Shipment.not_refused h hk)) hq hx⟩)
    · exact Or.inl ⟨rfl, fun hp => absurd (hp.symm.trans hopen') (by decide)⟩

theorem recorded_receive (h : S.supply.Contents n p) (hk : S.Has n k) :
    (p.receive n k).1.Recorded k := by
  rcases receive_cases p n k with ⟨hheld, he⟩ | ⟨-, he⟩ | ⟨-, he⟩ <;> rw [he]
  · exact Or.inl hheld
  · exact Or.inl rfl
  · exact Or.inr (got_take h hk)

theorem answered_receive (h : S.supply.Contents n p) (hq : S.parcels[n.toNat]? = some q)
    (hx : Tabled q.framed x) (hk : S.Has n .terminal) :
    Done (x.told S.key n (p.receive n .terminal).2) (p.receive n .terminal).1 ∨
      Asked q.framed (x.told S.key n (p.receive n .terminal).2) (p.receive n .terminal).1 := by
  rcases receive_cases p n .terminal with ⟨hheld, he⟩ | ⟨hopen, he⟩ | ⟨hopen, he⟩ <;> rw [he]
  · exact Or.inl (done_of_received (Or.inr rfl) hheld)
  · exact Or.inl (done_of_received (Or.inl rfl) rfl)
  · exact Or.inr ⟨(held_take p _).trans hopen,
      cover_request (Supply.contents_take h hk (Shipment.not_refused h hk)) hq hx, rfl⟩

theorem move_pursue (h : S.supply.Contents n p) (hq : S.parcels[n.toNat]? = some q)
    (hx : Tabled q.framed x) :
    Move True q.framed x p (x.told S.key n (p.pursue n).2) (p.pursue n).1 ∧
      Cover q.framed (x.told S.key n (p.pursue n).2) (p.pursue n).1 ∧
      (p.hasAll = true → (p.pursue n).1.held = true) := by
  rw [pursue]
  split
  · next hheld => exact ⟨Move.refl _ _ x p, Cover.of_held hheld, fun _ => hheld⟩
  next hopen =>
  split
  · exact ⟨⟨Grows.of_held rfl, Or.inr (Or.inl (done_of_received (Or.inl rfl) rfl))⟩,
      Cover.of_held rfl, fun _ => rfl⟩
  · next hall =>
    have hcover := cover_request h hq hx
    exact ⟨⟨Grows.refl p, Or.inr (Or.inr ⟨trivial, Bool.eq_false_iff.mpr hopen, hcover⟩)⟩, hcover,
      fun hp => absurd hp hall⟩

end

end Shoreline
