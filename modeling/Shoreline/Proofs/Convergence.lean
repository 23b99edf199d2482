import Shoreline.Proofs.Agreement
import Shoreline.Proofs.Talk

/-!
# Convergence

Whatever a link has lost before, once it loses nothing the transfer ends in success after a few
rounds.  A round is a talk, after which the sender looks at its timers; rounds are a step apart, and
the step is as long as every timer.

The receiver comes to know of more in four stages: the Info Packet is covered, then held; then every
packet is covered, then held.  A stage is left in a round in which the receiver's timers ask for what
is outstanding.  They do in the third round at the latest, unless the sender asks for an answer
itself; then the transfer ends two rounds later.

* `succeeds_of_called`   the sender has asked for an answer;
* `Stage.succeeds`       one stage;
* `lossless_rounds_succeed`   all of them, after whatever happened before.
-/

namespace Shoreline

namespace Exchange
open Outbound

/-! ## Rounds -/

/-- a talk, after which the sender looks at its timers -/
def round (e : Exchange) (now : Nat) : Option TransferStatus × Exchange :=
  (((e.talk now).sender.pollStatus now).1,
    { e.talk now with
      sender := ((e.talk now).sender.pollStatus now).2
      latest := max (e.talk now).latest now })

/-- the exchange after `n` rounds, the first of them at the time `now` -/
def rounds (step : Nat) : Nat → Nat → Exchange → Exchange
  | 0, _, e => e
  | n + 1, now, e => rounds step n (now + step) (e.round now).2

variable {S : Shipment} {e : Exchange} {step now : Nat}

theorem calm_round (h : Paced S step e) (ht : e.latest + step ≤ now) :
    Calm S step (now + step) (e.round now).2 := by
  have htalk := calm_talk h ht
  have hlatest := htalk.latest
  have hconfig : (e.round now).2.sender.config = (e.talk now).sender.config := by
    show ((e.talk now).sender.pollStatus now).2.config = _
    rcases Sender.pollStatus_cases (e.talk now).sender now with he | ⟨-, -, he⟩
    · rw [he]
    · rw [he]
      rfl
  refine {
    sound := sound_pollSender htalk.sound now
    room := htalk.room, resend := htalk.resend, heartbeat := htalk.heartbeat
    solicitation := hconfig ▸ htalk.solicitation
    quiescence := hconfig ▸ htalk.quiescence
    outbox := htalk.outbox
    latest := ?_ }
  show max (e.talk now).latest now + step ≤ now + step
  omega

/-! ## What holds of a packet -/

/-- what holds of packet `n` on both sides -/
def Shows (S : Shipment) (e : Exchange) (n : UInt16)
    (R : Framed → Outbound → PacketAssembly → Prop) : Prop :=
  ∀ q x, S.parcels[n.toNat]? = some q → e.sender.packets[n.toNat]? = some x →
    R q.framed x ((e.receiver.assembly S.key).packet n)

section
variable {n : UInt16} {R R' : Framed → Outbound → PacketAssembly → Prop}

theorem shows_talk (h : Calm S step now e) (hR : Shows S e n R)
    (himp : ∀ f x p x' p', Talked ((e.taken now).Asks S now) f x p x' p' → R f x p → R' f x' p') :
    Shows S (e.talk now) n R' := by
  intro q x' hq hx'
  obtain ⟨x, hx⟩ := h.sound.ships.packet _ q hq
  obtain ⟨y, hy, htalked⟩ := talked h hq hx
  obtain rfl := Option.some.inj (hy.symm.trans hx')
  exact himp _ _ _ _ _ htalked (hR q x hq hx)

theorem exists_number (h : Sound S e) {x : Outbound} (hx : x ∈ e.sender.packets) :
    ∃ (n : UInt16) (q : Parcel), S.parcels[n.toNat]? = some q ∧
      e.sender.packets[n.toNat]? = some x := by
  obtain ⟨m, hm⟩ := List.getElem?_of_mem hx
  obtain ⟨q, hq, -⟩ := h.ships.tabled m x hm
  refine ⟨UInt16.ofNat m, q, ?_⟩
  rw [(Shipment.toNat_lt hq).2]
  exact ⟨hq, hm⟩

theorem isComplete_of_done (h : Sound S e) (hdone : ∀ n, Shows S e n fun _ x p => Done x p) :
    e.sender.isComplete = true := by
  apply List.all_eq_true.mpr
  intro x hx
  obtain ⟨n, q, hq, hn⟩ := exists_number h hx
  exact beq_iff_eq.mpr (hdone n q x hq hn).2

theorem still_of_shows (h : Sound S e)
    (hstill : ∀ n, Shows S e n fun _ x _ => x.bursts.allSent = true) : e.Still := by
  intro x hx
  obtain ⟨n, q, hq, hn⟩ := exists_number h hx
  exact hstill n q x hq hn

end

/-! ## How a round ends -/

/-- the sender asks for an answer about every packet that is not done -/
def solicited (e : Exchange) (now : Nat) : Exchange :=
  { e with
    sender := { e.sender.solicit with lastControl := now }
    latest := max e.latest now }

/-- the sender waits for an answer about every packet that is not done -/
def Called (S : Shipment) (e : Exchange) : Prop :=
  ∀ n, Shows S e n fun f x p => Done x p ∨ x.bursts.Unsent f.terminalIndex

/-- no burst waits, and the sender has heard nothing for so long that it asks for an answer -/
def Due (e : Exchange) (now : Nat) : Prop :=
  e.Still ∧ e.sender.config.solicitation ≤ now - e.sender.lastControl

/-- the transfer ends in success, with the profile complete -/
def Ends (S : Shipment) (now : Nat) (e : Exchange) : Prop :=
  (e.round now).1 = some .success ∧
    ∃ p, (e.round now).2.receiver.profile? S.key = some p ∧ p.isComplete = true

theorem ends_of_isComplete (h : Sound S e) (hc : (e.talk now).sender.isComplete = true) :
    Ends S now e := by
  have hs : ((e.talk now).sender.pollStatus now).1 = some .success :=
    congrArg Prod.fst (Sender.pollStatus_of_isComplete hc now)
  obtain ⟨p, hp, hpc⟩ := isComplete_of_success (sound_talk h now) hs
  exact ⟨hs, p, hp, hpc⟩

theorem called_solicited (h : Sound S e) (now : Nat) : Called S (e.solicited now) := by
  intro n q y hq hy
  change e.sender.solicit.packets[n.toNat]? = some y at hy
  rw [Sender.packets_solicit, Option.map_eq_some_iff] at hy
  obtain ⟨x, hx, rfl⟩ := hy
  have ht := h.tabled hq hx
  unfold Outbound.solicit
  split
  · next hc =>
    have hheld := h.confirmed _ x hx hc
    rw [UInt16.ofNat_toNat] at hheld
    exact Or.inl ⟨hheld, hc⟩
  · apply Or.inr
    have hlt : q.framed.terminalIndex < x.bursts.size := by
      rw [ht.size_eq]
      exact Nat.lt_succ_self _
    rw [BurstTable.unsent_markUnsent, ht.framed_eq]
    exact Or.inl ⟨rfl, hlt⟩

theorem shows_solicited {n : UInt16} {R : Framed → Outbound → PacketAssembly → Prop}
    (hR : ∀ f x p, R f x p → R f x.solicit p) (h : Shows S e n R) (now : Nat) :
    Shows S (e.solicited now) n R := by
  intro q y hq hy
  change e.sender.solicit.packets[n.toNat]? = some y at hy
  rw [Sender.packets_solicit, Option.map_eq_some_iff] at hy
  obtain ⟨x, hx, rfl⟩ := hy
  exact hR _ _ _ (h q x hq hx)

/-- a round ends the transfer in success; or the sender has waited for an answer and asks for it; or
the talk was all of it -/
theorem round_cases (h : Paced S step e) (ht : e.latest + step ≤ now) :
    Ends S now e ∨ ((e.round now).1 = none ∧
      ((e.round now).2 = (e.talk now).solicited now ∨
        ((e.round now).2 = e.talk now ∧ ¬ (e.talk now).Due now))) := by
  cases hc : (e.talk now).sender.isComplete with
  | true => exact Or.inl (ends_of_isComplete h.sound hc)
  | false =>
    have hquiescence := (paced_talk h now).quiescence
    have hheard : ¬ (e.talk now).sender.config.quiescence ≤
        now - (e.talk now).sender.lastInput := by
      rw [lastInput_talk h ht]
      omega
    apply Or.inr
    rw [round, Sender.pollStatus_of_heard hc hheard]
    split
    · exact ⟨rfl, Or.inl rfl⟩
    · next hidle =>
      have hmax : max (e.talk now).latest now = (e.talk now).latest := by
        show max (max e.latest now) now = max e.latest now
        omega
      refine ⟨rfl, Or.inr ⟨by dsimp only; rw [hmax], ?_⟩⟩
      intro ⟨hstill, hdue⟩
      exact hidle ⟨List.all_eq_true.mpr hstill, hdue⟩

/-! ## Success -/

/-- the transfer ends in success within `k` rounds, and nothing else ends it before -/
def Succeeds (S : Shipment) (step : Nat) : Nat → Nat → Exchange → Prop
  | 0, _, _ => False
  | k + 1, now, e => Ends S now e ∨
      ((e.round now).1 = none ∧ Succeeds S step k (now + step) (e.round now).2)

theorem succeeds_mono {k l : Nat} (h : Succeeds S step k now e) (hle : k ≤ l) :
    Succeeds S step l now e := by
  induction k generalizing l now e with
  | zero => exact absurd h id
  | succ k ih =>
    cases l with
    | zero => exact absurd hle (Nat.not_succ_le_zero k)
    | succ l => exact h.imp_right fun h => ⟨h.1, ih h.2 (Nat.le_of_succ_le_succ hle)⟩

theorem succeeds_of_round {k : Nat} (h : Paced S step e) (ht : e.latest + step ≤ now)
    (hsolicited : Calm S step (now + step) ((e.talk now).solicited now) →
      Called S ((e.talk now).solicited now) →
      Succeeds S step k (now + step) ((e.talk now).solicited now))
    (htalk : Calm S step (now + step) (e.talk now) → ¬ (e.talk now).Due now →
      Succeeds S step k (now + step) (e.talk now)) :
    Succeeds S step (k + 1) now e := by
  have hcalm := calm_round h ht
  rcases round_cases h ht with hends | ⟨hnone, he | ⟨he, hdue⟩⟩
  · exact Or.inl hends
  · rw [he] at hcalm
    refine Or.inr ⟨hnone, ?_⟩
    rw [he]
    exact hsolicited hcalm (called_solicited (sound_talk h.sound now) now)
  · rw [he] at hcalm
    refine Or.inr ⟨hnone, ?_⟩
    rw [he]
    exact htalk hcalm hdue

theorem succeeds_of_done (h : Calm S step now e)
    (hdone : ∀ n, Shows S (e.talk now) n fun _ x p => Done x p) : Succeeds S step 1 now e :=
  Or.inl (ends_of_isComplete h.sound (isComplete_of_done (sound_talk h.sound now) hdone))

theorem succeeds_of_asked (h : Calm S step now e)
    (hasked : ∀ n, Shows S e n fun f x p => Done x p ∨ Asked f x p) :
    Succeeds S step 1 now e := by
  apply succeeds_of_done h
  intro n
  refine shows_talk h (hasked n) ?_
  intro f x p x' p' htalked h₀
  exact h₀.elim htalked.done htalked.done_of_asked

theorem asked_solicit (f : Framed) (x : Outbound) (p : PacketAssembly)
    (h : Done x p ∨ Asked f x p) : Done x.solicit p ∨ Asked f x.solicit p := by
  unfold Outbound.solicit
  split
  · exact h
  · next hne =>
    rcases h with hdone | hasked
    · exact absurd hdone.2 hne
    · refine Or.inr ⟨hasked.isOpen, hasked.cover.unsent ?_, hasked.terminalSeen⟩
      intro i hi
      exact BurstTable.unsent_markUnsent.mpr (Or.inr hi)

/-- once the sender has asked for answers, it has them after two rounds -/
theorem succeeds_of_called (h : Calm S step now e) (hcalled : Called S e) :
    Succeeds S step 2 now e := by
  have hasked (n : UInt16) : Shows S (e.talk now) n fun f x p => Done x p ∨ Asked f x p := by
    refine shows_talk h (hcalled n) ?_
    intro f x p x' p' htalked h₀
    exact h₀.elim (fun hdone => Or.inl (htalked.done hdone)) htalked.answered
  apply succeeds_of_round h.toPaced h.latest
  · intro hcalm _
    exact succeeds_of_asked hcalm fun n => shows_solicited asked_solicit (hasked n) now
  · intro hcalm _
    exact succeeds_of_asked hcalm hasked

/-! ## Rounds in which nothing is asked for -/

/-- a link on which nothing waits and nothing is asked for makes the sender ask for answers -/
theorem due_of_still (h : Calm S step now e) (hstill : e.Still)
    (hasks : ¬ (e.taken now).Asks S now) : (e.talk now).Due now := by
  obtain ⟨hcontrol, hstill'⟩ := talk_of_still h hstill hasks
  have hlast := h.sound.lastControl
  have hlatest := h.latest
  have hstep := h.solicitation
  refine ⟨hstill', ?_⟩
  rw [hcontrol, (config_talk h.sound now).1]
  omega

/-- what waits answers a terminal burst -/
def Tidy (S : Shipment) (e : Exchange) : Prop :=
  ∀ n, Shows S e n fun f x p => x.bursts.allSent = true ∨ Asked f x p

theorem tidy_talk (h : Calm S step now e) (hasks : ¬ (e.taken now).Asks S now) :
    Tidy S (e.talk now) := by
  intro n
  have htrue : Shows S e n fun _ _ _ => True := fun _ _ _ _ => trivial
  refine shows_talk h htrue ?_
  intro f x p x' p' htalked _
  by_cases hterminal : x.bursts.Unsent f.terminalIndex
  · exact (htalked.answered hterminal).imp_left htalked.allSent_of_done
  · exact Or.inl (htalked.silent hterminal hasks)

theorem still_talk (h : Calm S step now e) (hasks : ¬ (e.taken now).Asks S now)
    (htidy : Tidy S e) : (e.talk now).Still := by
  apply still_of_shows (sound_talk h.sound now)
  intro n
  refine shows_talk h (htidy n) ?_
  intro f x p x' p' htalked h₀
  rcases h₀ with hall | hasked
  · exact htalked.silent (BurstTable.allSent_iff.mp hall _) hasks
  · exact htalked.allSent_of_done (htalked.done_of_asked hasked)

/-- every talk keeps the stage `G`; once a side asks the other, the transfer ends within `k` rounds -/
structure Stage (S : Shipment) (step k : Nat) (G : Exchange → Prop) : Prop where
  keep : ∀ {now e}, Calm S step now e → G e → G (e.talk now)
  called : ∀ {now e}, Calm S step now e → G e →
    Calm S step (now + step) ((e.talk now).solicited now) →
    Called S ((e.talk now).solicited now) →
    Succeeds S step k (now + step) ((e.talk now).solicited now)
  asks : ∀ {now e}, Calm S step now e → G e → (e.taken now).Asks S now →
    Calm S step (now + step) (e.talk now) → Succeeds S step k (now + step) (e.talk now)

namespace Stage
variable {G : Exchange → Prop} {k : Nat}

theorem succeeds_of_rest (hG : Stage S step k G) {l : Nat} (hl : k ≤ l) (h : Calm S step now e)
    (hg : G e)
    (hrest : ¬ (e.taken now).Asks S now → Calm S step (now + step) (e.talk now) →
      ¬ (e.talk now).Due now → Succeeds S step l (now + step) (e.talk now)) :
    Succeeds S step (l + 1) now e := by
  apply succeeds_of_round h.toPaced h.latest
  · intro hcalm hcalled
    exact succeeds_mono (hG.called h hg hcalm hcalled) hl
  · intro hcalm hdue
    by_cases hasks : (e.taken now).Asks S now
    · exact succeeds_mono (hG.asks h hg hasks hcalm) hl
    · exact hrest hasks hcalm hdue

theorem succeeds_of_still (hG : Stage S step k G) (h : Calm S step now e) (hg : G e)
    (hstill : e.Still) : Succeeds S step (k + 1) now e := by
  apply hG.succeeds_of_rest (Nat.le_refl k) h hg
  intro hasks _ hdue
  exact absurd (due_of_still h hstill hasks) hdue

theorem succeeds_of_tidy (hG : Stage S step k G) (h : Calm S step now e) (hg : G e)
    (htidy : Tidy S e) : Succeeds S step (k + 2) now e := by
  apply hG.succeeds_of_rest (Nat.le_succ k) h hg
  intro hasks hcalm _
  exact hG.succeeds_of_still hcalm (hG.keep h hg) (still_talk h hasks htidy)

-- a silent round leaves it tidy, a second one still; in the third the sender asks
theorem succeeds (hG : Stage S step k G) (h : Calm S step now e) (hg : G e) :
    Succeeds S step (k + 3) now e := by
  apply hG.succeeds_of_rest (Nat.le_add_right k 2) h hg
  intro hasks hcalm _
  exact hG.succeeds_of_tidy hcalm (hG.keep h hg) (tidy_talk h hasks)

/-- a stage that leads to the next one when the receiver asks for what is outstanding -/
theorem of_next {G' : Exchange → Prop} (hk : 2 ≤ k)
    (hkeep : ∀ {now e}, Calm S step now e → G e → G (e.talk now))
    (hgain : ∀ {now e}, Calm S step now e → G e → (e.taken now).Asks S now → G' (e.talk now))
    (hnext : ∀ {now e}, Calm S step now e → G' e → Succeeds S step k now e) :
    Stage S step k G where
  keep := hkeep
  called _ _ hcalm hcalled := succeeds_mono (succeeds_of_called hcalm hcalled) hk
  asks h hg hasks hcalm := hnext hcalm (hgain h hg hasks)

end Stage

/-! ## The stages -/

def AllHeld (S : Shipment) (e : Exchange) : Prop := ∀ n, Shows S e n fun _ _ p => p.held = true

theorem allHeld_talk (h : Calm S step now e) (hheld : AllHeld S e) : AllHeld S (e.talk now) := by
  intro n
  refine shows_talk h (hheld n) ?_
  intro f x p x' p' htalked
  exact htalked.held

theorem not_asks_of_allHeld (h : Calm S step now e) (hheld : AllHeld S e) :
    ¬ (e.taken now).Asks S now := by
  rintro ⟨-, -, hopen⟩
  obtain ⟨-, htuned, hadv⟩ := sound_heard h.sound now
  have hcomplete : ((e.taken now).assembly S.key).isComplete = true := by
    apply (ProfileAssembly.isComplete_iff htuned.stocked).mpr
    intro n q hq
    obtain ⟨x, hx⟩ := h.sound.ships.packet _ q hq
    exact hadv.held n (hheld n q x hq hx)
  exact Bool.false_ne_true (hopen.symm.trans hcomplete)

/-- a packet that is held is done as soon as its terminal burst has come -/
theorem Talked.done_of_terminal {asks : Prop} {f : Framed} {x x' : Outbound}
    {p p' : PacketAssembly} (h : Talked asks f x p x' p') (hheld : p.held = true)
    (hterminal : x.bursts.Unsent f.terminalIndex) : Done x' p' := by
  rcases h.answered hterminal with hdone | hasked
  · exact hdone
  · exact absurd (hasked.isOpen.symm.trans (h.held hheld)) Bool.false_ne_true

theorem still_of_allHeld (h : Calm S step now e) (hheld : AllHeld S e) :
    (e.talk now).Still := by
  apply still_of_shows (sound_talk h.sound now)
  intro n
  refine shows_talk h (hheld n) ?_
  intro f x p x' p' htalked h₀
  by_cases hterminal : x.bursts.Unsent f.terminalIndex
  · exact htalked.allSent_of_done (htalked.done_of_terminal h₀ hterminal)
  · exact htalked.silent hterminal (not_asks_of_allHeld h hheld)

theorem succeeds_of_allHeld_called (h : Calm S step now e) (hheld : AllHeld S e)
    (hcalled : Called S e) : Succeeds S step 1 now e := by
  apply succeeds_of_done h
  intro n
  have hboth : Shows S e n fun f x p =>
      p.held = true ∧ (Done x p ∨ x.bursts.Unsent f.terminalIndex) :=
    fun q x hq hx => ⟨hheld n q x hq hx, hcalled n q x hq hx⟩
  refine shows_talk h hboth ?_
  intro f x p x' p' htalked h₀
  exact h₀.2.elim htalked.done (htalked.done_of_terminal h₀.1)

theorem stage_allHeld : Stage S step 1 (AllHeld S) where
  keep := allHeld_talk
  called h hheld hcalm hcalled := by
    refine succeeds_of_allHeld_called hcalm ?_ hcalled
    intro n
    exact shows_solicited (fun _ _ _ => id) (allHeld_talk h hheld n) _
  asks h hheld hasks := absurd hasks (not_asks_of_allHeld h hheld)

theorem succeeds_of_allHeld (h : Calm S step now e) (hheld : AllHeld S e) :
    Succeeds S step 3 now e := by
  apply stage_allHeld.succeeds_of_rest (Nat.le_succ 1) h hheld
  intro _ hcalm _
  exact stage_allHeld.succeeds_of_still hcalm (allHeld_talk h hheld) (still_of_allHeld h hheld)

def InfoHeld (S : Shipment) (e : Exchange) : Prop :=
  ((e.receiver.assembly S.key).packet 0).held = true

theorem infoHeld_of_shows (h : Sound S e) (hheld : Shows S e 0 fun _ _ p => p.held = true) :
    InfoHeld S e := by
  obtain ⟨q, hq⟩ := (ProfileAssembly.mem_parcels_iff (S := S) 0).mpr (Nat.zero_le _)
  obtain ⟨x, hx⟩ := h.ships.packet _ q hq
  exact hheld q x hq hx

theorem shows_of_infoHeld (hheld : InfoHeld S e) : Shows S e 0 fun _ _ p => p.held = true :=
  fun _ _ _ _ => hheld

def AllCovered (S : Shipment) (e : Exchange) : Prop := ∀ n, Shows S e n Cover

theorem stage_allCovered : Stage S step 3 (AllCovered S) := by
  refine Stage.of_next (Nat.le_succ 2) ?_ ?_ succeeds_of_allHeld
  · intro now e h hG n
    exact shows_talk h (hG n) fun _ _ _ _ _ htalked => htalked.cover
  · intro now e h hG hasks n
    exact shows_talk h (hG n) fun _ _ _ _ _ htalked => htalked.held_of_asks hasks

theorem stage_infoHeld : Stage S step 6 (InfoHeld S) := by
  refine Stage.of_next (Nat.le_add_left 2 4) ?_ ?_ stage_allCovered.succeeds
  · intro now e h hG
    apply infoHeld_of_shows (sound_talk h.sound now)
    exact shows_talk h (shows_of_infoHeld hG) fun _ _ _ _ _ htalked => htalked.held
  · intro now e h hG hasks n q x hq hx
    exact cover_talk h hq hx hasks (Or.inr hG)

theorem stage_infoCovered : Stage S step 9 fun e => Shows S e 0 Cover := by
  refine Stage.of_next (Nat.le_add_left 2 7) ?_ ?_ stage_infoHeld.succeeds
  · intro now e h hG
    exact shows_talk h hG fun _ _ _ _ _ htalked => htalked.cover
  · intro now e h hG hasks
    apply infoHeld_of_shows (sound_talk h.sound now)
    exact shows_talk h hG fun _ _ _ _ _ htalked => htalked.held_of_asks hasks

theorem stage_first : Stage S step 12 fun _ => True := by
  refine Stage.of_next (Nat.le_add_left 2 10) ?_ ?_ stage_infoCovered.succeeds
  · intro now e h _
    trivial
  · intro now e h _ hasks q x hq hx
    exact cover_talk h hq hx hasks (Or.inl rfl)

/-- the first round clears the lines that still wait -/
theorem succeeds_of_paced (h : Paced S step e) (ht : e.latest + step ≤ now) :
    Succeeds S step 16 now e := by
  apply succeeds_of_round h ht
  · intro hcalm _
    exact stage_first.succeeds hcalm trivial
  · intro hcalm _
    exact stage_first.succeeds hcalm trivial

theorem exists_of_succeeds {k : Nat} (h : Succeeds S step k now e) :
    ∃ j, j < k ∧
      (∀ i, i < j → ((rounds step i now e).round (now + i * step)).1 = none) ∧
      ((rounds step j now e).round (now + j * step)).1 = some .success ∧
      ∃ p, (rounds step (j + 1) now e).receiver.profile? S.key = some p ∧
        p.isComplete = true := by
  induction k generalizing now e with
  | zero => exact absurd h id
  | succ k ih =>
    rcases h with ⟨hs, hp⟩ | ⟨hnone, h⟩
    · refine ⟨0, Nat.succ_pos k, fun i hi => absurd hi (Nat.not_lt_zero i), ?_, hp⟩
      rw [Nat.zero_mul]
      exact hs
    · obtain ⟨j, hj, hbefore, hs, hp⟩ := ih h
      have htime (i : Nat) : now + (i + 1) * step = now + step + i * step := by
        rw [Nat.succ_mul, Nat.add_assoc, Nat.add_comm step]
      refine ⟨j + 1, Nat.succ_lt_succ hj, ?_, ?_, hp⟩
      · intro i hi
        cases i with
        | zero =>
          rw [Nat.zero_mul]
          exact hnone
        | succ i =>
          rw [htime]
          exact hbefore i (Nat.lt_of_succ_lt_succ hi)
      · rw [htime]
        exact hs

theorem lossless_rounds_succeed [Deflate.Encoder] {p : Profile} {i : Instructions}
    {pkg : Package} {sc : SenderConfig} {rc : ReceiverConfig} {t₁ : Nat} {s : Sender}
    (hserial : p.serial.toNat ≤ 9999) (hpkg : p.package i = .ok pkg)
    (hs : Sender.new pkg sc t₁ = .ok s) (hsize : pkg.burstSize ≤ rc.mostPayload)
    (hroom : (s.packets.map fun x => x.framed.packet.length).sum ≤ rc.mostBuffered)
    (hquiescence : 0 < sc.quiescence) (t₂ : Nat) (acts : List Act) {step now : Nat}
    (hresend : rc.resendTimeout ≤ step) (hheartbeat : rc.heartbeatInterval ≤ step)
    (hsolicitation : sc.solicitation ≤ step)
    (hnow : ((start s (.new rc t₂) (max t₁ t₂)).run acts).latest + step ≤ now) :
    let e := (start s (.new rc t₂) (max t₁ t₂)).run acts
    ∃ k, k < 16 ∧
      (∀ j, j < k → ((rounds step j now e).round (now + j * step)).1 = none) ∧
      ((rounds step k now e).round (now + k * step)).1 = some .success ∧
      ∃ r, (rounds step (k + 1) now e).receiver.profile? ⟨p.serial, p.profile⟩ = some r ∧
        r.isComplete = true := by
  obtain ⟨S, hkey, -, -, hlimit, hstart, -⟩ := exists_shipment hserial hpkg hs
  have hsound₀ : Sound S (start s (.new rc t₂) (max t₁ t₂)) := by
    rw [hstart]
    exact sound_start S t₁ t₂ (hlimit ▸ hsize)
  have hconfig : (start s (.new rc t₂) (max t₁ t₂)).sender.config = sc ∧
      (start s (.new rc t₂) (max t₁ t₂)).receiver.config = rc := by
    rw [hstart]
    exact ⟨rfl, rfl⟩
  obtain ⟨hsender, hreceiver⟩ := config_run hsound₀ acts
  rw [hconfig.1] at hsender
  rw [hconfig.2] at hreceiver
  have hsum : (S.parcels.map fun p => p.framed.packet.length) =
      s.packets.map fun x => x.framed.packet.length := by
    rw [hstart]
    show _ = (S.parcels.map fun p => Outbound.new p.framed).map _
    rw [List.map_map]
    rfl
  have hpaced : Paced S step ((start s (.new rc t₂) (max t₁ t₂)).run acts) := {
    sound := sound_run hsound₀ acts
    room := by rw [hsum, hreceiver]; exact hroom
    resend := by rw [hreceiver]; exact hresend
    heartbeat := by rw [hreceiver]; exact hheartbeat
    solicitation := by rw [hsender]; exact hsolicitation
    quiescence := by rw [hsender]; exact hquiescence }
  rw [← hkey]
  exact exists_of_succeeds (succeeds_of_paced hpaced hnow)

/-- one piece comes late and what the receiver asks for is lost -/
def brokenActs : List Act :=
  List.replicate 5 .transmit ++
    [.deliver 3 10, .pollReceiver 20000, .respond, .respond, .deliver 0 20001, .transmit]

set_option maxRecDepth 2000 in
/-- a transfer that was broken off ends in success -/
theorem broken_transfer_succeeds :
    ∃ pkg s, smallCast.package smallPlan = .ok pkg ∧ Sender.new pkg .standard 0 = .ok s ∧
      (let e := (start s (.new .standard 0) (max 0 0)).run brokenActs
       ∃ k, k < 16 ∧
        (∀ j, j < k → ((rounds 30000 j 60000 e).round (60000 + j * 30000)).1 = none) ∧
        ((rounds 30000 k 60000 e).round (60000 + k * 30000)).1 = some .success ∧
        ∃ r, (rounds 30000 (k + 1) 60000 e).receiver.profile? ⟨770, 12345⟩ = some r ∧
          r.isComplete = true) := by
  have heval : passes smallCast smallPlan (fun _ s =>
      decide ((s.packets.map fun x => x.framed.packet.length).sum ≤ 16777216) &&
        decide (((start s (.new .standard 0) (max 0 0)).run brokenActs).latest + 30000 ≤
          60000)) = true := by decide +kernel
  obtain ⟨pkg, s, hpkg, hs, heval⟩ := exists_of_passes heval
  obtain ⟨hroom, hnow⟩ := Bool.and_eq_true_iff.mp heval
  have hsize : pkg.burstSize ≤ ReceiverConfig.standard.mostPayload := by
    rw [(Profile.package_eq_ok hpkg).2.2.1]
    decide
  exact ⟨pkg, s, hpkg, hs, lossless_rounds_succeed (by decide) hpkg hs hsize
    (decide_eq_true_iff.mp hroom) (by decide) 0 brokenActs (by decide) (by decide) (by decide)
    (decide_eq_true_iff.mp hnow)⟩

end Exchange

end Shoreline
