import Shoreline.Proofs.Apart
import Shoreline.Proofs.BurstScan

/-!
# Receivers at work

What becomes of a receiver in a run of acts (`run`), over whatever bytes and times, and what it
queues on the way (`queued`).  Whatever is done with it comes down to three things: a burst for which
there is room is applied, everything outstanding of one profile is asked for, or nothing happens to
what was rebuilt (`Course`).  An account of the same also keeps the receiver as it was right after each
thing that it said, and what is known of the bursts that came (`Account`).  Bursts that were read from
bytes count their pieces from 1, so that the assemblies stay stocked, and no packet is left ready
(`Sound`).

* `forall_feed`     what is known of all bursts that can be read is known of the bursts of any bytes;
* `account_run`     a run has an account that says what the run queues;
* `course_run`      and is a course;
* `sound_run`       whatever is done with a new receiver, it is sound.
-/

namespace Shoreline

/-! ## Bursts read from bytes -/

/-- the pieces of a packet are counted from 1 -/
def BurstKind.Numbered : BurstKind → Prop
  | data i _ => i ≠ 0
  | _ => True

instance : DecidablePred BurstKind.Numbered
  | .data i _ => inferInstanceAs (Decidable (i ≠ 0))
  | .announce _ => isTrue trivial
  | .terminal => isTrue trivial

theorem Burst.Fits.numbered {b : Burst} (h : b.Fits) : b.kind.Numbered := by
  obtain ⟨-, -, hk⟩ := h
  cases hkind : b.kind with
  | announce c => exact trivial
  | data i p =>
    rw [hkind] at hk
    rintro rfl
    exact absurd hk.1 (by decide)
  | terminal => exact trivial

namespace BurstReader

section
variable {P : Burst → Prop}
  (hP : ∀ {m n : Nat} {b : Bytes} {x : Burst}, Burst.parse m b = .ok (some (x, n)) → P x)
include hP

theorem forall_drainOnto (acc : List Burst) (r : BurstReader) (hacc : ∀ b ∈ acc, P b) :
    ∀ b ∈ (drainOnto acc r).1, P b := by
  fun_induction drainOnto acc r with
  | case1 acc r r' h => exact fun b hb => hacc b (List.mem_reverse.mp hb)
  | case2 acc r burst r' h hlt ih =>
    refine ih fun b hb => ?_
    obtain ⟨-, _, -, hparse, -⟩ := scan_some h
    rcases List.mem_cons.mp hb with rfl | hb
    · exact hP hparse
    · exact hacc b hb

theorem forall_drain (r : BurstReader) : ∀ b ∈ r.drain.1, P b :=
  forall_drainOnto hP [] r fun _ hb => absurd hb (by simp)

theorem forall_feed (r : BurstReader) (b : Bytes) : ∀ x ∈ (r.feed b).1, P x :=
  forall_drain hP (r.push b)

end

end BurstReader

/-- whatever can be read from bytes for this profile -/
def Supply.numbered (key : ProfileKey) : Supply where
  key
  Has _ k := k.Numbered
  index_ne_zero := id

namespace Receiver
open ProfileAssembly

/-! ## Acts -/

/-- what can be done with a receiver -/
inductive Act where
  | input (b : Bytes) (now : Nat)
  | burst (b : Burst) (h : b.kind.Numbered) (now : Nat)
  | timers (now : Nat)
  | transmit

def act (r : Receiver) : Act → Receiver
  | .input b now => r.handleInput b now
  | .burst b _ now => handleBurst now r b
  | .timers now => r.pollTimers now
  | .transmit => r.emit?.2

def run (r : Receiver) (acts : List Act) : Receiver := acts.foldl act r

/-- what an act puts behind the lines that wait already -/
def queues (r : Receiver) (a : Act) : List Outgoing := (r.act a).outbox.drop r.outbox.length

/-- what a run puts into the outbox, first line first -/
def queued (r : Receiver) : List Act → List Outgoing
  | [] => []
  | a :: acts => r.queues a ++ (r.act a).queued acts

/-! ## Courses -/

/-- the lines that carry what is said about a profile -/
def lines (key : ProfileKey) (as : List Answer) : List Outgoing :=
  as.map fun a => .control (a.line key)

/-- what a receiver becomes and what is said on the way -/
inductive Course (r : Receiver) : List Outgoing → Receiver → Prop where
  | refl : Course r [] r
  | burst {ls : List Outgoing} {r' : Receiver} (h : Course r ls r') (profile : ProfileKey)
      (n : UInt16) {k : BurstKind} (hk : k.Numbered) (hroom : r'.lacksRoom k = false) :
      Course r (ls ++ lines profile ((r'.assembly profile).apply n k).2)
        (r'.update profile ((r'.assembly profile).apply n k))
  | request {ls : List Outgoing} {r' : Receiver} (h : Course r ls r') (profile : ProfileKey) :
      Course r (ls ++ lines profile (r'.assembly profile).requestOutstanding.2)
        (r'.update profile (r'.assembly profile).requestOutstanding)
  /-- the clocks, the reader, the outbox and the count of bursts, with heartbeats at most -/
  | aside {ls : List Outgoing} {r' r'' : Receiver} (h : Course r ls r') (beats : List Outgoing)
      (hconfig : r''.config = r'.config) (hprofiles : r''.profiles = r'.profiles)
      (hrebuilt : r''.rebuilt = r'.rebuilt) (hbeats : ∀ o ∈ beats, o = .heartbeat) :
      Course r (ls ++ beats) r''

/-! ## Accounts -/

/-- something said: a heartbeat, or an answer about a profile, with the receiver right after it -/
inductive Utterance where
  | heartbeat
  | answer (profile : ProfileKey) (a : Answer) (after : Receiver)

def Utterance.line : Utterance → Outgoing
  | heartbeat => .heartbeat
  | answer profile a _ => .control (a.line profile)

/-- what is said when the assembly of a profile changes -/
def utterances (r : Receiver) (profile : ProfileKey) (x : ProfileAssembly × List Answer) :
    List Utterance :=
  x.2.map fun a => .answer profile a (r.update profile x)

/-- what a receiver becomes and what it says on the way, when `P` holds of every burst that comes -/
inductive Account (P : Burst → Prop) (r : Receiver) : List Utterance → Receiver → Prop where
  | refl : Account P r [] r
  | burst {us : List Utterance} {r' : Receiver} (h : Account P r us r') {b : Burst} (hb : P b)
      (hroom : r'.lacksRoom b.kind = false) :
      Account P r
        (us ++ r'.utterances b.key.toProfileKey
          ((r'.assembly b.key.toProfileKey).apply b.key.packet b.kind))
        (r'.update b.key.toProfileKey
          ((r'.assembly b.key.toProfileKey).apply b.key.packet b.kind))
  | request {us : List Utterance} {r' : Receiver} (h : Account P r us r') {profile : ProfileKey}
      (hseen : r'.profiles.contains profile = true) :
      Account P r (us ++ r'.utterances profile (r'.assembly profile).requestOutstanding)
        (r'.update profile (r'.assembly profile).requestOutstanding)
  /-- the clocks, the reader, the outbox and the count of bursts, with heartbeats at most -/
  | aside {us : List Utterance} {r' r'' : Receiver} (h : Account P r us r') (beats : Nat)
      (hconfig : r''.config = r'.config) (hprofiles : r''.profiles = r'.profiles)
      (hrebuilt : r''.rebuilt = r'.rebuilt) :
      Account P r (us ++ List.replicate beats .heartbeat) r''

variable {P : Burst → Prop} {r r' r'' : Receiver} {ls : List Outgoing} {us us' : List Utterance}

theorem Account.trans (h : Account P r us r') (h' : Account P r' us' r'') :
    Account P r (us ++ us') r'' := by
  induction h' with
  | refl =>
    rw [List.append_nil]
    exact h
  | burst _ hb hroom ih =>
    rw [← List.append_assoc]
    exact ih.burst hb hroom
  | request _ hseen ih =>
    rw [← List.append_assoc]
    exact ih.request hseen
  | aside _ beats hconfig hprofiles hrebuilt ih =>
    rw [← List.append_assoc]
    exact ih.aside beats hconfig hprofiles hrebuilt

theorem map_line_utterances (r : Receiver) (profile : ProfileKey)
    (x : ProfileAssembly × List Answer) :
    (r.utterances profile x).map Utterance.line = lines profile x.2 := by
  rw [utterances, List.map_map]
  rfl

/-- an account without the receivers on the way is a course -/
theorem Account.course (h : Account P r us r') (hP : ∀ b, P b → b.kind.Numbered) :
    Course r (us.map Utterance.line) r' := by
  induction h with
  | refl => exact .refl
  | burst _ hb hroom ih =>
    rw [List.map_append, map_line_utterances]
    exact ih.burst _ _ (hP _ hb) hroom
  | request _ _ ih =>
    rw [List.map_append, map_line_utterances]
    exact ih.request _
  | aside _ beats hconfig hprofiles hrebuilt ih =>
    rw [List.map_append]
    refine ih.aside _ hconfig hprofiles hrebuilt fun o ho => ?_
    obtain ⟨u, hu, rfl⟩ := List.mem_map.mp ho
    rw [List.eq_of_mem_replicate hu]
    rfl

/-- an account of what stands at the end of the outbox -/
def Tells (P : Burst → Prop) (r r' : Receiver) : Prop :=
  ∃ us, r'.outbox = r.outbox ++ us.map Utterance.line ∧ Account P r us r'

theorem Tells.refl (P : Burst → Prop) (r : Receiver) : Tells P r r :=
  ⟨[], (List.append_nil _).symm, .refl⟩

theorem Tells.trans (h : Tells P r r') (h' : Tells P r' r'') : Tells P r r'' := by
  obtain ⟨us, hout, hc⟩ := h
  obtain ⟨us', hout', hc'⟩ := h'
  exact ⟨us ++ us', by rw [hout', hout, List.append_assoc, List.map_append], hc.trans hc'⟩

/-- nothing is said, and nothing happens to what was rebuilt -/
theorem Tells.still (hconfig : r'.config = r.config) (hprofiles : r'.profiles = r.profiles)
    (hrebuilt : r'.rebuilt = r.rebuilt) (hout : r'.outbox = r.outbox) : Tells P r r' :=
  ⟨[], by rw [hout, List.map_nil, List.append_nil],
    Account.refl.aside 0 hconfig hprofiles hrebuilt⟩

/-! ## What is done with a receiver -/

theorem tells_handleBurst (now : Nat) (r : Receiver) {b : Burst} (hb : P b) :
    Tells P r (handleBurst now r b) := by
  rw [handleBurst_eq]
  split
  · exact .still rfl rfl rfl rfl
  · next hroom =>
    have hclock : Tells P r { r with burstsReceived := r.burstsReceived + 1, lastBurst := now } :=
      .still rfl rfl rfl rfl
    refine hclock.trans ⟨_, ?_, Account.refl.burst hb (Bool.eq_false_iff.mpr hroom)⟩
    rw [List.nil_append, map_line_utterances]
    rfl

theorem tells_foldl_handleBurst (now : Nat) {bs : List Burst} (hbs : ∀ b ∈ bs, P b)
    (r : Receiver) : Tells P r (bs.foldl (handleBurst now) r) := by
  induction bs generalizing r with
  | nil => exact .refl P r
  | cons b bs ih =>
    exact (tells_handleBurst now r (hbs b List.mem_cons_self)).trans
      (ih (fun b' hb' => hbs b' (List.mem_cons_of_mem _ hb')) _)

theorem tells_pollHeartbeat (r : Receiver) (now : Nat) : Tells P r (r.pollHeartbeat now) := by
  rw [pollHeartbeat]
  split
  · exact ⟨[.heartbeat], rfl, Account.refl.aside 1 rfl rfl rfl⟩
  · exact .refl P r

/-- what is asked for of a profile depends on its assembly, which the profiles before it leave alone -/
theorem tells_foldl_requestProfile {es : List (ProfileKey × ProfileAssembly)}
    (hes : es.Pairwise fun e e' => e.1 ≠ e'.1) (r : Receiver)
    (hr : ∀ e ∈ es, r.profiles.get? e.1 = some e.2) :
    Tells P r (es.foldl (fun r (key, s) => r.requestProfile key s) r) := by
  induction es generalizing r with
  | nil => exact .refl P r
  | cons e es ih =>
    obtain ⟨key, s⟩ := e
    obtain ⟨hne, htail⟩ := List.pairwise_cons.mp hes
    have hfirst : r.profiles.get? key = some s := hr _ List.mem_cons_self
    have hrest : ∀ e ∈ es, r.profiles.get? e.1 = some e.2 :=
      fun e he => hr e (List.mem_cons_of_mem _ he)
    have hseen : r.profiles.contains key = true := by
      rw [Keyed.contains, hfirst]
      rfl
    obtain rfl : r.assembly key = s := assembly_of_get? hfirst
    rw [List.foldl_cons]
    dsimp only
    rw [requestProfile]
    split
    · exact ih htail r hrest
    · have hasked : Tells P r (r.update key (r.assembly key).requestOutstanding) := by
        refine ⟨_, ?_, Account.refl.request hseen⟩
        rw [List.nil_append, map_line_utterances]
        rfl
      refine hasked.trans (ih htail _ fun e he => ?_)
      show (r.profiles.insert key _).get? e.1 = some e.2
      rw [Keyed.get?_insert_ne _ (Ne.symm (hne e he)), hrest e he]

theorem tells_requestOutstanding (r : Receiver) : Tells P r r.requestOutstanding := by
  refine tells_foldl_requestProfile (r.profiles.ascending.imp fun hlt he => ?_) r ?_
  · rw [he] at hlt
    exact Nat.lt_irrefl _ hlt
  · rintro ⟨key, s⟩ he
    exact (r.profiles.mem_entries_iff key s).mp he

section
variable (hP : ∀ {m n : Nat} {b : Bytes} {x : Burst}, Burst.parse m b = .ok (some (x, n)) → P x)
include hP

theorem tells_handleInput (r : Receiver) (b : Bytes) (now : Nat) :
    Tells P r (r.handleInput b now) := by
  rw [handleInput_of_feed now rfl]
  have hread : Tells P r { r with reader := (r.reader.feed b).2 } := .still rfl rfl rfl rfl
  exact hread.trans (tells_foldl_handleBurst now (r.reader.forall_feed hP b) _)

theorem tells_skipStalled (r : Receiver) (now : Nat) : Tells P r (r.skipStalled now) := by
  rw [skipStalled]
  split
  · exact .refl P r
  · next reader _ =>
    have hread : Tells P r { r with reader := reader.drain.2 } := .still rfl rfl rfl rfl
    exact hread.trans (tells_foldl_handleBurst now (reader.forall_drain hP) _)

/-- the timers before they go through what is outstanding -/
theorem tells_before_round (r : Receiver) (now : Nat) :
    Tells P r ((r.pollHeartbeat now).skipStalled now) :=
  (tells_pollHeartbeat r now).trans (tells_skipStalled hP _ now)

theorem tells_pollTimers (r : Receiver) (now : Nat) : Tells P r (r.pollTimers now) := by
  rw [pollTimers]
  dsimp only
  split
  · exact tells_pollHeartbeat r now
  have hskip := tells_before_round hP r now
  split
  · exact hskip
  · exact (hskip.trans (tells_requestOutstanding _)).trans (.still rfl rfl rfl rfl)

/-- `P` holds of the burst that is handed over, if the act hands one over -/
def Act.Meets (P : Burst → Prop) : Act → Prop
  | .burst b _ _ => P b
  | _ => True

/-- an act has an account that says what the act queues -/
theorem account_act (r : Receiver) {a : Act} (ha : a.Meets P) :
    ∃ us, r.queues a = us.map Utterance.line ∧ Account P r us (r.act a) := by
  have htells (h : Tells P r (r.act a)) :
      ∃ us, r.queues a = us.map Utterance.line ∧ Account P r us (r.act a) := by
    obtain ⟨us, hout, hc⟩ := h
    exact ⟨us, by rw [queues, hout, List.drop_left], hc⟩
  cases a with
  | input b now => exact htells (tells_handleInput hP r b now)
  | burst b h now => exact htells (tells_handleBurst now r ha)
  | timers now => exact htells (tells_pollTimers hP r now)
  | transmit =>
    -- a line is taken away, so that none comes behind those that waited
    have hnone : r.queues .transmit = [] := by
      rw [queues, act, emit?]
      split
      · next he => rw [he]; rfl
      · next line lines he =>
        rw [he]
        exact List.drop_eq_nil_of_le (Nat.le_succ _)
    refine ⟨[], hnone, Account.refl.aside 0 ?_ (profiles_emit? r) ?_⟩
    · rw [act, emit?]
      split <;> rfl
    · rw [act, emit?]
      split <;> rfl

/-- and so has a run -/
theorem account_run (r : Receiver) {acts : List Act} (hacts : ∀ a ∈ acts, a.Meets P) :
    ∃ us, r.queued acts = us.map Utterance.line ∧ Account P r us (r.run acts) := by
  induction acts generalizing r with
  | nil => exact ⟨[], rfl, .refl⟩
  | cons a acts ih =>
    obtain ⟨us, hus, hfirst⟩ := account_act hP r (hacts a List.mem_cons_self)
    obtain ⟨us', hus', hrest⟩ :=
      ih (r.act a) fun a' ha' => hacts a' (List.mem_cons_of_mem _ ha')
    exact ⟨us ++ us', by rw [queued, hus, hus', List.map_append], hfirst.trans hrest⟩

end

/-- a run is a course that says what the run queues -/
theorem course_run (r : Receiver) (acts : List Act) :
    Course r (r.queued acts) (r.run acts) := by
  have hacts : ∀ a ∈ acts, a.Meets fun b => b.kind.Numbered := by
    intro a _
    cases a with
    | burst b h now => exact h
    | input b now => exact trivial
    | timers now => exact trivial
    | transmit => exact trivial
  obtain ⟨us, hus, h⟩ := account_run (fun hp => (Burst.of_parse hp).1.numbered) r hacts
  rw [hus]
  exact h.course fun _ => id

theorem Course.config (h : Course r ls r') : r'.config = r.config := by
  induction h with
  | refl => rfl
  | burst _ _ _ _ _ ih => exact ih
  | request _ _ ih => exact ih
  | aside _ _ hconfig _ _ _ ih => exact hconfig.trans ih

/-! ## Sound receivers -/

/-- each assembly is stocked by what can be read from bytes, and leaves no packet ready -/
def Sound (r : Receiver) : Prop :=
  ∀ key, Stocked (.numbered key) (r.assembly key) ∧ Idle (r.assembly key)

theorem sound_new (config : ReceiverConfig) (now : Nat) : (new config now).Sound :=
  fun key => ⟨stocked_new (.numbered key), idle_new key⟩

theorem assembly_of_profiles (h : r'.profiles = r.profiles) (key : ProfileKey) :
    r'.assembly key = r.assembly key := by
  rw [assembly, h, assembly]

theorem Sound.update (h : r.Sound) {key : ProfileKey} {x : ProfileAssembly × List Answer}
    (hx : Stocked (.numbered key) x.1 ∧ Idle x.1) : (r.update key x).Sound := by
  intro key'
  by_cases hkey : key' = key
  · subst hkey
    rwa [assembly_update]
  · rw [assembly_update_ne r hkey]
    exact h key'

theorem Course.sound (hc : Course r ls r') (h : r.Sound) : r'.Sound := by
  induction hc with
  | refl => exact h
  | burst _ profile n hk _ ih =>
    obtain ⟨hstocked, hidle⟩ := ih profile
    exact ih.update (stocked_apply hstocked hidle hk)
  | request _ profile ih =>
    obtain ⟨hstocked, hidle⟩ := ih profile
    exact ih.update (stocked_requestOutstanding hstocked hidle)
  | aside _ _ _ hprofiles _ _ ih =>
    intro key
    rw [assembly_of_profiles hprofiles]
    exact ih key

/-- whatever is done with a new receiver, it is sound -/
theorem sound_run (config : ReceiverConfig) (start : Nat) (acts : List Act) :
    ((new config start).run acts).Sound :=
  (course_run _ acts).sound (sound_new config start)

theorem config_run (config : ReceiverConfig) (start : Nat) (acts : List Act) :
    ((new config start).run acts).config = config := (course_run _ acts).config

end Receiver

end Shoreline
