import Monody.Proofs.Playback.Concert

/-!
# Voices that share a channel

There are channels for fifteen voices. Where more of them play, some share one, and the output knows a
sounding note only by its channel and its number: who lets go of a note turns it off for all on the
channel who hold the same. Nobody else does. From the moment it is struck, a note sounds until the part
that struck it lets go, or another one does that is on the same channel and holds the same note.

## Main definitions

* `Firing.Strikes`, `Firing.LetsGo` — a timer that strikes a note, or makes a part let go of one
* `Firing.Silences` — another part on the channel lets go of the same note
* `Holds` — a part holds a note that sounds
* `IsHeard` — a note sounds until somebody lets go of it

## Main results

* `deed_holds` — who turns off a note when a timer comes up
* `isCalm_performAll` — nobody silences the output where no listener may
* `isHeard_of_strikes` — every note that is struck is heard until somebody lets go of it
-/

namespace Monody.Playback

open Clock

variable {s s' : Playback} {id event n : Nat} {p q : Part} {note : Midi.Data} {task : Task}
  {t : Timer Task} {rest : List (Timer Task)} {melodies : List Melody} {fs since : List Firing} {f g : Firing}

/-! ## Striking notes and letting go of them -/

/-- The timer makes a part strike a note. -/
def Firing.Strikes (f : Firing) (id : Nat) (p : Part) (event : Nat) (note : Midi.Data) : Prop :=
  f.IsDue id ∧ f.timer.task = .strike p event ∧ (f.state.stroke? id p event).map (·.1) = some note

/-- A timer for the task makes a part let go of the note of an event: it strikes another one, the time to
release this one has come, or the part ends. -/
def Task.LetsGo (s : Playback) (id : Nat) (p : Part) (event : Nat) : Task → Prop
  | .strike q next => q = p ∧ (s.stroke? id q next).isSome
  | .release q released => q = p ∧ released = event
  | .endPart q => q = p
  | .complete => False

/-- The timer makes a part let go of the note of an event. -/
def Firing.LetsGo (f : Firing) (id : Nat) (p : Part) (event : Nat) : Prop :=
  f.IsDue id ∧ f.timer.task.LetsGo f.state id p event

instance (f : Firing) (id : Nat) (p : Part) (event : Nat) (note : Midi.Data) :
    Decidable (f.Strikes id p event note) :=
  inferInstanceAs (Decidable (_ ∧ _ ∧ _))

instance (s : Playback) (id : Nat) (p : Part) (event : Nat) (task : Task) :
    Decidable (task.LetsGo s id p event) :=
  match task with
  | .strike .. | .release .. => inferInstanceAs (Decidable (_ ∧ _))
  | .endPart _ => inferInstanceAs (Decidable (_ = _))
  | .complete => inferInstanceAs (Decidable False)

instance (f : Firing) (id : Nat) (p : Part) (event : Nat) : Decidable (f.LetsGo id p event) :=
  inferInstanceAs (Decidable (_ ∧ _))

/-- The timer makes another part on the same channel let go of the same note. -/
def Firing.Silences (f : Firing) (id : Nat) (p : Part) (note : Midi.Data) : Prop :=
  ∃ q held, q ≠ p ∧ q.channel = p.channel ∧ f.state.heldBy id q = some held ∧ held.note = note ∧
    f.LetsGo id q held.event

/-- The timer completes the session. -/
def Firing.Completes (f : Firing) (id : Nat) : Prop := f.IsDue id ∧ f.timer.task = .complete

/-- Since a part has struck a note, it or another one on its channel has let go of the note; or else nobody
has completed the session, and as long as it is active, the note sounds. -/
def IsHeard (id : Nat) (p : Part) (event : Nat) (note : Midi.Data) (since : List Firing)
    (s : Playback) : Prop :=
  (∃ g ∈ since, g.LetsGo id p event ∨ g.Silences id p note) ∨
    (∀ g ∈ since, ¬ g.Completes id) ∧
      (s.IsCurrent id → ((p.channel.val : Int), (note.val : Int)) ∈ s.output.active)

/-! ## Who turns off a note -/

/-- A part of a session holds a note of an event, and it sounds. -/
structure Holds (id : Nat) (p : Part) (event : Nat) (note : Midi.Data) (s : Playback) : Prop where
  mem : p ∈ s.partsOf id
  held : s.heldBy id p = some ⟨p.index, event, note⟩
  sounds : ((p.channel.val : Int), (note.val : Int)) ∈ s.output.active

theorem Holds.still (h : Holds id p event note s) (hs : Still s s') (hpanics : s'.panics = s.panics) :
    Holds id p event note s' where
  mem := (hs.parts id).symm ▸ h.mem
  held := (hs.held id p).trans h.held
  sounds := hs.active hpanics ▸ h.sounds

/-- What the other parts do to a note that a part holds: they leave it alone, unless they release the same
note on the same channel. -/
theorem Holds.release (h : Holds id p event note s) (hq : p.index ≠ q.index) :
    Holds id p event note (release id q s) ∨
      ∃ held, s.heldBy id q = some held ∧ q.channel = p.channel ∧ held.note = note := by
  rcases mem_active_release h.sounds with hsounds | ⟨held, hheld, hsame⟩
  · exact .inl ⟨((Stays.release id q s).parts id).symm ▸ h.mem, (heldBy_release_of_ne hq).trans h.held, hsounds⟩
  · obtain ⟨hchannel, hnote⟩ := Prod.mk.inj hsame
    exact .inr ⟨held, hheld, Fin.ext (Int.ofNat_inj.mp hchannel.symm), Fin.ext (Int.ofNat_inj.mp hnote.symm)⟩

/-- A timer for the task makes another part on the same channel let go of the same note. -/
def Task.Silences (s : Playback) (id : Nat) (p : Part) (note : Midi.Data) (task : Task) : Prop :=
  ∃ q held, q ≠ p ∧ q.channel = p.channel ∧ s.heldBy id q = some held ∧ held.note = note ∧
    task.LetsGo s id q held.event

/-- Where another part lets go of its note and releases it, that is the same note on the same channel, or
the part goes on holding its own. -/
theorem Holds.release_of_letsGo (h : Holds id p event note s') (hindex : p.index ≠ q.index)
    (hsame : s'.heldBy id q = s.heldBy id q)
    (hletsGo : ∀ held, s.heldBy id q = some held → task.LetsGo s id q held.event) :
    task.Silences s id p note ∨ Holds id p event note (Playback.release id q s') := by
  rcases h.release hindex with hholds | ⟨held, hheld, hchannel, hnote⟩
  · exact .inr hholds
  · rw [hsame] at hheld
    have hqp : q ≠ p := fun heq => hindex (congrArg Part.index heq.symm)
    exact .inl ⟨q, held, hqp, hchannel, hheld, hnote, hletsGo held hheld⟩

/-- A part that strikes a note lets go of the one that it holds, unless there is none to strike. -/
theorem Holds.strike (h : Holds id p event note s) (hdistinct : q.index = p.index → q = p) (next : Nat) :
    (Task.strike q next).LetsGo s id p event ∨ (Task.strike q next).Silences s id p note ∨
      Holds id p event note ((Task.strike q next).deed id s) := by
  have hplayed : Holds id p event note (s.update id (·.played)) :=
    ⟨(partsOf_update (f := (·.played)) (fun _ => rfl) id).symm ▸ h.mem,
      (heldBy_update (f := (·.played)) (fun _ => rfl) id).trans h.held, h.sounds⟩
  rw [Task.deed]
  cases hstroke : s.stroke? id q next with
  | none => exact .inr (.inr hplayed)
  | some k =>
    have hsome : (s.stroke? id q next).isSome := by rw [hstroke]; rfl
    by_cases hqp : q = p
    · exact .inl ⟨hqp, hsome⟩
    · have hindex : p.index ≠ q.index := fun hindex => hqp (hdistinct hindex.symm)
      have hsame : (s.update id (·.played)).heldBy id q = s.heldBy id q :=
        heldBy_update (f := (·.played)) (fun _ => rfl) id
      have hletsGo : ∀ held, s.heldBy id q = some held →
          (Task.strike q next).LetsGo s id q held.event := fun _ _ => ⟨rfl, hsome⟩
      refine .inr ((hplayed.release_of_letsGo hindex hsame hletsGo).imp_right fun hreleased => ?_)
      exact ⟨((Stays.sound id q next k.1 k.2 _).parts id).symm ▸ hreleased.mem,
        (heldBy_sound_of_ne hindex next k.1 k.2).trans hreleased.held,
        mem_active_sound next k.2 (.inl hreleased.sounds)⟩

/-- A part lets go of the note of an event where it still holds that one. -/
theorem Holds.releaseEvent (h : Holds id p event note s) (hdistinct : q.index = p.index → q = p)
    (released : Nat) :
    (Task.release q released).LetsGo s id p event ∨ (Task.release q released).Silences s id p note ∨
      Holds id p event note ((Task.release q released).deed id s) := by
  rw [Task.deed, Playback.releaseEvent]
  split
  · next held hheld =>
    split
    · next hevent =>
      by_cases hqp : q = p
      · subst hqp
        obtain rfl : held = ⟨q.index, event, note⟩ := Option.some.inj (hheld.symm.trans h.held)
        exact .inl ⟨rfl, hevent.symm⟩
      · refine .inr (h.release_of_letsGo (fun hindex => hqp (hdistinct hindex.symm)) rfl
          fun held' hheld' => ⟨rfl, ?_⟩)
        rw [← hevent, Option.some.inj (hheld.symm.trans hheld')]
    · exact .inr (.inr h)
  · exact .inr (.inr h)

/-- A part that ends lets go of whatever it holds. -/
theorem Holds.endPart (h : Holds id p event note s) (hdistinct : q.index = p.index → q = p) :
    (Task.endPart q).LetsGo s id p event ∨ (Task.endPart q).Silences s id p note ∨
      Holds id p event note ((Task.endPart q).deed id s) := by
  by_cases hqp : q = p
  · exact .inl hqp
  · have hindex : p.index ≠ q.index := fun hindex => hqp (hdistinct hindex.symm)
    have hletsGo : ∀ held, s.heldBy id q = some held → (Task.endPart q).LetsGo s id q held.event :=
      fun _ _ => rfl
    exact .inr ((h.release_of_letsGo hindex rfl hletsGo).imp_right fun hreleased =>
      ⟨hreleased.mem, hreleased.held, hreleased.sounds⟩)

/-- When a timer of the session comes up, a part lets go of its note, or another one does on the same
channel, or the part goes on holding it. -/
theorem deed_holds (h : Holds id p event note s) (hdue : Firing.IsDue ⟨t, s⟩ id)
    (hdistinct : ∀ q ∈ t.task.part?, q.index = p.index → q = p) :
    (Firing.LetsGo ⟨t, s⟩ id p event ∨ Firing.Silences ⟨t, s⟩ id p note) ∨
      Holds id p event note (t.task.deed id s) := by
  have hdone : t.task.LetsGo s id p event ∨ t.task.Silences s id p note ∨
      Holds id p event note (t.task.deed id s) := by
    cases htask : t.task with
    | strike q next => exact h.strike (hdistinct q (by rw [htask]; rfl)) next
    | release q released => exact h.releaseEvent (hdistinct q (by rw [htask]; rfl)) released
    | endPart q => exact h.endPart (hdistinct q (by rw [htask]; rfl))
    | complete => exact .inr (.inr h)
  rcases hdone with hletsGo | ⟨q, held, hqp, hchannel, hheld, hnote, hletsGo⟩ | hholds
  · exact .inl (.inl ⟨hdue, hletsGo⟩)
  · exact .inl (.inr ⟨q, held, hqp, hchannel, hheld, hnote, hdue, hletsGo⟩)
  · exact .inr hholds

/-- A part that strikes a note holds it, and it sounds. -/
theorem holds_of_stroke (hid : id < s.sessions.length) (hp : p ∈ s.partsOf id)
    (hstroke : (s.stroke? id p event).map (·.1) = some note) (hvelocity : p.velocity ≠ .zero) :
    Holds id p event note ((Task.strike p event).deed id s) := by
  obtain ⟨⟨struck, seconds⟩, hstruck, rfl⟩ := Option.map_eq_some_iff.mp hstroke
  have hstays := (stays_deed (.strike p event) id s).parts id
  have hreleased := (Stays.update s (f := (·.played)) (fun _ => rfl) id).trans (.release id p _)
  rw [Task.deed, hstruck] at hstays ⊢
  exact ⟨hstays.symm ▸ hp, heldBy_sound_self (hreleased.length.symm ▸ hid) p event struck seconds,
    mem_active_sound event seconds (.inr ⟨hvelocity, rfl⟩)⟩

/-! ## Whole runs -/

/-- What a timer does takes nothing back from the log. -/
theorem panics_le_deed (task : Task) (id : Nat) (s : Playback) : s.panics ≤ (task.deed id s).panics := by
  have hsound (p : Part) (event : Nat) (note : Midi.Data) (seconds : Binary64) (s : Playback) :
      s.panics ≤ (sound id p event note seconds s).panics := panics_append _
  cases task with
  | strike p event =>
    rw [Task.deed]
    cases s.stroke? id p event with
    | none => exact Nat.le_refl _
    | some k =>
      have hreleased := stepwise_panics.release (s := s.update id (·.played)) id p
      exact Nat.le_trans hreleased (hsound p event k.1 k.2 _)
  | release p event => exact stepwise_panics.releaseEvent id p event
  | endPart p => exact stepwise_panics.release id p
  | complete => exact Nat.le_refl _

/-- Since a part has struck a note, when listeners had silenced the output so many times, they have done so
again, or somebody has let go of it; or else nobody has completed the session, and as long as it is active,
the part holds the note. -/
structure Endures (panics id : Nat) (p : Part) (event : Nat) (note : Midi.Data) (since : List Firing)
    (s : Playback) : Prop where
  known : id < s.sessions.length
  panics_le : panics ≤ s.panics
  lasts : s.panics = panics → (∃ g ∈ since, g.LetsGo id p event ∨ g.Silences id p note) ∨
    (∀ g ∈ since, ¬ g.Completes id) ∧ (s.IsCurrent id → Holds id p event note s)

theorem Endures.isHeard (h : Endures n id p event note since s) (hpanics : s.panics = n) :
    IsHeard id p event note since s :=
  (h.lasts hpanics).imp_right fun hlasts => ⟨hlasts.1, fun hid => (hlasts.2 hid).sounds⟩

/-- Where nothing changes or all sessions are over, notes endure. -/
theorem Endures.follows (h : Endures n id p event note since s) (hf : Follows s s')
    (hle : s.panics ≤ s'.panics) : Endures n id p event note since s' := by
  have hbefore (hpanics : s'.panics = n) : s.panics = n :=
    Nat.le_antisymm (hle.trans_eq hpanics) h.panics_le
  rcases hf with hstill | hrenewed
  · refine ⟨h.known.trans_eq hstill.length.symm, h.panics_le.trans hle, fun hpanics => ?_⟩
    have hsame := hpanics.trans (hbefore hpanics).symm
    exact (h.lasts (hbefore hpanics)).imp_right fun hlasts =>
      ⟨hlasts.1, fun hid => (hlasts.2 ((hstill.isCurrent id).mp hid)).still hstill hsame⟩
  · refine ⟨h.known.trans_le hrenewed.length, h.panics_le.trans hle, fun hpanics => ?_⟩
    refine (h.lasts (hbefore hpanics)).imp_right fun hlasts => ⟨hlasts.1, fun hid => ?_⟩
    exact absurd (hrenewed.fresh id hid).1 (Nat.not_le.mpr h.known)

/-- Whether a note endures does not depend on the clock. -/
theorem Endures.moved (h : Endures n id p event note since s) (now : Binary64)
    (queue : List (Timer Task)) : Endures n id p event note since (s.moved now queue) where
  known := h.known
  panics_le := h.panics_le
  lasts hpanics := (h.lasts hpanics).imp_right fun hlasts => ⟨hlasts.1, fun hid =>
    ⟨(hlasts.2 hid).mem, (hlasts.2 hid).held, (hlasts.2 hid).sounds⟩⟩

/-! ### A timer that comes up -/

/-- Telling what a timer has done takes nothing back from the log either. -/
theorem panics_le_fire (hs : IsScored melodies s) (hset : s.MaySet id t.task) (hdue : Firing.IsDue ⟨t, s⟩ id)
    (htask : t.task ≠ .complete) : (t.task.deed id s).panics ≤ (fire emit t s).2.panics :=
  fire_of_deed (R := fun s s' => s.panics ≤ s'.panics) (fun _ => Nat.le_refl _) Nat.le_trans
    (fun r s _ => stepwise_panics.emit r s) hs hset hdue.1 hdue.2 htask

section Up

variable (hparsed : AreParsed melodies) (hs : IsConcert melodies s) (hqueue : s.clock.queue = t :: rest)
  (now : Binary64)
include hparsed hs hqueue

/-- A note that is struck endures. -/
theorem endures_strike (hstrikes : Firing.Strikes ⟨t, s.moved now rest⟩ id p event note)
    (hvelocity : p.velocity ≠ .zero) :
    Endures s.panics id p event note [] (fire emit t (s.moved now rest)).2 := by
  obtain ⟨hscored, hset⟩ := isScored_popped hs hqueue now
  obtain ⟨hdue, htask, hstroke⟩ := hstrikes
  obtain rfl := hdue.owner
  have hmem : t ∈ s.clock.timers := mem_timers_iff.mpr ⟨hqueue ▸ List.mem_cons_self, hdue.1.1⟩
  have hpart : p ∈ s.partsOf t.owner :=
    (hs.order t.owner hdue.2).mem_parts t hmem rfl p (by rw [show t.task = _ from htask]; rfl)
  have hlength : t.owner < (s.moved now rest).sessions.length := by
    obtain ⟨-, session, hsession, -⟩ := hdue.2
    exact (List.getElem?_eq_some_iff.mp hsession).1
  have hne : t.task ≠ .complete := by
    rw [show t.task = _ from htask]
    rintro ⟨⟩
  have hholds := holds_of_stroke hlength (s := s.moved now rest) hpart hstroke hvelocity
  have hstruck : Endures s.panics t.owner p event note [] (t.task.deed t.owner (s.moved now rest)) := by
    refine ⟨(stays_deed _ _ _).length.symm ▸ hlength, panics_le_deed _ _ (s.moved now rest), fun _ => ?_⟩
    refine .inr ⟨fun g hg => absurd hg List.not_mem_nil, fun _ => ?_⟩
    rw [show t.task = _ from htask]
    exact hholds
  exact hstruck.follows (fire_follows hparsed hscored hset hdue.1 hdue.2 hne)
    (panics_le_fire hscored hset hdue hne)

/-- A note that endures goes on to do so when the next timer comes up. -/
theorem endures_fire (h : Endures n id p event note since s) :
    Endures n id p event note (since ++ [⟨t, s.moved now rest⟩]) (fire emit t (s.moved now rest)).2 := by
  obtain ⟨hscored, hset⟩ := isScored_popped hs hqueue now
  have hlater {s' : Playback} (hlength : id < s'.sessions.length)
      (hle : (s.moved now rest).panics ≤ s'.panics)
      (hlasts : (s.IsCurrent id → Holds id p event note (s.moved now rest)) →
        (Firing.LetsGo ⟨t, s.moved now rest⟩ id p event ∨ Firing.Silences ⟨t, s.moved now rest⟩ id p note) ∨
          ¬ Firing.Completes ⟨t, s.moved now rest⟩ id ∧ (s'.IsCurrent id → Holds id p event note s')) :
      Endures n id p event note (since ++ [⟨t, s.moved now rest⟩]) s' := by
    refine ⟨hlength, h.panics_le.trans hle, fun hpanics => ?_⟩
    have hbefore : (s.moved now rest).panics = n := Nat.le_antisymm (hle.trans_eq hpanics) h.panics_le
    rcases (h.moved now rest).lasts hbefore with ⟨g, hg, hends⟩ | ⟨hbefore, hholds⟩
    · exact .inl ⟨g, List.mem_append_left _ hg, hends⟩
    · refine (hlasts hholds).imp (fun hends => ?_) fun hlasts => ⟨?_, hlasts.2⟩
      · exact ⟨_, List.mem_append_right _ (List.mem_singleton_self _), hends⟩
      · exact List.forall_mem_append.mpr ⟨hbefore, List.forall_mem_singleton.mpr hlasts.1⟩
  -- a timer completes a session, does what it is set for, or comes up too late to do anything
  by_cases hdue : Firing.IsDue ⟨t, s.moved now rest⟩ t.owner
  · have horder : IsInOrder t.owner s := hs.order t.owner hdue.2
    by_cases htask : t.task = .complete
    · have hrenewed := fire_renewed hparsed hscored hdue.1 hdue.2 htask
      refine hlater (h.known.trans_le hrenewed.length) (stepwise_panics.fire t) fun hholds =>
        .inr ⟨?_, fun hid => ?_⟩
      · -- the part would have ended before
        rintro ⟨⟨⟨-, rfl⟩, hid⟩, -⟩
        have hheld : s.heldBy t.owner p = some ⟨p.index, event, note⟩ := (hholds hid).held
        rw [horder.heldBy_of_complete hqueue hdue.1 htask (hholds hid).mem] at hheld
        cases hheld
      · exact absurd (hrenewed.fresh id hid).1 (Nat.not_le.mpr h.known)
    · have hfollows := fire_follows hparsed hscored hset hdue.1 hdue.2 htask
      refine Endures.follows (hlater ?_ (panics_le_deed ..) fun hholds => ?_) hfollows
        (panics_le_fire hscored hset hdue htask)
      · exact (stays_deed ..).length.symm ▸ h.known
      · by_cases hid : t.owner = id
        · subst hid
          have hmem : t ∈ s.clock.timers := mem_timers_iff.mpr ⟨hqueue ▸ List.mem_cons_self, hdue.1.1⟩
          refine (deed_holds (hholds hdue.2) hdue fun q hq => ?_).imp_right fun hdone =>
            ⟨fun hcompletes => htask hcompletes.2, fun _ => hdone⟩
          exact horder.distinct q (horder.mem_parts t hmem rfl q hq) p (hholds hdue.2).mem
        -- only timers of the active session are due
        · refine .inr ⟨fun hcompletes => hid hcompletes.1.owner, fun hcurrent => ?_⟩
          have hsome := hcurrent.1
          rw [(stays_deed t.task t.owner (s.moved now rest)).current, hdue.2.1] at hsome
          exact absurd (Option.some.inj hsome) hid
  · rw [fire_of_not_isDue hdue]
    refine hlater h.known (Nat.le_refl _) fun hholds => .inr ⟨fun hcompletes => ?_, hholds⟩
    exact hdue (hcompletes.1.owner ▸ hcompletes.1)

end Up

/-! ### Notes that have been struck -/

/-- All notes that have been struck endure. -/
def AllEndure (fs : List Firing) (s : Playback) : Prop :=
  ∀ before f since, fs = before ++ f :: since → ∀ id p event note, f.Strikes id p event note →
    p.velocity ≠ .zero → Endures f.state.panics id p event note since s

theorem AllEndure.follows (h : AllEndure fs s) (hf : Follows s s') (hle : s.panics ≤ s'.panics) :
    AllEndure fs s' :=
  fun before f since heq id p event note hstrikes hvelocity =>
    (h before f since heq id p event note hstrikes hvelocity).follows hf hle

theorem AllEndure.moved (h : AllEndure fs s) (now : Binary64) (queue : List (Timer Task)) :
    AllEndure fs (s.moved now queue) :=
  fun before f since heq id p event note hstrikes hvelocity =>
    (h before f since heq id p event note hstrikes hvelocity).moved now queue

theorem AllEndure.keptByTime (hparsed : AreParsed melodies) :
    KeptByTime fun fs s => IsConcert melodies s ∧ AllEndure fs s where
  wait h now := ⟨h.1.moved now, h.2.moved now _⟩
  up := by
    rintro fs s t rest ⟨hs, hfs⟩ hqueue next rfl
    refine ⟨isConcert_fire hs hqueue _ hparsed, fun before f since heq id p event note hstrikes hvelocity => ?_⟩
    rcases eq_last_or_of_concat_eq heq with ⟨rfl, rfl, rfl⟩ | ⟨since, rfl, rfl⟩
    · exact endures_strike hparsed hs hqueue _ hstrikes hvelocity
    · exact endures_fire hparsed hs hqueue _ (hfs before f since rfl id p event note hstrikes hvelocity)

/-! ### Where nobody silences the output -/

/-- Where no listener may silence the output, and none who may is added, none ever does. -/
theorem isCalm_performAll (hs : s.IsCalm) {cs : List Command} (hcs : ∀ c ∈ cs, c.IsCalm) :
    ((performAll cs s).IsCalm ∧ (performAll cs s).panics = s.panics) ∧
      ∀ g ∈ firings cs s, g.state.panics = s.panics := by
  have hkept : KeptByTime fun fs s' =>
      (s'.IsCalm ∧ s'.panics = s.panics) ∧ ∀ g ∈ fs, g.state.panics = s.panics := {
    wait := fun h _ => h
    up := by
      rintro fs s' t rest ⟨hcalm, hfs⟩ - next rfl
      refine ⟨(unattended_staysCalm.fire staysCalm_emit t).calm hcalm, ?_⟩
      exact List.forall_mem_append.mpr ⟨hfs, List.forall_mem_singleton.mpr hcalm.2⟩ }
  refine hkept.firings Command.IsCalm (fun {_ s' c} hc hwait h => ⟨?_, h.2⟩) hcs
    ⟨⟨hs, rfl⟩, fun _ hg => absurd hg List.not_mem_nil⟩
  have hperform : StaysCalm s' (perform c s').2 := by
    refine unattended_staysCalm.perform staysCalm_emit hwait ?_
    rintro l rfl
    exact staysCalm_addListener s' hc
  exact hperform.calm h.1

/-- **No voice turns off the notes of another one, unless they share a channel and hold the same note.**
Whatever has been done to playback, whoever listens and whatever they do: from the moment a part of a
session strikes a note that is heard, the note sounds on the channel of the part as long as the session
is active and nobody silences the output, until the part itself releases it, strikes another one or
ends, or until another part on the same channel that holds the same note does. Before that the session
is not complete. Nobody ever silences the output if no listener may. -/
theorem isHeard_of_strikes {voices : List Voice}
    (hparsed : ∀ v ∈ voices, ∃ text, Melody.parse text = .ok v.melody)
    (output : Output) (listeners : List Listener) (defaultSpeed : Number) (cancels : Bool)
    {earlier cs : List Command} (hcs : ∀ c ∈ cs, c ≠ .panic)
    (hs : s = performAll earlier (start output voices listeners defaultSpeed cancels))
    {before after : List Firing} (hfirings : firings cs s = before ++ f :: after)
    (hstrikes : f.Strikes id p event note) (hvelocity : p.velocity ≠ .zero) :
    (∀ since g later, after = since ++ g :: later → g.state.panics = f.state.panics →
      IsHeard id p event note since g.state) ∧
    ((performAll cs s).panics = f.state.panics → IsHeard id p event note after (performAll cs s)) ∧
    ((∀ l ∈ listeners, ¬ l.reaction.MayPanic) → (∀ c ∈ earlier ++ cs, c.IsCalm) →
      (∀ g ∈ after, g.state.panics = f.state.panics) ∧ (performAll cs s).panics = f.state.panics) := by
  have hmelodies : AreParsed (voices.map (·.melody)) := List.forall_mem_map.mpr hparsed
  have hconcert : IsConcert (voices.map (·.melody)) s := hs ▸
    isConcert_performAll hmelodies earlier (.start output voices listeners defaultSpeed cancels)
  -- what endures up to each firing is carried along with the firings themselves
  have hkept : KeptByTime fun fs s =>
      (IsConcert (voices.map (·.melody)) s ∧ AllEndure fs s) ∧
        ∀ before f after, fs = before ++ f :: after → AllEndure before f.state :=
    (AllEndure.keptByTime hmelodies).whenUp (Q := fun fs g => AllEndure fs g.state) fun h _ next hnext =>
      hnext ▸ h.2.moved _ _
  have hnone {before : List Firing} {f : Firing} {after : List Firing} : [] ≠ before ++ f :: after := by simp
  obtain ⟨⟨-, hlast⟩, hup⟩ := hkept.firings (· ≠ .panic)
    (fun hpanic hwait h => ⟨⟨h.1.1.perform hmelodies hwait,
      h.1.2.follows (perform_follows hmelodies h.1.1.scored hwait hpanic) (stepwise_panics.perform hwait)⟩,
        h.2⟩) hcs
    ⟨⟨hconcert, fun _ _ _ heq => absurd heq hnone⟩, fun _ _ _ heq => absurd heq hnone⟩
  rw [hfirings] at hlast hup
  refine ⟨fun since g later hafter hpanics => ?_, fun hpanics => ?_, fun hlisteners hcalm => ?_⟩
  · have hbefore := hup (before ++ f :: since) g later (by rw [hafter, List.append_assoc, List.cons_append])
    exact (hbefore before f since rfl id p event note hstrikes hvelocity).isHeard hpanics
  · exact (hlast before f after rfl id p event note hstrikes hvelocity).isHeard hpanics
  · obtain ⟨hearlier, hcs⟩ := List.forall_mem_append.mp hcalm
    have hstart : (start output voices listeners defaultSpeed cancels).IsCalm := hlisteners
    have hcalm : s.IsCalm := hs ▸ (isCalm_performAll hstart hearlier).1.1
    obtain ⟨⟨-, hend⟩, hall⟩ := isCalm_performAll hcalm hcs
    rw [hfirings] at hall
    obtain ⟨hf, hafter⟩ := List.forall_mem_cons.mp (List.forall_mem_append.mp hall).2
    exact ⟨fun g hg => (hafter g hg).trans hf.symm, hend.trans hf.symm⟩

/-- A note of a second and one of half a second, struck at once on two channels: the first is heard
when the second has been released. -/
theorem isHeard_of_strikes_together :
    ∃ m m', Melody.parse "C".toList = .ok m ∧ Melody.parse "C(500)".toList = .ok m' ∧
      let voices := [.ofMelody m, .ofMelody m']
      let s := start (.ofConnection (some ⟨false⟩) none) voices [] 1 true
      let started := performAll [.play [0, 1] none] s
      let cs : List Command := [.advance (.real Number.half)]
      ∃ f after, firings cs started = f :: after ∧ ∃ p, f.Strikes 0 p 0 60 ∧ p.velocity ≠ .zero ∧
        IsHeard 0 p 0 60 after (performAll cs started) := by
  refine ⟨⟨_, _⟩, ⟨_, _⟩, rfl, rfl, ?_⟩
  intro voices s started cs
  obtain ⟨f, hf, p, -, hstrikes, hvelocity⟩ : ∃ f ∈ (firings cs started).head?,
      ∃ p ∈ f.timer.task.part?, f.Strikes 0 p 0 60 ∧ p.velocity ≠ .zero := by
    decide +kernel +zetaReduce
  obtain ⟨after, hafter⟩ := List.head?_eq_some_iff.mp hf
  have hfirings : firings cs started = [] ++ f :: after := hafter
  have hparsed : ∀ v ∈ voices, ∃ text, Melody.parse text = .ok v.melody :=
    List.forall_mem_cons.mpr ⟨⟨"C".toList, rfl⟩, List.forall_mem_singleton.mpr ⟨"C(500)".toList, rfl⟩⟩
  have hpanic : ∀ c ∈ cs, c ≠ .panic := by simp [cs]
  have hcalm : ∀ c ∈ [.play [0, 1] none] ++ cs, c.IsCalm := by simp [cs, Command.IsCalm]
  obtain ⟨-, hheard, hsilent⟩ :=
    isHeard_of_strikes hparsed _ [] 1 true hpanic rfl hfirings hstrikes hvelocity
  exact ⟨f, after, hafter, p, hstrikes, hvelocity, hheard (hsilent nofun hcalm).2⟩

/-- The first voice and the last of sixteen share a channel and strike the same note, the last one for
half as long. When it is released, the note of the first is turned off: it was to be held for longer, its
session is active, and it has not let go of it. -/
theorem not_isHeard_sharedChannel :
    ∃ m m', Melody.parse "C".toList = .ok m ∧ Melody.parse "C(500)".toList = .ok m' ∧
      let voices := [.ofMelody m, { Voice.ofMelody m with mute := true }, .ofMelody m']
      let s := start (.ofConnection (some ⟨false⟩) none) voices [] 1 true
      let cs : List Command := [.play ([0] ++ List.replicate 14 1 ++ [2]) none, .advance (.real Number.half)]
      ∃ f ∈ (firings cs s).head?, ∃ p ∈ f.timer.task.part?, f.Strikes 0 p 0 60 ∧ p.velocity ≠ .zero ∧
        (∀ g ∈ (firings cs s).tail, ¬ g.LetsGo 0 p 0) ∧ (performAll cs s).IsCurrent 0 ∧
        ((p.channel.val : Int), 60) ∉ (performAll cs s).output.active := by
  refine ⟨⟨_, _⟩, ⟨_, _⟩, rfl, rfl, ?_⟩
  decide +kernel

end Monody.Playback
