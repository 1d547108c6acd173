import Monody.Proofs.Playback.Deed

/-!
# Playing from scores

A timer that comes up does its deed for the active session, and listeners can only end the session then. So
at any time the timers of the active session are in order, and all that can be played has been read from
scores.

## Main definitions

* `Firing.IsDue` — a timer is live, and its session is active
* `IsConcert` — the timers of the active session are in order, and what is played comes from scores

## Main results

* `fire_follows` — listeners can only end what a timer goes on with
* `isConcert_performAll` — so it is at any time
-/

namespace Monody.Playback

open Clock

variable {s s' : Playback} {id : Nat} {t : Timer Task} {rest : List (Timer Task)} {melodies : List Melody}
  {f : Firing}

/-! ## Timers of the active session -/

/-- The timer is live, and its session is active. -/
def Firing.IsDue (f : Firing) (id : Nat) : Prop := f.timer.IsLive id ∧ f.state.IsCurrent id

instance (t : Timer Task) (id : Nat) : Decidable (t.IsLive id) :=
  inferInstanceAs (Decidable (_ ∧ _))

instance (f : Firing) (id : Nat) : Decidable (f.IsDue id) := inferInstanceAs (Decidable (_ ∧ _))

theorem Firing.IsDue.owner (h : f.IsDue id) : f.timer.owner = id := h.1.2

theorem fire_of_not_isDue (h : ¬ Firing.IsDue ⟨t, s⟩ t.owner) : (fire emit t s).2 = s := by
  rw [fire]
  cases hcancelled : t.cancelled with
  | true => rfl
  | false =>
    rw [if_neg Bool.false_ne_true, if_neg fun hid => h ⟨⟨hcancelled, rfl⟩, hid⟩]

/-! ## What comes of a timer -/

/-- All that listeners can do to what a timer goes on with is to end it. -/
theorem fire_follows (hparsed : AreParsed melodies) (hs : IsScored melodies s)
    (hset : s.MaySet id t.task) (hlive : t.IsLive id) (hid : s.IsCurrent id) (htask : t.task ≠ .complete) :
    Follows (t.task.deed id s) (fire emit t s).2 :=
  fire_of_deed Follows.refl Follows.trans (fun r _ hs => emit_follows hparsed hs r) hs hset hlive hid htask

/-- When a session has been completed, it is over. -/
theorem fire_renewed (hparsed : AreParsed melodies) (hs : IsScored melodies s) (hlive : t.IsLive id)
    (hid : s.IsCurrent id) (htask : t.task = .complete) :
    Renewed s.sessions.length (fire emit t s).2 := by
  obtain ⟨due, owner, task, cancelled⟩ := t
  obtain ⟨rfl, rfl⟩ : cancelled = false ∧ owner = id := hlive
  obtain rfl : task = .complete := htask
  have hstep := (IsScored.stepwise melodies).emit
  have hemit : ∀ r s, IsScored melodies s → Follows s (emit r s) := fun r s hs => emit_follows hparsed hs r
  rw [fire, if_neg Bool.false_ne_true, if_pos hid]
  exact (finish_renewed hstep hemit hs hid.1 .completed).follows
    (hemit .complete _ ((IsScored.stepwise melodies).finish hstep owner .completed hs))

namespace IsInOrder

variable {p : Part} {event : Nat} (h : IsInOrder id s) (hqueue : s.clock.queue = t :: rest)
  (hlive : t.IsLive id) (now : Binary64)
include h hqueue hlive

/-- A part that strikes a note holds it, if there is one to strike, until its new timer comes up. -/
theorem deed_strike (htask : t.task = .strike p event) :
    IsInOrder id ((Task.strike p event).deed id (s.moved now rest)) := by
  have hp : p ∈ s.partsOf id := by
    refine h.mem_parts t (mem_timers_iff.mpr ⟨hqueue ▸ List.mem_cons_self, hlive.1⟩) hlive.2 p ?_
    rw [htask]
    rfl
  have hheld {s' : Playback} (hs' : ∀ q : Part, q.index ≠ p.index → s'.heldBy id q = s.heldBy id q) :
      ∀ q ∈ s.partsOf id, s.heldBy id q = none →
        s'.heldBy id q = none ∨ t.IsLive id ∧ ∃ event, t.task = .strike q event := by
    intro q hq hnone
    by_cases hindex : q.index = p.index
    · exact .inr ⟨hlive, event, h.distinct q hq p hp hindex ▸ htask⟩
    · exact .inl ((hs' q hindex).trans hnone)
  have hend (q : Part) : t.task ≠ .endPart q := by simp [htask]
  have hplayed := Stays.update (s.moved now rest) (f := (·.played)) (fun _ => rfl) id
  have hsame (q : Part) : ((s.moved now rest).update id (·.played)).heldBy id q = s.heldBy id q :=
    heldBy_update (f := (·.played)) (fun _ => rfl) id
  rw [Task.deed]
  cases (s.moved now rest).stroke? id p event with
  | none =>
    exact h.pop hqueue rfl (hplayed.parts id) (hheld fun q _ => hsame q) fun _ q hq => absurd hq (hend q)
  | some k =>
    obtain ⟨note, seconds⟩ := k
    -- the note sounds before the timer that releases it is set
    let released := ((s.moved now rest).update id (·.played)).release id p
    let struck := ((released.setCursor p.performer (some event)).through
      (·.noteOn p.channel.val note.val p.velocity.val)).update id (·.hold ⟨p.index, event, note⟩)
    have hstays := (hplayed.trans (.release id p _)).trans (.sound id p event note seconds released)
    have hclock : struck.clock = (s.moved now rest).clock := release_clock id p
    have hstruck : IsInOrder id struck := by
      refine h.pop hqueue (congrArg Clock.queue hclock) (hstays.parts id) (hheld fun q hq => ?_)
        fun _ q hq => absurd hq (hend q)
      exact (heldBy_sound_of_ne hq event note seconds).trans
        ((heldBy_release_of_ne hq).trans (hsame q))
    have hmem : p ∈ struck.partsOf id := (hstays.parts id).symm ▸ hp
    exact hstruck.after_release hmem seconds event

omit hlive in
/-- A part that releases its note, or has none to release, holds no more than before. -/
theorem deed_release (htask : t.task = .release p event) :
    IsInOrder id ((Task.release p event).deed id (s.moved now rest)) := by
  have hdone := (stays_deed (.release p event) id (s.moved now rest)).parts id
  refine h.pop hqueue (congrArg Clock.queue (releaseEvent_clock id p event)) hdone
    (fun q _ hnone => .inl ?_) fun _ q hq => by simp [htask] at hq
  rw [Task.deed]
  rcases releaseEvent_eq_or id p event (s.moved now rest) with heq | heq
  · rw [heq]
    exact heldBy_release_of_none (s := s.moved now rest) hnone
  · rw [heq]
    exact hnone

omit hlive in
/-- A part that ends holds no note after that. -/
theorem deed_endPart (htask : t.task = .endPart p) :
    IsInOrder id ((Task.endPart p).deed id (s.moved now rest)) := by
  have hreleased := Stays.release id p (s.moved now rest)
  refine h.pop hqueue ?_ (hreleased.parts id) (fun q _ hnone => .inl ?_) fun _ q hq => ?_
  · exact congrArg Clock.queue (release_clock id p)
  · exact heldBy_release_of_none (s := s.moved now rest) hnone
  · obtain rfl := Task.endPart.inj (htask.symm.trans hq)
    exact heldBy_release_self id p (s.moved now rest)

/-- What a timer does keeps a session in order. -/
theorem deed : IsInOrder id (t.task.deed id (s.moved now rest)) := by
  cases htask : t.task with
  | strike p event => exact h.deed_strike hqueue hlive now htask
  | release p event => exact h.deed_release hqueue now htask
  | endPart p => exact h.deed_endPart hqueue now htask
  | complete =>
    exact h.pop hqueue rfl rfl (fun q _ hnone => .inl hnone) fun _ q hq => by simp [htask] at hq

end IsInOrder

/-! ## Concerts -/

/-- The timers of the active session are in order, and all that can be played has been read from scores. -/
structure IsConcert (melodies : List Melody) (s : Playback) : Prop where
  scored : IsScored melodies s
  order : ∀ id, s.IsCurrent id → IsInOrder id s

theorem order_of_follows (h : ∀ id, s.IsCurrent id → IsInOrder id s) (hf : Follows s s') :
    ∀ id, s'.IsCurrent id → IsInOrder id s' := by
  intro id hid
  rcases hf with hstill | hrenewed
  · exact (h id ((hstill.isCurrent id).mp hid)).congr hstill.queue (hstill.parts id)
      fun p _ hnone => (hstill.held id p).trans hnone
  · exact (hrenewed.fresh id hid).2.order

section Up

variable (hs : IsConcert melodies s) (hqueue : s.clock.queue = t :: rest) (now : Binary64)
include hs hqueue

/-- A timer that comes up was set for a session that may have it. -/
theorem isScored_popped : IsScored melodies (s.moved now rest) ∧ (s.moved now rest).MaySet t.owner t.task :=
  ⟨hs.scored.moved now fun _ hu => hqueue ▸ List.mem_cons_of_mem t hu,
    (hs.scored.timely t (hqueue ▸ List.mem_cons_self)).congr rfl⟩

theorem isConcert_fire (hparsed : AreParsed melodies) : IsConcert melodies (fire emit t (s.moved now rest)).2 := by
  obtain ⟨hscored, hset⟩ := isScored_popped hs hqueue now
  refine ⟨(IsScored.stepwise melodies).fire t hscored, ?_⟩
  by_cases hdue : Firing.IsDue ⟨t, s.moved now rest⟩ t.owner
  · by_cases htask : t.task = .complete
    · exact fun id hid => ((fire_renewed hparsed hscored hdue.1 hdue.2 htask).fresh id hid).2.order
    · refine order_of_follows (fun id hid => ?_) (fire_follows hparsed hscored hset hdue.1 hdue.2 htask)
      have hsame := hid.1
      rw [(stays_deed t.task t.owner (s.moved now rest)).current, hdue.2.1] at hsame
      obtain rfl := Option.some.inj hsame
      exact (hs.order t.owner hdue.2).deed hqueue hdue.1 now
  · rw [fire_of_not_isDue hdue]
    intro id hid
    have hother : ¬ t.IsLive id := fun hlive => hdue (hlive.2 ▸ ⟨hlive, hid⟩)
    exact (hs.order id hid).pop hqueue rfl rfl (fun _ _ hnone => .inl hnone) fun hlive => absurd hlive hother

end Up

theorem IsConcert.start (output : Output) (voices : List Voice) (listeners : List Listener)
    (defaultSpeed : Number) (cancels : Bool) :
    IsConcert (voices.map (·.melody)) (start output voices listeners defaultSpeed cancels) where
  scored := .start output voices listeners defaultSpeed cancels
  order id hid := by cases hid.1

/-- A command that lets no time pass. -/
theorem IsConcert.perform (hparsed : AreParsed melodies) (h : IsConcert melodies s) {c : Command}
    (hwait : ¬ c.IsWait) : IsConcert melodies (perform c s).2 := by
  refine ⟨(IsScored.stepwise melodies).perform hwait h.scored, ?_⟩
  by_cases hpanic : c = .panic
  · subst hpanic
    exact fun id hid => (h.order id hid).congr rfl rfl fun p _ hnone => hnone
  · exact order_of_follows h.order (perform_follows hparsed h.scored hwait hpanic)

theorem IsConcert.moved (h : IsConcert melodies s) (now : Binary64) :
    IsConcert melodies (s.moved now s.clock.queue) :=
  ⟨h.scored.moved now fun _ ht => ht,
    fun id hid => (h.order id hid).congr rfl rfl fun _ _ hnone => hnone⟩

theorem IsConcert.keptByTime (hparsed : AreParsed melodies) : KeptByTime fun _ s => IsConcert melodies s where
  wait h now := h.moved now
  up := by
    rintro fs s t rest hs hqueue next rfl
    exact isConcert_fire hs hqueue _ hparsed

/-- Whatever is done to playback, the timers of the active session are in order, and all that can be played
has been read from scores. -/
theorem isConcert_performAll (hparsed : AreParsed melodies) (cs : List Command) (hs : IsConcert melodies s) :
    IsConcert melodies (performAll cs s) :=
  (IsConcert.keptByTime hparsed).firings (fun _ => True) (fun _ hwait h => h.perform hparsed hwait)
    (fun _ _ => trivial) hs

end Monody.Playback
