import Monody.Proofs.Playback.Agenda
import Monody.Proofs.Playback.Course
import Monody.Proofs.Playback.Workload

/-!
# Sessions that are not disturbed

While nobody disturbs a session, what its parts have rendered and what its pending timers are to bring
about make up one account, and no step changes it. When the last timer has fired, the account is in
the log.

## Main definitions

* `account`, `programme` — the messages of a part and the reports, those in the log with those to come
* `Keeps` — a step that changes neither
* `Scheduled` — the pending timers of a session
* `Underway` — an active session with its timers
* `StepsTo` — what a timer that comes up leads to
* `Reaches` — commands that let time pass until a timer is due

## Main results

* `Underway.step` — a timer that comes up keeps the account
* `Underway.advanceTo` — letting time pass keeps it, and reaches every timer that is due
* `Underway.performAll` — commands that leave the session alone keep it, and complete the session
-/

namespace Monody.Playback

open Clock

variable {s s' : Playback} {id : Nat} {part : Part} {parts : List Part}
  {stroke : Part → Nat → Option (Midi.Data × Binary64)} {due target : Binary64}
  {t : Timer Task} {rest : List (Timer Task)}

/-! ## Accounts -/

/-- The messages of a part: those it has rendered and those its timers are to bring about. -/
def account (stroke : Part → Nat → Option (Midi.Data × Binary64)) (id : Nat) (part : Part)
    (s : Playback) : List Midi.Message :=
  s.rendered id part ++ foretold (·.messages stroke part) s.clock.queue

/-- The reports: those that have been told and those that the timers are to bring about. -/
def programme (stroke : Part → Nat → Option (Midi.Data × Binary64)) (s : Playback) : List Report :=
  s.announced ++ foretold (·.reports stroke) s.clock.queue

/-- A step that takes nothing out of the log and changes neither the account of a part nor the
programme. -/
structure Keeps (id : Nat) (parts : List Part)
    (stroke : Part → Nat → Option (Midi.Data × Binary64)) (s s' : Playback) : Prop where
  log : s.log <+: s'.log
  account : ∀ part ∈ parts, s'.account stroke id part = s.account stroke id part
  programme : s'.programme stroke = s.programme stroke

namespace Keeps

theorem refl (s : Playback) : Keeps id parts stroke s s := ⟨List.prefix_refl _, fun _ _ => rfl, rfl⟩

theorem trans {s₁ s₂ s₃ : Playback} (h : Keeps id parts stroke s₁ s₂)
    (h' : Keeps id parts stroke s₂ s₃) : Keeps id parts stroke s₁ s₃ where
  log := h.log.trans h'.log
  account part hpart := (h'.account part hpart).trans (h.account part hpart)
  programme := h'.programme.trans h.programme

/-- A step that adds what was foretold of it. -/
theorem of_adds {messages : Part → List Midi.Message} {reports : List Report}
    (h : Adds id parts messages reports s s')
    (hmessages : ∀ part ∈ parts, foretold (·.messages stroke part) s.clock.queue =
      messages part ++ foretold (·.messages stroke part) s'.clock.queue)
    (hreports : foretold (·.reports stroke) s.clock.queue =
      reports ++ foretold (·.reports stroke) s'.clock.queue) : Keeps id parts stroke s s' where
  log := h.log
  account part hpart := by
    rw [Playback.account, Playback.account, h.rendered part hpart, hmessages part hpart,
      List.append_assoc]
  programme := by
    rw [Playback.programme, Playback.programme, h.announced, hreports, List.append_assoc]

end Keeps

/-! ## Pending timers -/

/-- The timers of a session: in turn, with the one that completes the session after all others that
bring about a report. -/
structure Scheduled (id : Nat) (parts : List Part)
    (stroke : Part → Nat → Option (Midi.Data × Binary64)) (due : Binary64) (c : Clock Task) : Prop where
  cancels : c.cancels = true
  inTurn : InTurn c.queue
  numbers : ∀ t ∈ c.queue, t.due ≠ .nan
  owner : ∀ t ∈ c.timers, t.owner = id
  mem_parts : ∀ t ∈ c.timers, ∀ p ∈ t.task.part?, p ∈ parts
  strikes : ∀ t ∈ c.timers, ∀ p event, t.task = .strike p event →
    t.due.isFinite ∧ (stroke p event).isSome
  ending : ∃ before, foretold (·.reports stroke) c.queue = before ++ [.complete] ∧
    Report.complete ∉ before
  completion : ∃ t ∈ c.timers, t.task = .complete ∧ t.due = due

theorem mem_timers_iff {c : Clock Task} : t ∈ c.timers ↔ t ∈ c.queue ∧ t.cancelled = false := by
  rw [timers, List.mem_filter, Bool.not_eq_true']

theorem foretold_eq_nil_of_timers {β : Type} {f : Task → List β} {c : Clock Task}
    (h : c.timers = []) : foretold f c.queue = [] :=
  foretold_eq_nil_iff.mpr fun _ hu hlive =>
    absurd (h ▸ mem_timers_iff.mpr ⟨hu, hlive⟩) List.not_mem_nil

/-- What comes last, and not before, comes last in the second of two parts if it is not in the first. -/
theorem exists_concat_of_append_eq {α : Type} {first second before : List α} {a : α}
    (h : first ++ second = before ++ [a]) (hbefore : a ∉ before) (hfirst : a ∉ first) :
    ∃ later, second = later ++ [a] ∧ a ∉ later := by
  rcases List.append_eq_append_iff.mp h with ⟨later, rfl, hsecond⟩ | ⟨later, rfl, hend⟩
  · exact ⟨later, hsecond, fun hlater => hbefore (List.mem_append_right _ hlater)⟩
  · rcases List.append_eq_singleton_iff.mp hend.symm with ⟨-, hsecond⟩ | ⟨rfl, -⟩
    · exact ⟨[], hsecond, List.not_mem_nil⟩
    · exact absurd (List.mem_append_right _ (List.mem_singleton_self a)) hfirst

namespace Scheduled

variable {c : Clock Task}

/-- A timer that does not complete the session comes up. -/
theorem pop (hc : Scheduled id parts stroke due c) (hqueue : c.queue = t :: rest) (now : Binary64)
    (hother : t.cancelled = true ∨ t.task ≠ .complete) :
    Scheduled id parts stroke due { c with now, queue := rest } := by
  have hmem : ∀ u ∈ rest, u ∈ c.queue := fun u hu => hqueue ▸ List.mem_cons_of_mem t hu
  have htimers : ∀ u ∈ timers { c with now, queue := rest }, u ∈ c.timers := by
    intro u hu
    obtain ⟨hu, hlive⟩ := mem_timers_iff.mp hu
    exact mem_timers_iff.mpr ⟨hmem u hu, hlive⟩
  refine ⟨hc.cancels, ?_, fun u hu => hc.numbers u (hmem u hu), fun u hu => hc.owner u (htimers u hu),
    fun u hu => hc.mem_parts u (htimers u hu), fun u hu => hc.strikes u (htimers u hu), ?_, ?_⟩
  · have hturn := hc.inTurn
    rw [hqueue] at hturn
    exact (List.pairwise_cons.mp hturn).2
  · obtain ⟨before, hbefore, hnot⟩ := hc.ending
    rw [hqueue] at hbefore
    cases hcancelled : t.cancelled with
    | true =>
      rw [foretold_cons_of_cancelled hcancelled] at hbefore
      exact ⟨before, hbefore, hnot⟩
    | false =>
      rw [foretold_cons_of_pending hcancelled] at hbefore
      -- what this timer reports comes before the end
      have hfirst : Report.complete ∉ t.task.reports stroke := by
        cases htask : t.task with
        | strike p event => simp [Task.reports]
        | release p event => simp [Task.reports]
        | endPart p => simp [Task.reports]
        | complete =>
          rcases hother with hother | hother
          · rw [hcancelled] at hother
            cases hother
          · exact absurd htask hother
      exact exists_concat_of_append_eq hbefore hnot hfirst
  · obtain ⟨u, hu, htask, hdue⟩ := hc.completion
    obtain ⟨hu, hlive⟩ := mem_timers_iff.mp hu
    rw [hqueue] at hu
    rcases List.mem_cons.mp hu with rfl | hu
    · rcases hother with hother | hother
      · rw [hlive] at hother
        cases hother
      · exact absurd htask hother
    · exact ⟨u, mem_timers_iff.mpr ⟨hu, hlive⟩, htask, hdue⟩

/-- A new timer that releases a note. -/
theorem release (hc : Scheduled id parts stroke due c) (hnow : c.now.isFinite) (hpart : part ∈ parts)
    (event : Nat) (seconds : Binary64) :
    Scheduled id parts stroke due (c.after seconds id (.release part event)) where
  cancels := hc.cancels
  inTurn := inTurn_insert _ hc.inTurn
  numbers t ht := by
    rcases mem_insert.mp ht with rfl | ht
    · exact Binary64.add_ne_nan hnow (Binary64.isTime_zero_max seconds).ne_nan
    · exact hc.numbers t ht
  owner t ht := by
    rcases mem_timers_after.mp ht with rfl | ht
    · rfl
    · exact hc.owner t ht
  mem_parts t ht p hp := by
    rcases mem_timers_after.mp ht with rfl | ht
    · exact Option.mem_some.mp hp ▸ hpart
    · exact hc.mem_parts t ht p hp
  strikes t ht p event htask := by
    rcases mem_timers_after.mp ht with rfl | ht
    · cases htask
    · exact hc.strikes t ht p event htask
  ending := by
    obtain ⟨before, hbefore, hnot⟩ := hc.ending
    exact ⟨before, (foretold_insert_of_eq_nil rfl).trans hbefore, hnot⟩
  completion := by
    obtain ⟨t, ht, htask, hdue⟩ := hc.completion
    exact ⟨t, mem_timers_after.mpr (.inr ht), htask, hdue⟩

/-- Once the timer that completes the session comes up, no other brings about anything. -/
theorem eq_nil_of_complete (hc : Scheduled id parts stroke due c) (hqueue : c.queue = t :: rest)
    (hlive : t.cancelled = false) (htask : t.task = .complete) :
    foretold (·.reports stroke) rest = [] ∧ ∀ part, foretold (·.messages stroke part) rest = [] := by
  obtain ⟨before, hbefore, hnot⟩ := hc.ending
  rw [hqueue, foretold_cons_of_pending hlive, htask] at hbefore
  have hreports : foretold (·.reports stroke) rest = [] := by
    cases before with
    | nil => exact (List.cons.inj hbefore).2
    | cons r before =>
      obtain rfl := (List.cons.inj hbefore).1
      exact absurd List.mem_cons_self hnot
  refine ⟨hreports, fun part => foretold_eq_nil_iff.mpr fun u hu hpending => ?_⟩
  have hnone := foretold_eq_nil_iff.mp hreports u hu hpending
  cases htask' : u.task with
  | strike p event =>
    -- a note that is to be struck would be reported
    have hu' : u ∈ c.timers := mem_timers_iff.mpr ⟨hqueue ▸ List.mem_cons_of_mem t hu, hpending⟩
    obtain ⟨k, hk⟩ := Option.isSome_iff_exists.mp (hc.strikes u hu' p event htask').2
    rw [htask', Task.reports, hk] at hnone
    cases hnone
  | release p event => rfl
  | endPart p => rfl
  | complete => rfl

end Scheduled

/-! ## Time -/

/-- An active session with its timers. -/
structure Underway (id : Nat) (parts : List Part)
    (stroke : Part → Nat → Option (Midi.Data × Binary64)) (due : Binary64) (s : Playback) : Prop
    extends Playing id parts stroke s where
  scheduled : Scheduled id parts stroke due s.clock

/-- The clock moves on to some of the timers. -/
theorem Sounding.moved (hs : Sounding id parts s) (now : Binary64) (queue : List (Timer Task)) :
    Proceeds id parts (fun _ => []) [] s (s.moved now queue) :=
  hs.of_eq ⟨rfl, rfl, rfl, rfl⟩ rfl rfl rfl rfl

/-- A timer has come up: the account is kept, the session goes on or is over, and fewer timers are
still to come up. -/
structure StepsTo (id : Nat) (parts : List Part)
    (stroke : Part → Nat → Option (Midi.Data × Binary64)) (due : Binary64) (s s' : Playback) : Prop where
  keeps : Keeps id parts stroke s s'
  next : Underway id parts stroke due s' ∨ IsOver id parts s'
  load_lt : load s'.clock.queue < load s.clock.queue

namespace Underway

variable (hs : Underway id parts stroke due s)
include hs

theorem playing_moved (now : Binary64) (rest : List (Timer Task)) :
    Playing id parts stroke (s.moved now rest) :=
  have hmoved := hs.toSounding.moved now rest
  hs.of_frames hmoved.frames hmoved.sounding

variable (hqueue : s.clock.queue = t :: rest)
include hqueue

/-- A cancelled timer is passed over. -/
theorem step_of_cancelled (hcancelled : t.cancelled = true) (now : Binary64) :
    StepsTo id parts stroke due s (s.moved now rest) where
  keeps := by
    refine .of_adds (hs.toSounding.moved now rest).toAdds (fun part _ => ?_) ?_
    · rw [hqueue]
      exact foretold_cons_of_cancelled hcancelled
    · rw [hqueue]
      exact foretold_cons_of_cancelled hcancelled
  next := .inl ⟨hs.playing_moved now rest, hs.scheduled.pop hqueue now (.inl hcancelled)⟩
  load_lt := by
    rw [hqueue, load_cons]
    exact Nat.lt_add_of_pos_left (one_le_weight t.task)

variable (hparts : IsEnsemble parts)
include hparts

/-- The timer that completes the session. -/
theorem step_of_complete (hlive : t.cancelled = false) (htask : t.task = .complete) (now : Binary64) :
    ∃ s', fire Playback.emit t (s.moved now rest) = (.ok (), s') ∧
      StepsTo id parts stroke due s s' := by
  have hmoved := hs.toSounding.moved now rest
  have hplaying := hs.playing_moved now rest
  have howner := hs.scheduled.owner t (mem_timers_iff.mpr ⟨hqueue ▸ List.mem_cons_self, hlive⟩)
  obtain ⟨hreports, hmessages⟩ := hs.scheduled.eq_nil_of_complete hqueue hlive htask
  have hrest : ∀ u ∈ (s.moved now rest).clock.timers, u.owner = id := fun u hu => by
    obtain ⟨hu, hpending⟩ := mem_timers_iff.mp hu
    exact hs.scheduled.owner u (mem_timers_iff.mpr ⟨hqueue ▸ List.mem_cons_of_mem t hu, hpending⟩)
  obtain ⟨hover, hadds, hclock⟩ := hplaying.complete hparts hs.scheduled.cancels hrest
  have hfire : fire Playback.emit t (s.moved now rest) = (.ok (),
      Playback.emit .complete (finish Playback.emit id .completed (s.moved now rest))) := by
    rw [fire, hlive, howner, if_neg Bool.false_ne_true, if_pos hplaying.isCurrent, htask]
  -- neither the other timers nor any that are left bring about anything
  refine ⟨_, hfire, .of_adds (hmoved.toAdds.trans hadds) (fun part _ => ?_) ?_, .inr hover, ?_⟩
  · rw [hqueue, foretold_cons_of_pending hlive, htask, hmessages,
      foretold_eq_nil_of_timers hover.timers]
    rfl
  · rw [hqueue, foretold_cons_of_pending hlive, htask, hreports,
      foretold_eq_nil_of_timers hover.timers]
    rfl
  · rw [hclock, load_cancel, hqueue, load_cons]
    exact Nat.lt_add_of_pos_left (one_le_weight t.task)

/-- Any other timer fires, and at most sets one that releases a note. -/
theorem step_of_task (hlive : t.cancelled = false) (htask : t.task ≠ .complete) :
    ∃ s', fire Playback.emit t (s.moved t.due rest) = (.ok (), s') ∧
      StepsTo id parts stroke due s s' := by
  have hplaying := hs.playing_moved t.due rest
  have hpending := mem_timers_iff.mpr ⟨hqueue ▸ List.mem_cons_self, hlive⟩
  obtain ⟨s', hfire, hproceeds, hclock⟩ := hplaying.fire hparts hlive
    (hs.scheduled.owner t hpending) (hs.scheduled.mem_parts t hpending)
    (fun p event h => (hs.scheduled.strikes t hpending p event h).2) htask
  have hall := (hs.toSounding.moved t.due rest).trans hproceeds
  have hpopped := hs.scheduled.pop hqueue t.due (.inr htask)
  -- what was foretold of the other timers stays the same when a release is added to them
  have hforetold {β : Type} (f : Task → List β) (hf : ∀ p event, f (.release p event) = []) :
      foretold f s'.clock.queue = foretold f rest := by
    rcases hclock with hclock | ⟨p, -, event, seconds, -, hclock⟩
    · rw [hclock]
      rfl
    · rw [hclock]
      exact foretold_insert_of_eq_nil (hf p event)
  refine ⟨s', hfire, .of_adds hall.toAdds (fun part hpart => ?_) ?_,
    .inl ⟨hplaying.of_frames hproceeds.frames hproceeds.sounding, ?_⟩, ?_⟩
  · rw [hqueue, foretold_cons_of_pending hlive, hforetold _ fun _ _ => rfl]
    rfl
  · rw [hqueue, foretold_cons_of_pending hlive, hforetold _ fun _ _ => rfl]
    rfl
  · rcases hclock with hclock | ⟨p, hp, event, seconds, hstrike, hclock⟩
    · rw [hclock]
      exact hpopped
    · rw [hclock]
      exact hpopped.release (hs.scheduled.strikes t hpending p event hstrike).1 hp event seconds
  · rw [hqueue, load_cons]
    rcases hclock with hclock | ⟨p, -, event, seconds, hstrike, hclock⟩
    · rw [hclock]
      exact Nat.lt_add_of_pos_left (one_le_weight t.task)
    · have hload := load_insert ⟨t.due + Binary64.max 0 seconds, id, .release p event, false⟩ rest
      rw [hclock, hstrike]
      exact hload ▸ Nat.add_lt_add_right (by decide : 1 < 2) _

/-- A timer that comes up keeps the account. It completes the session, or the session goes on. -/
theorem step :
    ∃ s', fire Playback.emit t (s.moved (if t.cancelled then s.clock.now else t.due) rest) =
      (.ok (), s') ∧ StepsTo id parts stroke due s s' := by
  cases hlive : t.cancelled with
  | true => exact ⟨_, if_pos hlive, hs.step_of_cancelled hqueue hlive s.clock.now⟩
  | false =>
    by_cases htask : t.task = .complete
    · exact hs.step_of_complete hqueue hparts hlive htask t.due
    · exact hs.step_of_task hqueue hparts hlive htask

end Underway

namespace IsOver

variable (stroke)

/-- A step that only moves the clock, or passes over cancelled timers. -/
theorem moved (h : IsOver id parts s) (now : Binary64) {queue : List (Timer Task)}
    (hqueue : ∀ u ∈ queue, u ∈ s.clock.queue) :
    IsOver id parts (s.moved now queue) ∧ Keeps id parts stroke s (s.moved now queue) := by
  have htimers : (s.moved now queue).clock.timers = [] := by
    refine List.eq_nil_iff_forall_not_mem.mpr fun u hu => ?_
    obtain ⟨hu, hlive⟩ := mem_timers_iff.mp hu
    exact List.not_mem_nil (h.timers ▸ mem_timers_iff.mpr ⟨hqueue u hu, hlive⟩)
  refine ⟨⟨h.idle, htimers, h.result, h.silent, h.last⟩, .of_adds (.of_eq rfl rfl) (fun part _ => ?_) ?_⟩
  · rw [foretold_eq_nil_of_timers h.timers, foretold_eq_nil_of_timers htimers]
    rfl
  · rw [foretold_eq_nil_of_timers h.timers, foretold_eq_nil_of_timers htimers]
    rfl

theorem advanceTo (h : IsOver id parts s) (target : Binary64) (fuel : Nat) :
    ∃ s', advanceTo target fuel s = (.ok (), s') ∧ IsOver id parts s' ∧
      Keeps id parts stroke s s' := by
  induction fuel generalizing s with
  | zero => exact ⟨_, rfl, h.moved stroke target fun _ hu => hu⟩
  | succ fuel ih =>
    cases hqueue : s.clock.queue with
    | nil =>
      rw [advanceTo_nil _ _ hqueue, ← hqueue]
      exact ⟨_, rfl, h.moved stroke target fun _ hu => hu⟩
    | cons t rest =>
      by_cases hdue : t.due ≤ target + slack
      -- nothing is pending any more, so whatever comes up has been cancelled
      · have hcancelled : t.cancelled = true := by
          by_contra hlive
          have hmem : t ∈ s.clock.queue := hqueue ▸ List.mem_cons_self
          exact List.not_mem_nil
            (h.timers ▸ mem_timers_iff.mpr ⟨hmem, Bool.eq_false_iff.mpr hlive⟩)
        obtain ⟨hover, hkeeps⟩ := h.moved stroke s.clock.now
          fun u (hu : u ∈ rest) => hqueue ▸ List.mem_cons_of_mem t hu
        obtain ⟨s', hadvance, hover', hkeeps'⟩ := ih hover
        refine ⟨s', ?_, hover', hkeeps.trans hkeeps'⟩
        rw [advanceTo_of_due fuel hqueue hdue, hcancelled, if_pos rfl, fire_of_cancelled _ _ hcancelled]
        exact hadvance
      · rw [advanceTo_of_not_due _ hqueue hdue, ← hqueue]
        exact ⟨_, rfl, h.moved stroke target fun _ hu => hu⟩

theorem runWithin (h : IsOver id parts s) (fuel : Nat) : runWithin fuel s = (.ok (), s) := by
  cases fuel with
  | zero => rfl
  | succ fuel =>
    have hlatest : s.clock.latest? = none := by
      rw [latest?, h.timers]
      rfl
    rw [Playback.runWithin, hlatest]

end IsOver

/-- A session that is still active when the clock stands before its end, or one that is over. -/
def IsOnTime (id : Nat) (parts : List Part) (stroke : Part → Nat → Option (Midi.Data × Binary64))
    (due : Binary64) (s : Playback) : Prop :=
  Underway id parts stroke due s ∧ ¬ due ≤ s.clock.now + slack ∨ IsOver id parts s

namespace Underway

/-- A session that is active has a timer. -/
theorem queue_ne_nil (hs : Underway id parts stroke due s) : s.clock.queue ≠ [] := by
  intro hnil
  obtain ⟨t, ht, -⟩ := hs.scheduled.completion
  exact List.not_mem_nil (hnil ▸ (mem_timers_iff.mp ht).1)

/-- The clock moves on while no timer is due. -/
theorem moved (hs : Underway id parts stroke due s) (now : Binary64) :
    Underway id parts stroke due (s.moved now s.clock.queue) ∧
      Keeps id parts stroke s (s.moved now s.clock.queue) := by
  have hmoved := hs.toSounding.moved now s.clock.queue
  exact ⟨⟨hs.of_frames hmoved.frames hmoved.sounding, { hs.scheduled with }⟩,
    .of_adds hmoved.toAdds (fun _ _ => rfl) rfl⟩

/-- Letting time pass keeps the account, and all timers that are due come up. -/
theorem advanceTo (hs : Underway id parts stroke due s) (hparts : IsEnsemble parts)
    (target : Binary64) {fuel : Nat} (hfuel : load s.clock.queue ≤ fuel) :
    ∃ s', advanceTo target fuel s = (.ok (), s') ∧ Keeps id parts stroke s s' ∧
      IsOnTime id parts stroke due s' := by
  induction fuel generalizing s with
  | zero =>
    cases hqueue : s.clock.queue with
    | nil => exact absurd hqueue hs.queue_ne_nil
    | cons t rest =>
      have hweight := one_le_weight t.task
      rw [hqueue, load_cons] at hfuel
      omega
  | succ fuel ih =>
    cases hqueue : s.clock.queue with
    | nil => exact absurd hqueue hs.queue_ne_nil
    | cons t rest =>
      by_cases hdue : t.due ≤ target + slack
      · obtain ⟨s₁, hfire, hkeeps, hnext, hload⟩ := hs.step hqueue hparts
        rw [advanceTo_of_due fuel hqueue hdue, hfire]
        rcases hnext with hunderway | hover
        · obtain ⟨s', hadvance, hkeeps', hontime⟩ := ih hunderway (by omega)
          exact ⟨s', hadvance, hkeeps.trans hkeeps', hontime⟩
        · obtain ⟨s', hadvance, hover', hkeeps'⟩ := hover.advanceTo stroke target fuel
          exact ⟨s', hadvance, hkeeps.trans hkeeps', .inr hover'⟩
      · obtain ⟨hmoved, hkeeps⟩ := hs.moved target
        rw [advanceTo_of_not_due _ hqueue hdue, ← hqueue]
        refine ⟨_, rfl, hkeeps, .inl ⟨hmoved, ?_⟩⟩
        -- as no timer is due, neither is the one that completes the session
        obtain ⟨u, hu, -, rfl⟩ := hs.scheduled.completion
        obtain ⟨hu, hlive⟩ := mem_timers_iff.mp hu
        have hturn := hs.scheduled.inTurn
        have hnumbers := hs.scheduled.numbers
        rw [hqueue] at hu hturn hnumbers
        exact hturn.not_due hnumbers hdue hu hlive

theorem runWithin (hs : Underway id parts stroke due s) (hparts : IsEnsemble parts) {fuel : Nat}
    (hfuel : fuel = 0 → ¬ due ≤ s.clock.now + slack) :
    ∃ s', runWithin fuel s = (.ok (), s') ∧ Keeps id parts stroke s s' ∧
      IsOnTime id parts stroke due s' := by
  -- while the session is under way its last timer is pending, so that there is always one to wait for
  induction fuel generalizing s with
  | zero => exact ⟨s, rfl, .refl s, .inl ⟨hs, hfuel rfl⟩⟩
  | succ fuel ih =>
    rw [Playback.runWithin]
    cases hlatest : s.clock.latest? with
    | none =>
      rw [latest?, Option.map_eq_none_iff, List.getLast?_eq_none_iff] at hlatest
      obtain ⟨t, ht, -⟩ := hs.scheduled.completion
      exact absurd (hlatest ▸ ht) List.not_mem_nil
    | some last =>
      obtain ⟨s₁, hadvance, hkeeps, hontime⟩ :=
        hs.advanceTo hparts (s.clock.now + (last - s.clock.now)) (load_le_workload s)
      dsimp only
      rw [advance, hadvance]
      rcases hontime with ⟨hunderway, hlater⟩ | hover
      · obtain ⟨s', hrun, hkeeps', hontime⟩ := ih hunderway fun _ => hlater
        exact ⟨s', hrun, hkeeps.trans hkeeps', hontime⟩
      · exact ⟨s₁, hover.runWithin fuel, hkeeps, .inr hover⟩

end Underway

/-! ## Commands -/

/-- Commands that let time pass, ask, or give a voice new settings. -/
def Command.IsUndisturbing : Command → Prop
  | .advance _ | .runAll | .eligible _ | .assign .. => True
  | _ => False

/-- Commands that let time pass. Seconds beyond the range of the reals are refused. -/
def Command.PassesTime : Command → Prop
  | .advance seconds => seconds.toReal.isOk
  | .runAll => True
  | _ => False

instance (c : Command) : Decidable c.PassesTime :=
  match c with
  | .advance seconds => inferInstanceAs (Decidable (seconds.toReal.isOk = true))
  | .runAll => isTrue trivial
  | .play .. | .stop | .eligible _ | .panic | .close | .assign .. | .listen _ | .resolve _ =>
    isFalse not_false

/-- What a list of commands leads to in the end. -/
def performAll (cs : List Command) (s : Playback) : Playback := cs.foldl (fun s c => (perform c s).2) s

/-- When some command has let time pass, the clock stands at a time at which a timer fires that is due
at the given one. -/
def Reaches (due : Binary64) : List Command → Playback → Prop
  | [], _ => False
  | c :: cs, s => c.PassesTime ∧ due ≤ (perform c s).2.clock.now + slack ∨
      Reaches due cs (perform c s).2

instance decidableReaches (due : Binary64) :
    (cs : List Command) → (s : Playback) → Decidable (Reaches due cs s)
  | [], _ => isFalse not_false
  | c :: cs, s =>
    have := decidableReaches due cs (perform c s).2
    inferInstanceAs (Decidable (_ ∧ _ ∨ _))

/-- A command that leaves playback as it is, but for the settings of voices. -/
theorem Frames.assign (performer : Nat) (values : Assignment) :
    Frames id s (perform (.assign performer values) s).2 :=
  ⟨rfl, rfl, map_modify_of_eq (f := fun p : Performer => { p with voice := values.apply p.voice })
    (fun _ => rfl) performer, rfl⟩

variable (stroke) in
theorem IsOver.perform (h : IsOver id parts s) {c : Command} (hc : c.IsUndisturbing) :
    IsOver id parts (perform c s).2 ∧ Keeps id parts stroke s (perform c s).2 := by
  cases c with
  | advance seconds =>
    rw [Playback.perform]
    split
    · next x _ =>
      obtain ⟨s', hadvance, hover, hkeeps⟩ := h.advanceTo stroke (s.clock.now + x) s.workload
      rw [advance, hadvance]
      exact ⟨hover, hkeeps⟩
    · exact ⟨h, .refl s⟩
  | runAll =>
    rw [Playback.perform, runAll, h.runWithin]
    exact ⟨h, .refl s⟩
  | eligible performers => exact ⟨h, .refl s⟩
  | assign performer values =>
    exact ⟨⟨h.idle, h.timers, h.result, h.silent, h.last⟩,
      .of_adds (.of_eq rfl rfl) (fun _ _ => rfl) rfl⟩
  | play | stop | panic | close | listen | resolve => exact hc.elim

theorem Underway.perform (hs : Underway id parts stroke due s) (hparts : IsEnsemble parts)
    {c : Command} (hc : c.IsUndisturbing) :
    Keeps id parts stroke s (perform c s).2 ∧
      (Underway id parts stroke due (perform c s).2 ∧
          (c.PassesTime → ¬ due ≤ (perform c s).2.clock.now + slack) ∨
        IsOver id parts (perform c s).2) := by
  -- only two of these commands let time pass; the others leave the clock as it is
  cases c with
  | advance seconds =>
    rw [Playback.perform]
    split
    · next x _ =>
      obtain ⟨s', hadvance, hkeeps, hontime⟩ :=
        hs.advanceTo hparts (s.clock.now + x) (load_le_workload s)
      rw [advance, hadvance]
      exact ⟨hkeeps, hontime.imp_left fun h => ⟨h.1, fun _ => h.2⟩⟩
    · next fault hfault =>
      refine ⟨.refl s, .inl ⟨hs, fun hpasses => ?_⟩⟩
      rw [Command.PassesTime, hfault] at hpasses
      cases hpasses
  | runAll =>
    obtain ⟨s', hrun, hkeeps, hontime⟩ :=
      hs.runWithin hparts fun h : 2 * s.workload + 2 = 0 => absurd h (Nat.succ_ne_zero _)
    rw [Playback.perform, runAll, hrun]
    exact ⟨hkeeps, hontime.imp_left fun h => ⟨h.1, fun _ => h.2⟩⟩
  | eligible performers => exact ⟨.refl s, .inl ⟨hs, fun hpasses => hpasses.elim⟩⟩
  | assign performer values =>
    have hassigned : Proceeds id parts (fun _ => []) [] s
        (Playback.perform (.assign performer values) s).2 :=
      hs.of_eq (.assign performer values) rfl rfl rfl rfl
    exact ⟨.of_adds hassigned.toAdds (fun _ _ => rfl) rfl,
      .inl ⟨⟨hs.of_frames hassigned.frames hassigned.sounding, hs.scheduled⟩,
        fun hpasses => hpasses.elim⟩⟩
  | play | stop | panic | close | listen | resolve => exact hc.elim

variable (stroke) in
theorem IsOver.performAll (h : IsOver id parts s) {cs : List Command}
    (hcs : ∀ c ∈ cs, c.IsUndisturbing) :
    IsOver id parts (performAll cs s) ∧ Keeps id parts stroke s (performAll cs s) := by
  induction cs generalizing s with
  | nil => exact ⟨h, .refl s⟩
  | cons c cs ih =>
    obtain ⟨hc, hcs⟩ := List.forall_mem_cons.mp hcs
    obtain ⟨hover, hkeeps⟩ := h.perform stroke hc
    obtain ⟨hover', hkeeps'⟩ := ih hover hcs
    exact ⟨hover', hkeeps.trans hkeeps'⟩

/-- Commands that do not disturb a session and reach its end complete it. -/
theorem Underway.performAll (hs : Underway id parts stroke due s) (hparts : IsEnsemble parts)
    {cs : List Command} (hcs : ∀ c ∈ cs, c.IsUndisturbing) (hreaches : Reaches due cs s) :
    IsOver id parts (performAll cs s) ∧ Keeps id parts stroke s (performAll cs s) := by
  induction cs generalizing s with
  | nil => exact hreaches.elim
  | cons c cs ih =>
    obtain ⟨hc, hcs⟩ := List.forall_mem_cons.mp hcs
    obtain ⟨hkeeps, ⟨hunderway, hlater⟩ | hover⟩ := hs.perform hparts hc
    · have hrest : Reaches due cs (Playback.perform c s).2 :=
        hreaches.resolve_left fun ⟨hpasses, hdue⟩ => hlater hpasses hdue
      obtain ⟨hover, hkeeps'⟩ := ih hunderway hcs hrest
      exact ⟨hover, hkeeps.trans hkeeps'⟩
    · obtain ⟨hover', hkeeps'⟩ := hover.performAll stroke hcs
      exact ⟨hover', hkeeps.trans hkeeps'⟩

end Monody.Playback
