import Monody.Proofs.Playback.Programme
import Monody.Proofs.Playback.Steps

/-!
# When a session can be started

A timer is due some time after the moment at which it is set. As long as the clock stands at moments,
none of its timers is due at no time at all, which would keep those behind it from coming up. So
whatever has been done to playback, it is ready for a session whenever none is active.

## Main definitions

* `Clock.IsNumbered` — all timers are due at moments
* `Stands` — what may come of the clock while no time passes

## Main results

* `stepwise_stands` — whatever happens, timers are set from now on
* `isNumbered_perform` — a command leaves all timers due at moments
* `isReady_of_mem_history` — where no session is active, one can be started
-/

namespace Monody.Playback

open Binary64

variable {s s' : Playback}

/-- All timers are due at moments. -/
def Clock.IsNumbered {τ : Type} (c : Clock τ) : Prop := ∀ t ∈ c.queue, IsMoment t.due

/-! ## The clock while no time passes -/

/-- What may come of a state while no time passes: each timer is due when one was before, or some time
from now on. -/
structure Stands (s s' : Playback) : Prop where
  now : s'.clock.now = s.clock.now
  cancels : s'.clock.cancels = s.clock.cancels
  due : ∀ t ∈ s'.clock.queue, (∃ u ∈ s.clock.queue, t.due = u.due) ∨
    ∃ delay, t.due = s.clock.now + Binary64.max 0 delay

namespace Stands

theorem of_eq (h : s'.clock = s.clock) : Stands s s' where
  now := congrArg Clock.now h
  cancels := congrArg Clock.cancels h
  due t ht := .inl ⟨t, h ▸ ht, rfl⟩

theorem refl (s : Playback) : Stands s s := of_eq rfl

theorem trans {s₁ s₂ s₃ : Playback} (h : Stands s₁ s₂) (h' : Stands s₂ s₃) : Stands s₁ s₃ where
  now := h'.now.trans h.now
  cancels := h'.cancels.trans h.cancels
  due t ht := by
    rcases h'.due t ht with ⟨u, hu, hdue⟩ | ⟨delay, hdue⟩
    · rw [hdue]
      exact h.due u hu
    · exact .inr ⟨delay, h.now ▸ hdue⟩

theorem after (s : Playback) (delay : Binary64) (id : Nat) (task : Task) :
    Stands s (s.after delay id task) where
  now := rfl
  cancels := rfl
  due t ht := by
    rcases Clock.mem_insert.mp ht with rfl | ht
    · exact .inr ⟨delay, rfl⟩
    · exact .inl ⟨t, ht, rfl⟩

theorem conclude (s : Playback) (id : Nat) (how : Ending) : Stands s (s.conclude id how) := by
  have hclock : (s.conclude id how).clock = s.clock.cancel id := rfl
  refine ⟨?_, ?_, fun t ht => .inl ?_⟩ <;> rw [hclock, Clock.cancel] at *
  · split <;> rfl
  · split <;> rfl
  · split at ht
    · obtain ⟨u, hu, rfl⟩ := List.mem_map.mp ht
      exact ⟨u, hu, rfl⟩
    · exact ⟨t, ht, rfl⟩

/-- From a moment on, timers are set for moments. -/
theorem isNumbered (h : Stands s s') (hnow : IsMoment s.clock.now) (hs : s.clock.IsNumbered) :
    s'.clock.IsNumbered := by
  intro t ht
  rcases h.due t ht with ⟨u, hu, hdue⟩ | ⟨delay, hdue⟩
  · exact hdue ▸ hs u hu
  · exact hdue ▸ hnow.add (isTime_zero_max delay)

end Stands

/-- Whatever happens while no time passes, timers are set from now on. -/
theorem stepwise_stands : Stepwise Stands where
  refl := .refl
  trans := .trans
  record _ _ := .of_eq rfl
  update _ _ _ _ := .of_eq rfl
  through _ _ := .of_eq rfl
  setCursor _ _ _ := .of_eq rfl
  setListener _ _ _ := .of_eq rfl
  addListener _ _ := .of_eq rfl
  assign _ _ _ := .of_eq rfl
  after s delay id task _ := .after s delay id task
  conclude := .conclude
  begin _ _ := .of_eq rfl

/-! ## Time -/

/-- Letting time pass leaves all timers due at moments: one comes up only when there is a moment to
reach, and then it is at a moment itself. -/
theorem isNumbered_advanceTo {target : Binary64} (fuel : Nat)
    (hnow : IsMoment target → IsMoment s.clock.now) (hs : s.clock.IsNumbered) :
    (advanceTo target fuel s).2.clock.IsNumbered ∧
      (advanceTo target fuel s).2.clock.cancels = s.clock.cancels := by
  induction fuel generalizing s with
  | zero => exact ⟨hs, rfl⟩
  | succ fuel ih =>
    cases hqueue : s.clock.queue with
    | nil =>
      rw [advanceTo_nil _ _ hqueue]
      exact ⟨fun t ht => absurd ht List.not_mem_nil, rfl⟩
    | cons t rest =>
      rw [Clock.IsNumbered, hqueue, List.forall_mem_cons] at hs
      obtain ⟨ht, hrest⟩ := hs
      by_cases hdue : t.due ≤ target + Clock.slack
      -- a timer is due, so there is a moment to reach
      · have hmoment := hnow (ht.of_le hdue).of_add
        have hmoved : IsMoment (if t.cancelled then s.clock.now else t.due) := by
          split
          · exact hmoment
          · exact ht
        rw [advanceTo_of_due fuel hqueue hdue]
        generalize (if t.cancelled then s.clock.now else t.due) = now at hmoved ⊢
        have hfire : Stands (s.moved now rest) (fire Playback.emit t (s.moved now rest)).2 :=
          stepwise_stands.fire t
        have hnumbered := hfire.isNumbered hmoved hrest
        split
        · next heq =>
          rw [heq] at hfire hnumbered
          exact ⟨hnumbered, hfire.cancels⟩
        · next heq =>
          rw [heq] at hfire hnumbered
          obtain ⟨hnumbered, hcancels⟩ := ih (fun _ => hfire.now ▸ hmoved) hnumbered
          exact ⟨hnumbered, hcancels.trans hfire.cancels⟩
      · rw [advanceTo_of_not_due _ hqueue hdue]
        exact ⟨List.forall_mem_cons.mpr ⟨ht, hrest⟩, rfl⟩

theorem isNumbered_advance (seconds : Binary64) (hs : s.clock.IsNumbered) :
    (advance seconds s).2.clock.IsNumbered ∧
      (advance seconds s).2.clock.cancels = s.clock.cancels :=
  isNumbered_advanceTo _ (·.of_add) hs

theorem isNumbered_runWithin (fuel : Nat) (hs : s.clock.IsNumbered) :
    (runWithin fuel s).2.clock.IsNumbered ∧
      (runWithin fuel s).2.clock.cancels = s.clock.cancels := by
  induction fuel generalizing s with
  | zero => exact ⟨hs, rfl⟩
  | succ fuel ih =>
    simp only [runWithin]
    split
    · exact ⟨hs, rfl⟩
    · next due _ =>
      have hadvance := isNumbered_advance (due - s.clock.now) hs
      split
      · next heq => rwa [heq] at hadvance
      · next heq =>
        rw [heq] at hadvance
        obtain ⟨hnumbered, hcancels⟩ := ih hadvance.1
        exact ⟨hnumbered, hcancels.trans hadvance.2⟩

/-! ## Commands -/

/-- A command that is given at a moment leaves all timers due at moments. -/
theorem isNumbered_perform (c : Command) (hnow : IsMoment s.clock.now) (hs : s.clock.IsNumbered) :
    (perform c s).2.clock.IsNumbered ∧ (perform c s).2.clock.cancels = s.clock.cancels := by
  by_cases hc : c.IsWait
  · cases c with
    | advance seconds =>
      rw [perform]
      split
      · exact isNumbered_advance _ hs
      · exact ⟨hs, rfl⟩
    | runAll => exact isNumbered_runWithin _ hs
    | play | stop | close | eligible | panic | assign | listen | resolve => exact hc.elim
  · have hstands : Stands s (perform c s).2 := stepwise_stands.perform hc
    exact ⟨hstands.isNumbered hnow hs, hstands.cancels⟩

theorem isNumbered_of_mem_history {cs : List Command} (hs : s.clock.IsNumbered)
    (hnow : IsMoment s.clock.now) (hmoments : ∀ p ∈ history cs s, IsMoment p.2.clock.now) :
    ∀ p ∈ history cs s, p.2.clock.IsNumbered ∧ p.2.clock.cancels = s.clock.cancels := by
  induction cs generalizing s with
  | nil => exact fun p hp => absurd hp List.not_mem_nil
  | cons c cs ih =>
    obtain ⟨hnumbered, hcancels⟩ := isNumbered_perform c hnow hs
    obtain ⟨hnow, hmoments⟩ := List.forall_mem_cons.mp hmoments
    refine List.forall_mem_cons.mpr ⟨⟨hnumbered, hcancels⟩, fun p hp => ?_⟩
    exact (ih hnumbered hnow hmoments p hp).imp_right (·.trans hcancels)

/-- **Playback is ready whenever no session is active.** Whatever has been done before, as long as the
clock stood at moments, a session can be started where none is active, the output is open and the
listeners only log. -/
theorem isReady_of_mem_history {output : Output} {voices : List Voice} {listeners : List Listener}
    {defaultSpeed : Number} {cs : List Command} {p : Except Refusal Reply × Playback}
    (hmoments : ∀ p ∈ history cs (start output voices listeners defaultSpeed true),
      IsMoment p.2.clock.now)
    (hp : p ∈ history cs (start output voices listeners defaultSpeed true)) (horderly : p.2.IsOrderly)
    (hidle : p.2.current = none) (hopen : p.2.output.isOpen = true) (hlogging : p.2.IsLogging) :
    p.2.IsReady := by
  have hzero : IsMoment 0 := zero_eq ▸ isMoment_finite _ _
  have hstart : (start output voices listeners defaultSpeed true).clock.IsNumbered :=
    fun t ht => absurd ht List.not_mem_nil
  obtain ⟨hnumbered, hcancels⟩ := isNumbered_of_mem_history hstart hzero hmoments p hp
  exact horderly.isReady hidle hcancels (fun t ht => IsMoment.ne_nan (hnumbered t ht)) hopen
    hlogging

end Monody.Playback
