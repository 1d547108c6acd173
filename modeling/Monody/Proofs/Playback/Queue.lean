import Monody.Proofs.Playback.Firings
import Monody.Proofs.Playback.Readiness

/-!
# The order of all timers

Cancelled timers keep their places, so all timers of a clock are in the order in which they are due. Where
they are due at moments, the timers of some owners come up as if there were no others: a new one takes the
same place among them, and if the first of all timers is not due yet, none of theirs is.

Timers are due at moments on every clock that stands at one, as a clock that was set back before all
moments never comes to one again.

## Main definitions

* `Clock.IsOrdered` — no timer is due before one that stands before it

## Main results

* `Clock.filter_insert` — a new timer takes the same place among some of the others
* `isOrdered_performAll` — timers are always in order
* `isNumbered_performAll` — at a moment, all timers are due at moments
-/

namespace Monody.Playback

open Binary64 (IsMoment)

namespace Clock

variable {τ τ' : Type} {t u : Timer τ} {us : List (Timer τ)} {p : Timer τ → Bool}

/-- No timer is due before one that stands before it. -/
def IsOrdered (us : List (Timer τ)) : Prop := us.Pairwise fun u v => ¬ v.due < u.due

theorem isOrdered_insert (t : Timer τ) (h : IsOrdered us) : IsOrdered (insert t us) :=
  (pairwise_insert (fun _ => True) t (h.imp fun hnot _ => hnot)).imp fun hnot => hnot trivial

/-- The order of timers depends only on when they are due. -/
theorem IsOrdered.map {g : Timer τ → Timer τ'} (hdue : ∀ u, (g u).due = u.due) (h : IsOrdered us) :
    IsOrdered (us.map g) := by
  refine List.pairwise_map.mpr (h.imp fun {u v} hnot => ?_)
  rwa [hdue, hdue]

theorem IsOrdered.tail (h : IsOrdered (t :: us)) : IsOrdered us := (List.pairwise_cons.mp h).2

/-- None of some timers that are due at moments is due before the first of them. -/
theorem IsOrdered.le_due (h : IsOrdered (t :: us)) (hmoments : ∀ u ∈ t :: us, IsMoment u.due)
    (hu : u ∈ t :: us) : t.due ≤ u.due := by
  have hnan : ∀ v ∈ t :: us, v.due ≠ .nan := fun v hv => IsMoment.ne_nan (hmoments v hv)
  have ht := hnan t List.mem_cons_self
  rcases List.mem_cons.mp hu with rfl | hmem
  · exact Binary64.le_refl ht
  · exact (Binary64.not_lt (hnan u hu) ht).mp ((List.pairwise_cons.mp h).1 u hmem)

/-- A new timer takes the same place among some of the others as it does among all. -/
theorem filter_insert (hus : IsOrdered us) (hmoments : ∀ u ∈ us, IsMoment u.due) (ht : p t = true) :
    (insert t us).filter p = insert t (us.filter p) := by
  induction us with
  | nil => exact List.filter_cons_of_pos ht
  | cons u us ih =>
    rw [insert]
    split
    · next hlt =>
      -- what is left of the others is due after the new timer as well
      have hafter : ∀ v ∈ (u :: us).filter p, t.due < v.due := fun v hv =>
        Binary64.lt_of_lt_of_le hlt (hus.le_due hmoments (List.mem_of_mem_filter hv))
      rw [List.filter_cons_of_pos ht]
      cases hleft : (u :: us).filter p with
      | nil => rfl
      | cons v vs => rw [insert, if_pos (hafter v (hleft ▸ List.mem_cons_self))]
    · next hnot =>
      have hrest := ih hus.tail (List.forall_mem_cons.mp hmoments).2
      by_cases hu : p u = true
      · rw [List.filter_cons_of_pos hu, List.filter_cons_of_pos hu, insert, if_neg hnot, hrest]
      · rw [List.filter_cons_of_neg hu, List.filter_cons_of_neg hu, hrest]

end Clock

variable {s : Playback} {cs : List Command}

/-! ## Order -/

/-- Whatever happens while no time passes, timers stay in order. -/
theorem stepwise_isOrdered :
    Stepwise fun s s' => Clock.IsOrdered s.clock.queue → Clock.IsOrdered s'.clock.queue where
  refl _ := id
  trans h h' := h' ∘ h
  record _ _ := id
  update _ _ _ _ := id
  through _ _ := id
  setCursor _ _ _ := id
  setListener _ _ _ := id
  addListener _ _ := id
  assign _ _ _ := id
  after _ _ _ _ _ := Clock.isOrdered_insert _
  conclude s id how h := by
    have hclock : (s.conclude id how).clock = s.clock.cancel id := rfl
    rw [hclock, Clock.cancel]
    split
    · exact h.map fun _ => rfl
    · exact h
  begin _ _ := id

theorem isOrdered_keptByTime : KeptByTime fun _ s => Clock.IsOrdered s.clock.queue where
  wait h _ := h
  up := by
    rintro fs s t rest h hqueue next rfl
    exact stepwise_isOrdered.fire t (hqueue ▸ h).tail

/-- The timers of a clock are always in order. -/
theorem isOrdered_performAll (cs : List Command) (h : Clock.IsOrdered s.clock.queue) :
    Clock.IsOrdered (performAll cs s).clock.queue :=
  isOrdered_keptByTime.firings (fun _ => True) (fun _ hwait h => stepwise_isOrdered.perform hwait h)
    (fun _ _ => trivial) h

/-! ## Moments -/

/-- A clock that is set to no moment, and was at none, does not come to one. -/
theorem not_isMoment_advanceTo {target : Binary64} (fuel : Nat) (htarget : ¬ IsMoment target)
    (hnow : ¬ IsMoment s.clock.now) : ¬ IsMoment (advanceTo target fuel s).2.clock.now := by
  induction fuel generalizing s with
  | zero => exact htarget
  | succ fuel ih =>
    cases hqueue : s.clock.queue with
    | nil =>
      rw [advanceTo_nil _ _ hqueue]
      exact htarget
    | cons t rest =>
      by_cases hdue : t.due ≤ target + Clock.slack
      -- a timer that is due by then is due at no moment either
      · have hmoved : ¬ IsMoment (if t.cancelled then s.clock.now else t.due) := by
          split
          · exact hnow
          · exact fun ht => htarget (ht.of_le hdue).of_add
        rw [advanceTo_of_due fuel hqueue hdue]
        generalize (if t.cancelled then s.clock.now else t.due) = now at hmoved ⊢
        have hfire : Stands (s.moved now rest) (fire emit t (s.moved now rest)).2 := stepwise_stands.fire t
        have hfired : ¬ IsMoment (fire emit t (s.moved now rest)).2.clock.now := by
          rw [hfire.now]
          exact hmoved
        split
        · next heq => rwa [heq] at hfired
        · next heq =>
          rw [heq] at hfired
          exact ih hfired
      · rw [advanceTo_of_not_due _ hqueue hdue]
        exact htarget

theorem not_isMoment_runWithin (fuel : Nat) (hnow : ¬ IsMoment s.clock.now) :
    ¬ IsMoment (runWithin fuel s).2.clock.now := by
  induction fuel generalizing s with
  | zero => exact hnow
  | succ fuel ih =>
    rw [runWithin]
    split
    · exact hnow
    · next due _ =>
      have hadvance : ¬ IsMoment (advance (due - s.clock.now) s).2.clock.now :=
        not_isMoment_advanceTo _ (fun h => hnow h.of_add) hnow
      split
      · next heq => rwa [heq] at hadvance
      · next heq =>
        rw [heq] at hadvance
        exact ih hadvance

/-- A clock that is at no moment never comes to one. -/
theorem not_isMoment_perform (c : Command) (hnow : ¬ IsMoment s.clock.now) :
    ¬ IsMoment (perform c s).2.clock.now := by
  by_cases hc : c.IsWait
  · cases c with
    | advance seconds =>
      rw [perform]
      split
      · exact not_isMoment_advanceTo _ (fun h => hnow h.of_add) hnow
      · exact hnow
    | runAll => exact not_isMoment_runWithin _ hnow
    | play | stop | close | eligible | panic | assign | listen | resolve => exact hc.elim
  · rw [(stepwise_stands.perform hc).now]
    exact hnow

/-- At a moment, all timers are due at moments. -/
theorem isNumbered_performAll (cs : List Command) (h : IsMoment s.clock.now → s.clock.IsNumbered)
    (hnow : IsMoment (performAll cs s).clock.now) : (performAll cs s).clock.IsNumbered := by
  induction cs generalizing s with
  | nil => exact h hnow
  | cons c cs ih =>
    refine ih (fun hnext => ?_) hnow
    by_cases hs : IsMoment s.clock.now
    · exact (isNumbered_perform c hs (h hs)).1
    · exact absurd hnext (not_isMoment_perform c hs)

end Monody.Playback
