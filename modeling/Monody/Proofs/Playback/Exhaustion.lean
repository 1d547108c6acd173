import Monody.Proofs.Binary64.Residue
import Monody.Proofs.Playback.Queue
import Monody.Proofs.Playback.Workload

/-!
# Until no timer is pending

Time is let pass to the last pending timer as often as there is one, but the time that is added is rounded,
and so is the sum. An advance may fall short of every timer, and then nothing has come up. It does not
happen twice: from where the clock is left, the last timer is reached. So of any two advances one lets a
timer come up, and as often as that can be, twice over, is enough.

This needs a clock that is at a finite time, before all of its timers. Whatever has been asked of playback
leaves the clock before its timers, as long as it is at a moment at all.

## Main definitions

* `Clock.IsPunctual` — no timer is overdue, and all are in order
* `Clock.Reaches` — the next advance to the last pending timer gets there

## Main results

* `isPunctual_performAll` — at a moment, no timer is overdue
* `runWithin_eq_runAll` — to allow for more advances makes no difference
* `latest?_eq_none_of_runAll` — in the end no timer is pending
* `runAll_eq` — as long as a timer is pending, time is let pass, and then the same again
-/

namespace Monody.Playback

open Binary64 (IsMoment)

namespace Clock

variable {τ : Type} {c : Clock τ}

/-- No timer is overdue, and none is due before one that stands before it. -/
structure IsPunctual (c : Clock τ) : Prop where
  ordered : IsOrdered c.queue
  ahead : ∀ t ∈ c.queue, c.now ≤ t.due

/-- The next advance to the last pending timer gets there. -/
def Reaches (c : Clock τ) : Prop := ∀ due, c.latest? = some due → due ≤ c.now + (due - c.now)

theorem exists_mem_of_latest? {due : Binary64} (h : c.latest? = some due) : ∃ t ∈ c.queue, t.due = due := by
  obtain ⟨t, ht, rfl⟩ := Option.map_eq_some_iff.mp h
  exact ⟨t, List.mem_of_mem_filter (List.mem_of_getLast? ht), rfl⟩

theorem latest?_of_nil (h : c.queue = []) : c.latest? = none := by
  rw [latest?, timers, h]
  rfl

theorem isTime_slack : Binary64.IsTime slack := Binary64.isTime_ofDecimal _

namespace IsPunctual

variable (h : c.IsPunctual) (hnow : IsMoment c.now)
include h hnow

theorem isNumbered : c.IsNumbered := fun t ht => hnow.of_le (h.ahead t ht)

/-- None of the timers is due before the first. -/
theorem le_due {t u : Timer τ} {rest : List (Timer τ)} (hqueue : c.queue = t :: rest) (hu : u ∈ c.queue) :
    t.due ≤ u.due :=
  (hqueue ▸ h.ordered : IsOrdered (t :: rest)).le_due (hqueue ▸ h.isNumbered hnow) (hqueue ▸ hu)

end IsPunctual

end Clock

variable {s s' : Playback} {seconds target due : Binary64}

/-! ## No timer is overdue -/

/-- While no time passes, timers are set from now on. -/
theorem Stands.isPunctual (h : Stands s s') (hordered : Clock.IsOrdered s'.clock.queue)
    (hnow : IsMoment s.clock.now) (hs : s.clock.IsPunctual) : s'.clock.IsPunctual where
  ordered := hordered
  ahead t ht := by
    rw [h.now]
    rcases h.due t ht with ⟨u, hu, hdue⟩ | ⟨delay, hdue⟩
    · exact hdue ▸ hs.ahead u hu
    · exact hdue ▸ hnow.le_add (Binary64.isTime_zero_max delay).zero_le

/-- When a timer has come up, none is overdue. -/
theorem isPunctual_fire {t : Timer Task} {rest : List (Timer Task)} (hs : s.clock.IsPunctual)
    (hnow : IsMoment s.clock.now) (hqueue : s.clock.queue = t :: rest) :
    let s' := (fire emit t (s.moved (if t.cancelled then s.clock.now else t.due) rest)).2
    IsMoment s'.clock.now ∧ s'.clock.IsPunctual := by
  have hrest : ∀ u ∈ rest, u ∈ s.clock.queue := fun u hu => hqueue ▸ List.mem_cons_of_mem t hu
  have ht : t ∈ s.clock.queue := hqueue ▸ List.mem_cons_self
  have hordered : Clock.IsOrdered (t :: rest) := hqueue ▸ hs.ordered
  -- the clock is at the timer's own time or stays, and is not ahead of the timers after it
  have hmoved : IsMoment (if t.cancelled then s.clock.now else t.due) ∧
      ∀ u ∈ rest, (if t.cancelled then s.clock.now else t.due) ≤ u.due := by
    split
    · exact ⟨hnow, fun u hu => hs.ahead u (hrest u hu)⟩
    · exact ⟨hs.isNumbered hnow t ht, fun u hu => hs.le_due hnow hqueue (hrest u hu)⟩
  generalize (if t.cancelled then s.clock.now else t.due) = now at hmoved ⊢
  have hstands : Stands (s.moved now rest) (fire emit t (s.moved now rest)).2 := stepwise_stands.fire t
  refine ⟨hstands.now ▸ hmoved.1, hstands.isPunctual ?_ hmoved.1 ⟨hordered.tail, hmoved.2⟩⟩
  exact stepwise_isOrdered.fire t hordered.tail

/-- Letting time pass leaves no timer overdue, whether or not one has failed. -/
theorem isPunctual_advanceTo (fuel : Nat) (hs : s.clock.IsPunctual) (hnow : IsMoment s.clock.now)
    (hfuel : s.workload ≤ fuel) (hafter : IsMoment (advanceTo target fuel s).2.clock.now) :
    (advanceTo target fuel s).2.clock.IsPunctual := by
  induction fuel generalizing s with
  | zero =>
    have hqueue := load_eq_zero (Nat.le_zero.mp ((load_le_workload s).trans hfuel))
    rw [advanceTo_nil _ _ hqueue]
    exact ⟨.nil, fun t ht => absurd ht List.not_mem_nil⟩
  | succ fuel ih =>
    cases hqueue : s.clock.queue with
    | nil =>
      rw [advanceTo_nil _ _ hqueue]
      exact ⟨.nil, fun t ht => absurd ht List.not_mem_nil⟩
    | cons t rest =>
      by_cases hdue : t.due ≤ target + Clock.slack
      · rw [advanceTo_of_due fuel hqueue hdue] at hafter ⊢
        have hfired := isPunctual_fire hs hnow hqueue
        have hless := workload_lt_of_cons (if t.cancelled then s.clock.now else t.due) hqueue
        generalize fire emit t (s.moved (if t.cancelled then s.clock.now else t.due) rest) = fired at *
        obtain ⟨_ | _, next⟩ := fired
        · exact hfired.2
        · exact ih hfired.2 hfired.1 (Nat.le_of_lt_succ (hless.trans_le hfuel)) hafter
      · rw [advanceTo_of_not_due _ hqueue hdue] at hafter ⊢
        -- the first timer is due after the time that is reached, and the others no earlier
        refine ⟨hqueue ▸ hs.ordered, fun u hu => ?_⟩
        have hu : u ∈ s.clock.queue := hqueue ▸ hu
        have hreached : target ≤ target + Clock.slack := hafter.le_add Clock.isTime_slack.zero_le
        have hfirst : t.due ≤ u.due := hs.le_due hnow hqueue hu
        have hlate := Binary64.le_of_not_le (Binary64.ne_nan_of_le hfirst).1
          (Binary64.ne_nan_of_le hreached).2 hdue
        exact Binary64.le_trans (Binary64.le_trans hreached hlate) hfirst

theorem now_of_advanceTo {fuel : Nat} (h : advanceTo target fuel s = (.ok (), s')) : s'.clock.now = target := by
  induction fuel generalizing s with
  | zero => exact (Prod.mk.inj h).2 ▸ rfl
  | succ fuel ih =>
    rw [advanceTo] at h
    split at h
    · exact (Prod.mk.inj h).2 ▸ rfl
    · split at h
      · cases h
      · exact ih h

theorem isPunctual_advance (seconds : Binary64) (hs : s.clock.IsPunctual) (hnow : IsMoment s.clock.now)
    (hafter : IsMoment (advance seconds s).2.clock.now) : (advance seconds s).2.clock.IsPunctual :=
  isPunctual_advanceTo s.workload hs hnow (Nat.le_refl _) hafter

/-! ## As often as there are timers -/

/-- Letting time pass makes no work. -/
theorem workload_advanceTo_le (target : Binary64) (fuel : Nat) (s : Playback) :
    (advanceTo target fuel s).2.workload ≤ s.workload := by
  induction fuel generalizing s with
  | zero => exact (workload_moved s target).le
  | succ fuel ih =>
    rw [advanceTo]
    split
    · exact (workload_moved s target).le
    · next hdue =>
      have hless := workload_lt_of_due hdue
      split
      · next heq => exact (heq ▸ hless).le
      · next heq => exact (ih _).trans (heq ▸ hless).le

/-- When a timer has come up in the course of an advance, there is less work. -/
theorem workload_advance_lt {t : Timer Task} {rest : List (Timer Task)} (hqueue : s.clock.queue = t :: rest)
    (hdue : t.due ≤ s.clock.now + seconds + Clock.slack) : (advance seconds s).2.workload < s.workload := by
  have hless := workload_lt_of_cons (if t.cancelled then s.clock.now else t.due) hqueue
  have hadvance : advance seconds s = advanceTo (s.clock.now + seconds) (s.workload - 1 + 1) s := by
    rw [advance, Nat.sub_add_cancel (Nat.zero_lt_of_lt hless)]
  rw [hadvance, advanceTo_of_due _ hqueue hdue]
  split
  · next heq => rwa [heq] at hless
  · next heq =>
    rw [heq] at hless
    exact (workload_advanceTo_le ..).trans_lt hless

/-- An advance in which no timer has come up leaves nothing but another time. -/
theorem advance_of_not_due {t : Timer Task} {rest : List (Timer Task)} (hqueue : s.clock.queue = t :: rest)
    (hdue : ¬ t.due ≤ s.clock.now + seconds + Clock.slack) :
    advance seconds s = (.ok (), s.moved (s.clock.now + seconds) s.clock.queue) := by
  rw [advance, advanceTo_of_not_due _ hqueue hdue, hqueue]

/-- When time has passed without end, no timer is pending. -/
theorem latest?_eq_none_of_infinite (h : advance seconds s = (.ok (), s')) (hs' : s'.clock.IsPunctual)
    (hnow' : s'.clock.now = .infinite false) : s'.clock.latest? = none := by
  refine Clock.latest?_of_nil ?_
  have hnone := due?_eq_none_of_advance h
  rw [← now_of_advanceTo h, hnow', Clock.due?] at hnone
  split at hnone
  · assumption
  · next t rest hqueue =>
    have hnan : t.due ≠ .nan := (Binary64.ne_nan_of_le (hs'.ahead t (hqueue ▸ List.mem_cons_self))).2
    have hdue : t.due ≤ .infinite false + Clock.slack := by
      refine Binary64.le_trans ?_ (Binary64.isMoment_infinite.le_add Clock.isTime_slack.zero_le)
      exact (Binary64.le_iff_rank hnan Binary64.isMoment_infinite.ne_nan).mpr (Binary64.rank_le_bound _)
    cases (if_pos hdue).symm.trans hnone

/-- What an advance to the last pending timer leads to: no timer is pending, or one has come up, or the
next advance reaches the last timer when this one has not. -/
theorem advance_latest (hs : s.clock.IsPunctual) (hnow : s.clock.now.isFinite)
    (hlatest : s.clock.latest? = some due) (h : advance (due - s.clock.now) s = (.ok (), s')) :
    s'.clock.latest? = none ∨ s'.clock.IsPunctual ∧ s'.clock.now.isFinite ∧
      (s'.workload < s.workload ∨ ¬ s.clock.Reaches ∧ s'.clock.Reaches ∧ s'.workload = s.workload) := by
  have hmoment := Binary64.isMoment_of_isFinite hnow
  obtain ⟨u, hu, rfl⟩ := Clock.exists_mem_of_latest? hlatest
  obtain ⟨t, rest, hqueue⟩ := List.exists_cons_of_ne_nil (List.ne_nil_of_mem hu)
  have hfirst : t.due ≤ u.due := hs.le_due hmoment hqueue hu
  generalize htarget : s.clock.now + (u.due - s.clock.now) = target
  have hreached : IsMoment target :=
    htarget ▸ hmoment.of_le (hmoment.le_add (Binary64.zero_le_sub hnow (hs.ahead u hu)))
  have hslack : target ≤ target + Clock.slack := hreached.le_add Clock.isTime_slack.zero_le
  have hnow' : s'.clock.now = target := htarget ▸ now_of_advanceTo h
  have hs' : s'.clock.IsPunctual := by
    have hpunctual := isPunctual_advance (u.due - s.clock.now) hs hmoment
    rw [h] at hpunctual
    exact hpunctual (hnow' ▸ hreached)
  -- no timer is left behind where the target has become infinite
  rcases hreached.isFinite_or.symm with hinfinite | hfinite
  · exact .inl (latest?_eq_none_of_infinite h hs' (hnow'.trans hinfinite))
  refine .inr ⟨hs', hnow' ▸ hfinite, ?_⟩
  by_cases hdue : t.due ≤ target + Clock.slack
  · have hless := workload_advance_lt hqueue (htarget ▸ hdue)
    rw [h] at hless
    exact .inl hless
  · -- the advance has fallen short of all timers, and so of the last
    have hlate := Binary64.le_of_not_le (Binary64.ne_nan_of_le hfirst).1 (Binary64.ne_nan_of_le hslack).2 hdue
    have hshort : target ≤ u.due := Binary64.le_trans (Binary64.le_trans hslack hlate) hfirst
    rw [advance_of_not_due hqueue (htarget ▸ hdue), htarget] at h
    obtain rfl := (Prod.mk.inj h).2
    refine .inr ⟨fun hreaches => hdue ?_, fun due hdue => ?_, workload_moved s target⟩
    · exact Binary64.le_trans hfirst (Binary64.le_trans (htarget ▸ hreaches u.due hlatest) hslack)
    · obtain rfl := Option.some.inj (hlatest.symm.trans hdue)
      exact Binary64.le_add_sub_of_le hnow htarget hfinite hshort

theorem runWithin_of_latest? (h : s.clock.latest? = none) (fuel : Nat) : runWithin fuel s = (.ok (), s) := by
  cases fuel with
  | zero => rfl
  | succ fuel => rw [runWithin, h]

/-- A number of advances is enough: more of them make no difference, and no timer is pending in the end. -/
def Settles (fuel : Nat) (s : Playback) : Prop :=
  (∀ fuel', fuel ≤ fuel' → runWithin fuel' s = runWithin fuel s) ∧
    ∀ s', runWithin fuel s = (.ok (), s') → s'.clock.latest? = none

theorem settles_of_latest? (h : s.clock.latest? = none) (fuel : Nat) : Settles fuel s := by
  refine ⟨fun fuel' _ => ?_, fun s' hs' => ?_⟩
  · rw [runWithin_of_latest? h, runWithin_of_latest? h]
  · rw [runWithin_of_latest? h] at hs'
    exact (Prod.mk.inj hs').2 ▸ h

/-- If what the next advance leads to is settled, so is what it starts from. -/
theorem settles_succ {fuel : Nat} (hlatest : s.clock.latest? = some due)
    (h : ∀ s', advance (due - s.clock.now) s = (.ok (), s') → Settles fuel s') : Settles (fuel + 1) s := by
  cases hadvance : advance (due - s.clock.now) s with
  | mk outcome next =>
    cases outcome with
    | error fault =>
      have hrun (k : Nat) : runWithin (k + 1) s = (.error fault, next) := by
        simp only [runWithin, hlatest, hadvance]
      refine ⟨fun fuel' hfuel => ?_, fun s' hs' => ?_⟩
      · obtain ⟨k, rfl⟩ := Nat.exists_eq_add_of_lt hfuel
        rw [hrun, hrun]
      · cases (hrun fuel).symm.trans hs'
    | ok =>
      have hrun (k : Nat) : runWithin (k + 1) s = runWithin k next := by
        simp only [runWithin, hlatest, hadvance]
      obtain ⟨hmore, hnone⟩ := h next hadvance
      refine ⟨fun fuel' hfuel => ?_, fun s' hs' => hnone s' ((hrun fuel).symm.trans hs')⟩
      obtain ⟨k, rfl⟩ := Nat.exists_eq_add_of_lt hfuel
      rw [hrun, hrun]
      exact hmore _ (by omega)

/-- Twice as many advances as timers can come up are enough, and one more if the next one may fall short
of the last timer. -/
theorem settles (fuel : Nat) (hs : s.clock.IsPunctual) (hnow : s.clock.now.isFinite)
    (hfuel : 2 * s.workload < fuel ∨ s.clock.Reaches ∧ 2 * s.workload ≤ fuel) : Settles fuel s := by
  -- of two advances in a row at least one lets a timer come up, as only the first can fall short
  induction fuel generalizing s with
  | zero =>
    have hqueue : s.clock.queue = [] := load_eq_zero (by have := load_le_workload s; omega)
    exact settles_of_latest? (Clock.latest?_of_nil hqueue) 0
  | succ fuel ih =>
    cases hlatest : s.clock.latest? with
    | none => exact settles_of_latest? hlatest _
    | some due =>
    refine settles_succ hlatest fun s' hadvance => ?_
    rcases advance_latest hs hnow hlatest hadvance with hnone | ⟨hs', hnow', hless | ⟨hnot, hreaches, hsame⟩⟩
    · exact settles_of_latest? hnone fuel
    · exact ih hs' hnow' (.inl (by omega))
    · have hmore := hfuel.resolve_right fun h => hnot h.1
      exact ih hs' hnow' (.inr ⟨hreaches, by omega⟩)

/-! ## Until no timer is pending -/

section RunAll

variable (hs : s.clock.IsPunctual) (hnow : s.clock.now.isFinite)
include hs hnow

/-- To allow for more advances makes no difference. -/
theorem runWithin_eq_runAll {fuel : Nat} (hfuel : 2 * s.workload < fuel) : runWithin fuel s = runAll s := by
  have hleast := (settles (2 * s.workload + 1) hs hnow (.inl (by omega))).1
  rw [runAll, hleast fuel hfuel, hleast (2 * s.workload + 2) (by omega)]

/-- When time has passed until no timer is pending, none is. -/
theorem latest?_eq_none_of_runAll (h : runAll s = (.ok (), s')) : s'.clock.latest? = none :=
  (settles (2 * s.workload + 2) hs hnow (.inl (by omega))).2 s' h

/-- As long as a timer is pending, time passes to the last one, and then the same again. -/
theorem runAll_eq :
    runAll s =
      match s.clock.latest? with
      | none => (.ok (), s)
      | some due =>
        match advance (due - s.clock.now) s with
        | (.error fault, s) => (.error fault, s)
        | (.ok (), s) => runAll s := by
  have hmore : runWithin (2 * s.workload + 2 + 1) s = runAll s := runWithin_eq_runAll hs hnow (by omega)
  rw [← hmore, runWithin]
  cases hlatest : s.clock.latest? with
  | none => rfl
  | some due =>
    dsimp only
    cases hadvance : advance (due - s.clock.now) s with
    | mk outcome next =>
      cases outcome with
      | error fault => rfl
      | ok =>
        dsimp only
        rcases advance_latest hs hnow hlatest hadvance with hnone | ⟨hs', hnow', hwork⟩
        · rw [runWithin_of_latest? hnone, runAll, runWithin_of_latest? hnone]
        · exact runWithin_eq_runAll hs' hnow' (by omega)

end RunAll

/-! ## Commands -/

theorem isPunctual_runWithin (fuel : Nat) (hs : s.clock.IsPunctual) (hnow : IsMoment s.clock.now)
    (hafter : IsMoment (runWithin fuel s).2.clock.now) : (runWithin fuel s).2.clock.IsPunctual := by
  induction fuel generalizing s with
  | zero => exact hs
  | succ fuel ih =>
    rw [runWithin] at hafter ⊢
    cases hlatest : s.clock.latest? with
    | none => exact hs
    | some due =>
      rw [hlatest] at hafter
      dsimp only at hafter ⊢
      have hadvance := isPunctual_advance (due - s.clock.now) hs hnow
      generalize advance (due - s.clock.now) s = advanced at hadvance hafter ⊢
      obtain ⟨_ | _, next⟩ := advanced
      · exact hadvance hafter
      · have hnext : IsMoment next.clock.now := by
          by_contra hnever
          exact not_isMoment_runWithin fuel hnever hafter
        exact ih (hadvance hnext) hnext hafter

/-- A command that is given at a moment leaves no timer overdue. -/
theorem isPunctual_perform (c : Command) (hs : s.clock.IsPunctual) (hnow : IsMoment s.clock.now)
    (hafter : IsMoment (perform c s).2.clock.now) : (perform c s).2.clock.IsPunctual := by
  by_cases hc : c.IsWait
  · cases c with
    | advance seconds =>
      rw [perform] at hafter ⊢
      split
      · next seconds heq =>
        rw [heq] at hafter
        exact isPunctual_advance seconds hs hnow hafter
      · exact hs
    | runAll => exact isPunctual_runWithin _ hs hnow hafter
    | play | stop | close | eligible | panic | assign | listen | resolve => exact hc.elim
  · exact (stepwise_stands.perform hc).isPunctual (isOrdered_performAll [c] hs.ordered) hnow hs

/-- At a moment, no timer is overdue. -/
theorem isPunctual_performAll (cs : List Command) (h : IsMoment s.clock.now → s.clock.IsPunctual)
    (hnow : IsMoment (performAll cs s).clock.now) : (performAll cs s).clock.IsPunctual := by
  induction cs generalizing s with
  | nil => exact h hnow
  | cons c cs ih =>
    refine ih (fun hnext => ?_) hnow
    by_cases hs : IsMoment s.clock.now
    · exact isPunctual_perform c (h hs) hs hnext
    · exact absurd hnext (not_isMoment_perform c hs)

end Monody.Playback
