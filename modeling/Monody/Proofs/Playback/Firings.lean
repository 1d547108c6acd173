import Monody.Proofs.Playback.Undisturbed

/-!
# The timers that come up

While time passes, timers come up one after another, and each finds playback in the state that those
before it have left. What holds before a timer comes up and is kept when it does therefore holds of all
of them, in whatever way time passes.

## Main definitions

* `Firing` — a timer that comes up, with the state in which it does
* `firings` — those that come up while commands are performed, in order
* `KeptByTime` — what is kept when the clock moves and when a timer comes up

## Main results

* `KeptByTime.perform` — it is kept by every command that lets time pass
* `KeptByTime.performAll`, `KeptByTime.firings` — and so by all commands, if the others keep it
* `KeptByTime.whenUp` — what follows from it for each timer when it comes up
-/

namespace Monody.Playback

open Clock

variable {s : Playback} {fs : List Firing}

/-- A timer that comes up, with the state in which it does: the clock is at its time, and it is no longer
pending. -/
structure Firing where
  timer : Timer Task
  state : Playback

/-- The timers that come up until a time is reached. -/
def firingsTo (target : Binary64) : Nat → Playback → List Firing
  | 0, _ => []
  | fuel + 1, s =>
    match s.clock.due? target with
    | none => []
    | some (timer, clock) =>
      ⟨timer, { s with clock }⟩ ::
        match fire emit timer { s with clock } with
        | (.error _, _) => []
        | (.ok (), s) => firingsTo target fuel s

/-- The timers that come up while some seconds pass. -/
def firingsIn (seconds : Binary64) (s : Playback) : List Firing :=
  firingsTo (s.clock.now + seconds) s.workload s

/-- The timers that come up until none is pending. -/
def firingsWithin : Nat → Playback → List Firing
  | 0, _ => []
  | fuel + 1, s =>
    match s.clock.latest? with
    | none => []
    | some due =>
      firingsIn (due - s.clock.now) s ++
        match advance (due - s.clock.now) s with
        | (.error _, _) => []
        | (.ok (), s) => firingsWithin fuel s

/-- The timers that come up while a command is performed. -/
def firingsBy (s : Playback) : Command → List Firing
  | .advance seconds =>
    match seconds.toReal with
    | .ok seconds => firingsIn seconds s
    | .error _ => []
  | .runAll => firingsWithin (2 * s.workload + 2) s
  | _ => []

/-- The timers that come up while commands are performed. -/
def firings : List Command → Playback → List Firing
  | [], _ => []
  | c :: cs, s => s.firingsBy c ++ firings cs (perform c s).2

/-- One of some timers and another is the last, or one of those before it. -/
theorem eq_last_or_of_concat_eq {before after : List Firing} {f g : Firing}
    (h : fs ++ [g] = before ++ f :: after) :
    (fs = before ∧ g = f ∧ after = []) ∨ ∃ after', fs = before ++ f :: after' ∧ after = after' ++ [g] := by
  rcases List.append_eq_append_iff.mp h with ⟨as, rfl, hlast⟩ | ⟨bs, rfl, hafter⟩
  · cases as with
    | nil =>
      obtain ⟨rfl, rfl⟩ := List.cons.inj hlast
      exact .inl ⟨(List.append_nil _).symm, rfl, rfl⟩
    | cons a as => cases as <;> cases (List.cons.inj hlast).2
  · cases bs with
    | nil =>
      obtain ⟨rfl, rfl⟩ := List.cons.inj hafter
      exact .inl ⟨List.append_nil _, rfl, rfl⟩
    | cons b bs =>
      obtain ⟨rfl, rfl⟩ := List.cons.inj hafter
      exact .inr ⟨bs, rfl, rfl⟩

/-- What holds of a state and of the timers that have come up before, and is kept when the clock moves
and when the next timer comes up. -/
structure KeptByTime (P : List Firing → Playback → Prop) : Prop where
  wait : ∀ {fs s}, P fs s → ∀ now, P fs (s.moved now s.clock.queue)
  up : ∀ {fs s t rest}, P fs s → s.clock.queue = t :: rest →
    ∀ next, next = s.moved (if t.cancelled then s.clock.now else t.due) rest →
      P (fs ++ [⟨t, next⟩]) (fire emit t next).2

namespace KeptByTime

variable {P : List Firing → Playback → Prop} (hP : KeptByTime P)
include hP

theorem advanceTo (hs : P fs s) (target : Binary64) (fuel : Nat) :
    P (fs ++ firingsTo target fuel s) (advanceTo target fuel s).2 := by
  -- by the recursion of the run; what it and its firings do with the next timer is the same
  induction fuel generalizing fs s with
  | zero =>
    rw [firingsTo, List.append_nil]
    exact hP.wait hs target
  | succ fuel ih =>
    cases hqueue : s.clock.queue with
    | nil =>
      have hnone : s.clock.due? target = none := by rw [due?, hqueue]
      rw [advanceTo_nil _ _ hqueue, ← hqueue, firingsTo, hnone, List.append_nil]
      exact hP.wait hs target
    | cons t rest =>
      by_cases hdue : t.due ≤ target + slack
      · have hnext := hP.up hs hqueue _ rfl
        have hsome : s.clock.due? target = some (t, { s.clock with
            now := if t.cancelled then s.clock.now else t.due, queue := rest }) := by
          rw [due?, hqueue]
          exact if_pos hdue
        rw [advanceTo_of_due fuel hqueue hdue, firingsTo, hsome]
        dsimp only
        rw [← moved]
        generalize s.moved (if t.cancelled then s.clock.now else t.due) rest = next at hnext ⊢
        generalize fire emit t next = result at hnext ⊢
        obtain ⟨outcome, s'⟩ := result
        cases outcome with
        | error fault => exact hnext
        | ok =>
          rw [List.append_cons]
          exact ih hnext
      · have hnone : s.clock.due? target = none := by
          rw [due?, hqueue]
          exact if_neg hdue
        rw [advanceTo_of_not_due _ hqueue hdue, ← hqueue, firingsTo, hnone, List.append_nil]
        exact hP.wait hs target

theorem advance (hs : P fs s) (seconds : Binary64) :
    P (fs ++ firingsIn seconds s) (advance seconds s).2 :=
  hP.advanceTo hs _ _

theorem runWithin (hs : P fs s) (fuel : Nat) :
    P (fs ++ firingsWithin fuel s) (runWithin fuel s).2 := by
  induction fuel generalizing fs s with
  | zero =>
    rw [firingsWithin, List.append_nil]
    exact hs
  | succ fuel ih =>
    rw [firingsWithin, Playback.runWithin]
    cases s.clock.latest? with
    | none =>
      rw [List.append_nil]
      exact hs
    | some due =>
      have hadvance := hP.advance hs (due - s.clock.now)
      dsimp only
      -- a fault ends the run, and what has come up until then has been counted
      generalize Playback.advance (due - s.clock.now) s = result at hadvance ⊢
      obtain ⟨outcome, s'⟩ := result
      cases outcome with
      | error fault => rwa [List.append_nil]
      | ok =>
        rw [← List.append_assoc]
        exact ih hadvance

/-- A command that lets time pass, or is refused for its seconds. -/
theorem perform (hs : P fs s) {c : Command} (hc : c.IsWait) :
    P (fs ++ s.firingsBy c) (perform c s).2 := by
  cases c with
  | advance seconds =>
    rw [firingsBy, Playback.perform]
    cases seconds.toReal with
    | ok seconds => exact hP.advance hs seconds
    | error fault =>
      rw [List.append_nil]
      exact hs
  | runAll => exact hP.runWithin hs _
  | play | stop | eligible | panic | close | assign | listen | resolve => exact hc.elim

/-- What the other commands keep as well is kept by all commands. -/
theorem performAll (allowed : Command → Prop)
    (other : ∀ {fs s c}, allowed c → ¬ c.IsWait → P fs s → P fs (Playback.perform c s).2)
    {cs : List Command} (hcs : ∀ c ∈ cs, allowed c) (hs : P fs s) :
    P (fs ++ firings cs s) (performAll cs s) := by
  induction cs generalizing fs s with
  | nil =>
    rw [firings, List.append_nil]
    exact hs
  | cons c cs ih =>
    obtain ⟨hc, hcs⟩ := List.forall_mem_cons.mp hcs
    have hnext : P (fs ++ s.firingsBy c) (Playback.perform c s).2 := by
      cases c with
      | advance | runAll => exact hP.perform hs trivial
      | play | stop | eligible | panic | close | assign | listen | resolve =>
        have hother := other hc not_false hs
        rwa [← List.append_nil fs] at hother
    rw [firings, ← List.append_assoc]
    exact ih hcs hnext

/-- What holds at first holds of all timers that come up from then on. -/
theorem firings (allowed : Command → Prop)
    (other : ∀ {fs s c}, allowed c → ¬ c.IsWait → P fs s → P fs (Playback.perform c s).2)
    {cs : List Command} (hcs : ∀ c ∈ cs, allowed c) (hs : P [] s) :
    P (firings cs s) (Playback.performAll cs s) :=
  List.nil_append (Playback.firings cs s) ▸ hP.performAll allowed other hcs hs

/-- What follows for a timer that comes up is true of all that have. -/
theorem whenUp {Q : List Firing → Firing → Prop}
    (hQ : ∀ {fs s t rest}, P fs s → s.clock.queue = t :: rest →
      ∀ next, next = s.moved (if t.cancelled then s.clock.now else t.due) rest → Q fs ⟨t, next⟩) :
    KeptByTime fun fs s => P fs s ∧ ∀ before f after, fs = before ++ f :: after → Q before f where
  wait h now := ⟨hP.wait h.1 now, h.2⟩
  up := by
    rintro fs s t rest ⟨hs, hfs⟩ hqueue next hnext
    refine ⟨hP.up hs hqueue next hnext, fun before f after heq => ?_⟩
    rcases eq_last_or_of_concat_eq heq with ⟨rfl, rfl, -⟩ | ⟨after, rfl, -⟩
    · exact hQ hs hqueue next hnext
    · exact hfs before f after rfl

end KeptByTime

end Monody.Playback
