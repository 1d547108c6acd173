import Monody.Proofs.Binary64.Whole
import Monody.Proofs.Playback.Faults
import Monody.Proofs.Playback.Programme

/-!
# Who enters a session

Those of a cast who have plans enter a session one after another, up to the first who has none. Whatever
the speed is, and whenever the session starts, none of them sets a timer that is due after those he sets
later: at a speed that is no finite number all of them are due at once.

## Main definitions

* `Plan.Renders` — the plan strikes the notes of a melody and ends with it
* `Lineup` — the plans of those who have entered

## Main results

* `Lineup.noLater_due` — the timers of a plan are set in turn, and before the one that completes the session
* `exists_enterAll` — who has entered, and by which plans
-/

namespace Monody.Playback

open Binary64 Clock

-- evaluated, the numbers of units are too long to be looked at
attribute [local irreducible] one bound

variable {s : Playback} {id : Nat} {plan : Plan} {plans : List Plan} {speed : Number} {m : Melody}
  {r x y now : Binary64} {cast : List (Nat × Nat)} {melodies : List Melody}

/-! ## Times at any speed -/

/-- At a speed that is no finite number, nothing takes any time. -/
theorem max_zero_secondsBy (hr : r = .nan ∨ r = .infinite false) (hx : IsTime x) :
    Binary64.max 0 (secondsBy r x) = 0 := by
  have hnan : Binary64.max 0 nan = 0 := if_neg fun h => (ne_nan_of_order h).2 rfl
  have hzero : Binary64.max 0 (Binary64.finite false 0 fits_zero / .ofInt 1000) = 0 := by decide +kernel
  rcases hr with rfl | rfl
  · cases hx <;> exact hnan
  · cases hx with
    | infinite => exact hnan
    | finite => exact hzero

/-- What starts later in a melody starts later at any speed. -/
theorem max_zero_secondsBy_le (hspeed : ¬ speed ≤ 0) (hr : speed.toReal = .ok r) (hx : IsTime x)
    (hy : IsTime y) (h : x ≤ y) :
    Binary64.max 0 (secondsBy r x) ≤ Binary64.max 0 (secondsBy r y) := by
  rcases isFinite_or_of_not_le hspeed hr with ⟨hfinite, hpos⟩ | hspecial
  · rw [(isTime_secondsBy hfinite hpos hx).max_zero, (isTime_secondsBy hfinite hpos hy).max_zero]
    exact secondsBy_le hfinite hpos hx hy h
  · rw [max_zero_secondsBy hspecial hx, max_zero_secondsBy hspecial hy]
    exact Binary64.le_refl isTime_zero.ne_nan

/-- What starts later in a melody comes up no earlier, whenever the session starts. -/
theorem noLater_timerAfter (hspeed : ¬ speed ≤ 0) (hr : speed.toReal = .ok r) (hx : IsTime x)
    (hy : IsTime y) (h : x ≤ y) (now : Binary64) (id : Nat) (task task' : Task) :
    NoLater (timerAfter now (secondsBy r x) id task).due
      (timerAfter now (secondsBy r y) id task').due :=
  (isTime_zero_max _).noLater_add now (isTime_zero_max _) (max_zero_secondsBy_le hspeed hr hx hy h)

/-! ## The plans of those who enter -/

/-- The plan strikes the notes of a melody and ends with it. -/
structure Plan.Renders (r : Binary64) (m : Melody) (plan : Plan) : Prop where
  strikes : plan.strikes = m.placedNotes.map fun p => (secondsBy r p.1.start, p.2)
  ends : plan.part.ends = secondsBy r m.total

/-- The plans of those who have entered a session: each of them renders a score, and no two are for one
place. -/
structure Lineup (speed : Number) (plans : List Plan) : Prop where
  nodup : (plans.map (·.part.index)).Nodup
  plan : ∀ plan ∈ plans, ∃ r text m, speed.toReal = .ok r ∧ Melody.parse text = .ok m ∧
    plan.Renders r m

theorem renders_of_planOf {index performer : Nat} {v : Voice} (hspeed : ¬ speed ≤ 0)
    (h : planOf speed index performer v = .ok plan) :
    plan.part.index = index ∧ ∃ r, speed.toReal = .ok r ∧ plan.Renders r v.melody := by
  obtain ⟨velocity, hvelocity, -⟩ := exists_of_bind_eq_ok h
  obtain ⟨r, hr⟩ := exists_toReal_of_planOf h
  have hplan := planOf_of_isZero_eq_false hr (isZero_eq_false_of_not_le hspeed hr)
    (mapError_eq_ok_iff.mp hvelocity) index performer
  obtain rfl := Except.ok.inj (hplan.symm.trans h)
  exact ⟨rfl, r, hr, rfl, rfl⟩

namespace Lineup

variable (h : Lineup speed plans) (hspeed : ¬ speed ≤ 0)
include h hspeed

/-- No part ends after the session. -/
theorem max_zero_ends_le (hplan : plan ∈ plans) :
    Binary64.max 0 plan.part.ends ≤ Binary64.max 0 (assembled speed plans).lastEnd := by
  obtain ⟨r, -, -, hr, -, -⟩ := h.plan plan hplan
  have hends : ∀ q ∈ plans, ∃ x, IsTime x ∧ q.part.ends = secondsBy r x := by
    intro q hq
    obtain ⟨r', text, m, hr', hparse, hrenders⟩ := h.plan q hq
    obtain rfl := Except.ok.inj (hr.symm.trans hr')
    exact ⟨m.total, (Melody.stop_le_total hparse).1, hrenders.ends⟩
  rcases isFinite_or_of_not_le hspeed hr with ⟨hfinite, hpos⟩ | hspecial
  · have htimes : ∀ q ∈ plans, IsTime q.part.ends := by
      intro q hq
      obtain ⟨x, hx, heq⟩ := hends q hq
      exact heq ▸ isTime_secondsBy hfinite hpos hx
    obtain ⟨hlast, hle⟩ := ends_le_lastEnd speed htimes
    rw [(htimes plan hplan).max_zero, hlast.max_zero]
    exact hle plan hplan
  · -- no part takes any time, and so neither does the session
    have hnone : ∀ q ∈ plans, Binary64.max 0 q.part.ends = 0 := by
      intro q hq
      obtain ⟨x, hx, heq⟩ := hends q hq
      rw [heq, max_zero_secondsBy hspecial hx]
    rw [hnone plan hplan]
    exact (isTime_zero_max _).zero_le

/-- The timers of a plan are set in turn, and before the one that completes the session. -/
theorem noLater_due (hplan : plan ∈ plans) (now : Binary64) (id : Nat) :
    (plan.timers now id).Pairwise (fun t u => NoLater t.due u.due) ∧
      ∀ t ∈ plan.timers now id,
        NoLater t.due (timerAfter now (assembled speed plans).lastEnd id .complete).due := by
  obtain ⟨r, text, m, hr, hparse, hrenders⟩ := h.plan plan hplan
  obtain ⟨htotal, hstops⟩ := Melody.stop_le_total hparse
  -- every note starts at a time, and none after the end of the melody
  have hstart : ∀ p ∈ m.placedNotes, IsTime p.1.start ∧ p.1.start ≤ m.total := by
    intro p hp
    obtain ⟨hevent, hplay⟩ := Melody.mem_placedNotes.mp hp
    have hmem := List.mem_of_getElem? hevent
    have hafter := (Melody.isAfter_of_parse hparse).1 p.1 hmem
    exact ⟨hafter.start, Binary64.le_trans hafter.start_le_stop
      (hstops p.1 hmem (Melody.Event.isComment_of_isPlayable hplay))⟩
  have hlast (task : Task) : NoLater (timerAfter now plan.part.ends id task).due
      (timerAfter now (assembled speed plans).lastEnd id .complete).due :=
    (isTime_zero_max _).noLater_add now (isTime_zero_max _) (h.max_zero_ends_le hspeed hplan)
  have hends {p : Melody.Event × Nat} (hp : p ∈ m.placedNotes) (task task' : Task) :
      NoLater (timerAfter now (secondsBy r p.1.start) id task).due
        (timerAfter now plan.part.ends id task').due := by
    rw [hrenders.ends]
    exact noLater_timerAfter hspeed hr (hstart p hp).1 htotal (hstart p hp).2 now id task task'
  rw [Plan.timers, hrenders.strikes, List.map_map]
  refine ⟨List.pairwise_append.mpr ⟨List.pairwise_map.mpr ?_, List.pairwise_singleton .., ?_⟩, ?_⟩
  · refine (Melody.pairwise_start_placedNotes hparse).imp_of_mem fun {p q} hp hq hle => ?_
    exact noLater_timerAfter hspeed hr (hstart p hp).1 (hstart q hq).1 hle now id _ _
  · intro t ht u hu
    obtain ⟨p, hp, rfl⟩ := List.mem_map.mp ht
    obtain rfl := List.mem_singleton.mp hu
    exact hends hp _ _
  · intro t ht
    rcases List.mem_append.mp ht with ht | ht
    · obtain ⟨p, hp, rfl⟩ := List.mem_map.mp ht
      exact (hends hp _ .complete).trans (hlast .complete)
    · obtain rfl := List.mem_singleton.mp ht
      exact hlast _

end Lineup

/-! ## Entering -/

/-- Whether or not there is a connection, who enters leaves only messages besides. -/
theorem exists_enter_eq (id : Nat) (plan : Plan) (s : Playback) :
    ∃ log, enter id plan s = { entered id [plan] s with log } := by
  have houtput := Output.programChange_output (o := s.output) plan.part.channel.val plan.program.val
  refine ⟨(enter id plan s).log, ?_⟩
  simp only [enter, foldl_after_eq, entered, Plan.timers, List.flatMap_cons, List.flatMap_nil,
    List.append_nil, insertAll_append, through, update, houtput]
  rfl

/-- No two of a cast are for one place. -/
theorem nodup_castOf (s : Playback) (performers : List Nat) :
    ((s.castOf performers).map (·.1)).Nodup := by
  rw [castOf, List.map_filterMap]
  refine (nodup_eligible _).filterMap fun i j k hk hk' => ?_
  obtain ⟨c, hc, rfl⟩ := Option.map_eq_some_iff.mp hk
  obtain ⟨c', hc', heq⟩ := Option.map_eq_some_iff.mp hk'
  obtain ⟨x, -, rfl⟩ := Option.map_eq_some_iff.mp hc
  obtain ⟨x', -, rfl⟩ := Option.map_eq_some_iff.mp hc'
  exact heq.symm

/-- Those of a cast who enter do so by plans, in their order, and nothing else changes but the log. -/
theorem exists_enterAll_sublist (hspeed : ¬ speed ≤ 0) (id : Nat) (cast : List (Nat × Nat))
    (hvoices : ∀ i, ∀ v ∈ s.voice? i, ∃ text, Melody.parse text = .ok v.melody) :
    ∃ plans log, (enterAll id speed cast s).2 = { entered id plans s with log } ∧
      (plans.map (·.part.index)).Sublist (cast.map (·.1)) ∧
      ∀ plan ∈ plans, ∃ r text m, speed.toReal = .ok r ∧ Melody.parse text = .ok m ∧
        plan.Renders r m := by
  induction cast generalizing s with
  | nil => exact ⟨[], s.log, by rw [entered_nil]; rfl, .slnil, fun _ h => absurd h List.not_mem_nil⟩
  | cons place rest ih =>
    obtain ⟨index, performer⟩ := place
    rw [enterAll]
    cases hp : s.performers[performer]? with
    | none =>
      obtain ⟨plans, log, heq, hsub, hplans⟩ := ih hvoices
      exact ⟨plans, log, heq, hsub.cons _, hplans⟩
    | some p =>
      dsimp only
      cases hplan : planOf speed index performer p.voice with
      | error fault =>
        -- whoever comes after the first without a plan does not enter
        exact ⟨[], s.log, by rw [entered_nil], List.nil_sublist _, fun _ h => absurd h List.not_mem_nil⟩
      | ok plan =>
        obtain ⟨rfl, r, hr, hrenders⟩ := renders_of_planOf hspeed hplan
        obtain ⟨text, hparse⟩ := hvoices performer p.voice (by rw [voice?, hp]; rfl)
        obtain ⟨log₁, henter⟩ := exists_enter_eq id plan s
        have hvoices' : ∀ i, ∀ v ∈ (enter id plan s).voice? i,
            ∃ text, Melody.parse text = .ok v.melody := by
          intro i v hv
          rw [voice?, enter_performers] at hv
          exact hvoices i v hv
        obtain ⟨plans, log, heq, hsub, hplans⟩ := ih hvoices'
        refine ⟨plan :: plans, log, ?_, hsub.cons_cons _, ?_⟩
        · rw [← entered_cons]
          dsimp only
          rw [heq, henter]
          rfl
        · exact List.forall_mem_cons.mpr ⟨⟨r, text, _, hr, hparse, hrenders⟩, hplans⟩

/-- Those of a cast who enter make a lineup. -/
theorem exists_enterAll (hspeed : ¬ speed ≤ 0) (id : Nat)
    (hvoices : ∀ i, ∀ v ∈ s.voice? i, ∃ text, Melody.parse text = .ok v.melody)
    (hcast : (cast.map (·.1)).Nodup) :
    ∃ plans log, (enterAll id speed cast s).2 = { entered id plans s with log } ∧
      Lineup speed plans := by
  obtain ⟨plans, log, heq, hsub, hplans⟩ := exists_enterAll_sublist hspeed id cast hvoices
  exact ⟨plans, log, heq, hsub.nodup hcast, hplans⟩

end Monody.Playback
