import Monody.Proofs.Playback.Opening
import Monody.Proofs.Playback.Resources
import Monody.Proofs.Playback.Undisturbed

/-!
# What a session is to play

The timers that are set when a session starts foretell all that it is to play. Those of one part come
up in the order in which they are set, whatever the other parts do: its notes in the order of the
melody, and then its end. The timer that completes the session comes up after all of them.

## Main definitions

* `IsReady` — playback where a session can be started
* `Stroke` — a note that is struck

## Main results

* `foretold_opening` — the timers of a part come up as they were set
* `ending_opening` — the timer that completes the session comes up last
* `underway_opening` — a session is underway when it starts
-/

namespace Monody.Playback

open Binary64 Clock Melody

variable {s : Playback} {id : Nat} {plan : Plan} {plans : List Plan} {speed : Number}
  {r now : Binary64} {voices : List Voice} {v : Voice} {t : Timer Task} {p : Event × Nat}

/-- No session is active, no timer is pending, and none that has been cancelled is in the way; there is
a connection, and the listeners only log. -/
structure IsReady (s : Playback) : Prop where
  idle : s.current = none
  cancels : s.clock.cancels = true
  timers : s.clock.timers = []
  numbers : ∀ t ∈ s.clock.queue, t.due ≠ .nan
  connected : s.output.isOpen = true
  logging : s.IsLogging

/-- Playback where nothing has happened is ready. -/
theorem isReady_start {output : Output} {listeners : List Listener} (voices : List Voice)
    (defaultSpeed : Number) (hopen : output.isOpen = true)
    (hlisteners : ∀ l ∈ listeners, l.reaction = .log) :
    (start output voices listeners defaultSpeed true).IsReady where
  idle := rfl
  cancels := rfl
  timers := rfl
  numbers _ ht := absurd ht List.not_mem_nil
  connected := hopen
  logging := hlisteners

/-- Where playback leaves nothing behind, no timer is pending if no session is active. -/
theorem IsOrderly.isReady (hs : s.IsOrderly) (hidle : s.current = none)
    (hcancels : s.clock.cancels = true) (hnumbers : ∀ t ∈ s.clock.queue, t.due ≠ .nan)
    (hopen : s.output.isOpen = true) (hlogging : s.IsLogging) : s.IsReady where
  idle := hidle
  cancels := hcancels
  timers := by
    rw [IsOrderly, hidle] at hs
    exact hs.timers
  numbers := hnumbers
  connected := hopen
  logging := hlogging

/-! ## Strokes -/

/-- A note that is struck at an event, and the seconds that it sounds. -/
structure Stroke where
  event : Nat
  note : Midi.Data
  seconds : Binary64

/-- The stroke of a note of a voice. -/
structure Stroke.IsOf (speed : Number) (v : Voice) (p : Event × Nat) (k : Stroke) : Prop where
  event : k.event = p.2
  note : noteOf p.1 = .ok (some k.note)
  seconds : soundingSeconds speed v.instrument.gate p.1 = .ok k.seconds

/-- The stroke of a note is what its part strikes in the session. -/
theorem exists_stroke (plans : List Plan) (hr : speed.toReal = .ok r) (hpos : 0 < r)
    (hplan : plan.IsFor s r v) (hp : p ∈ v.melody.placedNotes) :
    ∃ k : Stroke, k.IsOf speed v p ∧
      (s.opening speed plans).stroke? s.sessions.length plan.part p.2 = some (k.note, k.seconds) := by
  obtain ⟨note, hnote⟩ := exists_noteOf hplan.performable hp
  have hseconds := secondsAt_eq hr hpos (p.1.duration * v.instrument.gate)
  refine ⟨⟨p.2, note, _⟩, ⟨rfl, hnote, hseconds⟩, stroke?_eq_some_iff.mpr ⟨p.1, speed, ?_, hnote, ?_⟩⟩
  · obtain ⟨performer, hperformer, rfl⟩ := Option.map_eq_some_iff.mp hplan.performer
    have hperformer' : (s.opening speed plans).performers[plan.part.performer]? = some performer :=
      hperformer
    have hsession : (s.opening speed plans).sessions[s.sessions.length]? = some _ :=
      List.getElem?_concat_length
    rw [eventAt?, hperformer', hsession]
    exact congrArg (·.bind fun e => some (e, speed)) (mem_placedNotes.mp hp).1
  · have hgate : plan.part.gate = v.instrument.gate := congrArg (·.part.gate) hplan.eq
    rw [hgate]
    exact hseconds

/-! ## The timers -/

/-- A timer of a plan is one of the session for the part. -/
theorem Plan.part_of_mem_timers {t : Timer Task} (ht : t ∈ plan.timers now id) :
    t.task.part? = some plan.part ∧ t.owner = id ∧ t.cancelled = false := by
  rcases List.mem_append.mp ht with ht | ht
  · obtain ⟨k, -, rfl⟩ := List.mem_map.mp ht
    exact ⟨rfl, rfl, rfl⟩
  · obtain rfl := List.mem_singleton.mp ht
    exact ⟨rfl, rfl, rfl⟩

theorem mem_agenda : t ∈ agenda now id speed plans ↔
    (∃ plan ∈ plans, t ∈ plan.timers now id) ∨
      t = timerAfter now (assembled speed plans).lastEnd id .complete := by
  rw [agenda, List.mem_append, List.mem_flatMap, List.mem_singleton]

/-- A timer that is set at the start is a timer of the session. -/
theorem owner_of_mem_agenda (h : t ∈ agenda now id speed plans) :
    t.owner = id ∧ t.cancelled = false := by
  rcases mem_agenda.mp h with ⟨plan, -, h⟩ | rfl
  · exact ⟨(Plan.part_of_mem_timers h).2.1, (Plan.part_of_mem_timers h).2.2⟩
  · exact ⟨rfl, rfl⟩

/-- The timers that are pending when the session starts are those that are set then. -/
theorem mem_timers_opening (htimers : s.clock.timers = []) :
    t ∈ (s.opening speed plans).clock.timers ↔ t ∈ agenda s.clock.now s.sessions.length speed plans := by
  rw [mem_timers_iff]
  constructor
  · rintro ⟨ht, hlive⟩
    refine (mem_insertAll.mp ht).resolve_right fun hold => ?_
    exact List.not_mem_nil (htimers ▸ mem_timers_iff.mpr ⟨hold, hlive⟩)
  · exact fun ht => ⟨mem_insertAll.mpr (.inl ht), (owner_of_mem_agenda ht).2⟩

theorem inTurn_of_timers {c : Clock Task} (htimers : c.timers = []) : InTurn c.queue := by
  refine inTurn_of_cancelled fun u hu => Bool.not_eq_false _ ▸ fun hlive => ?_
  exact List.not_mem_nil (htimers ▸ mem_timers_iff.mpr ⟨hu, hlive⟩)

/-- Times that are due are finite only if they are counted from a finite one. -/
theorem isFinite_now (htimers : s.clock.timers = [])
    (hdue : ∀ t ∈ (s.opening speed plans).clock.timers, t.due.isFinite) : s.clock.now.isFinite :=
  isFinite_of_isFinite_add (hdue _ ((mem_timers_opening htimers).mpr (mem_agenda.mpr (.inr rfl))))

/-- No part holds a note when the session starts. -/
theorem heldBy_opening (speed : Number) (plans : List Plan) (s : Playback) (part : Part) :
    (s.opening speed plans).heldBy s.sessions.length part = none := by
  have hnew : (s.opening speed plans).sessions[s.sessions.length]? = some _ :=
    List.getElem?_concat_length
  exact heldBy_eq hnew part

/-- No part ends after the session. -/
theorem ends_le_lastEnd (speed : Number) (h : ∀ plan ∈ plans, IsTime plan.part.ends) :
    IsTime (assembled speed plans).lastEnd ∧
      ∀ plan ∈ plans, plan.part.ends ≤ (assembled speed plans).lastEnd := by
  have hlatest : (assembled speed plans).lastEnd = latest ((plans.map (·.part)).map (·.ends)) := rfl
  have htimes : ∀ x ∈ (plans.map (·.part)).map (·.ends), IsTime x := by
    intro x hx
    obtain ⟨part, hpart, rfl⟩ := List.mem_map.mp hx
    obtain ⟨plan, hplan, rfl⟩ := List.mem_map.mp hpart
    exact h plan hplan
  obtain ⟨hlast, hle⟩ := le_latest htimes
  rw [hlatest]
  exact ⟨hlast, fun plan hplan => hle _ (List.mem_map_of_mem (List.mem_map_of_mem hplan))⟩

theorem foretold_timers {β : Type} (f : Task → List β) (now : Binary64) (id : Nat) (plan : Plan) :
    foretold f (plan.timers now id) =
      plan.strikes.flatMap (fun k => f (.strike plan.part k.2)) ++ f (.endPart plan.part) := by
  rw [Plan.timers, foretold_append, foretold, List.flatMap_map, foretold_cons_of_pending rfl,
    foretold_nil, List.append_nil]
  rfl

/-! ## The opening -/

/-- Parts for fifteen voices can be told apart, and they are heard. -/
theorem Forms.isEnsemble (hforms : Forms s r voices plans) (hcount : voices.length ≤ 15) :
    IsEnsemble (plans.map (·.part)) where
  eq_of_channel p hp q hq hchannel := by
    obtain ⟨plan, hplan, rfl⟩ := List.mem_map.mp hp
    obtain ⟨plan', hplan', rfl⟩ := List.mem_map.mp hq
    rw [hforms.eq_of_channel hcount hplan hplan' hchannel]
  eq_of_index p hp q hq hindex := by
    obtain ⟨plan, hplan, rfl⟩ := List.mem_map.mp hp
    obtain ⟨plan', hplan', rfl⟩ := List.mem_map.mp hq
    rw [hforms.eq_of_index hplan hplan' hindex]
  audible p hp := by
    obtain ⟨plan, hplan, rfl⟩ := List.mem_map.mp hp
    obtain ⟨v, -, hfor⟩ := hforms.plan plan hplan
    exact hfor.audible

section Agenda

variable {β : Type} {f : Task → List β} (hnodup : (plans.map (·.part.index)).Nodup)
  (hplan : plan ∈ plans)
  (hothers : ∀ q ∈ plans, q ≠ plan → ∀ task, task.part? = some q.part → f task = [])
include hnodup hplan hothers

/-- What the timers of all parts are to bring about for one of them. -/
theorem foretold_flatMap_timers :
    foretold f (plans.flatMap (·.timers now id)) =
      plan.strikes.flatMap (fun k => f (.strike plan.part k.2)) ++ f (.endPart plan.part) := by
  obtain ⟨before, after, rfl⟩ := List.append_of_mem hplan
  obtain ⟨hbefore, hafter⟩ := Plan.ne_of_append hnodup
  -- the timers of the other parts bring about nothing of the kind
  have hnone {qs : List Plan} (hqs : ∀ q ∈ qs, q ∈ before ++ plan :: after ∧ q ≠ plan) :
      foretold f (qs.flatMap (·.timers now id)) = [] := by
    refine foretold_eq_nil_iff.mpr fun t ht _ => ?_
    obtain ⟨q, hq, ht⟩ := List.mem_flatMap.mp ht
    exact hothers q (hqs q hq).1 (hqs q hq).2 t.task (Plan.part_of_mem_timers ht).1
  rw [List.flatMap_append, List.flatMap_cons, foretold_append, foretold_append,
    hnone fun q hq => ⟨List.mem_append_left _ hq, hbefore q hq⟩,
    hnone fun q hq => ⟨List.mem_append_right _ (List.mem_cons_of_mem plan hq), hafter q hq⟩,
    foretold_timers, List.nil_append, List.append_nil]

/-- What the timers that are set at the start are to bring about for one part, and then for all. -/
theorem foretold_agenda :
    foretold f (agenda now id speed plans) =
      plan.strikes.flatMap (fun k => f (.strike plan.part k.2)) ++
        (f (.endPart plan.part) ++ f .complete) := by
  rw [agenda, foretold_append, foretold_flatMap_timers hnodup hplan hothers,
    foretold_cons_of_pending rfl, foretold_nil, List.append_nil, List.append_assoc]
  rfl

/-- Of the timers that are set at the start, those of one part and the last are set in turn. -/
theorem pairwise_agenda
    (hturn : (plan.timers now id).Pairwise fun t u => NoLater t.due u.due)
    (hlast : ∀ t ∈ plan.timers now id,
      NoLater t.due (timerAfter now (assembled speed plans).lastEnd id .complete).due) :
    (agenda now id speed plans).Pairwise fun t u =>
      f t.task ≠ [] → f u.task ≠ [] → NoLater t.due u.due := by
  -- of the timers of other parts none counts
  have hself {q : Plan} (hq : q ∈ plans) {t : Timer Task} (ht : t ∈ q.timers now id)
      (hne : f t.task ≠ []) : q = plan := by
    by_contra hother
    exact hne (hothers q hq hother t.task (Plan.part_of_mem_timers ht).1)
  refine List.pairwise_append.mpr ⟨List.pairwise_flatMap.mpr ⟨fun q hq => ?_, ?_⟩,
    List.pairwise_singleton .., fun t ht u hu hne _ => ?_⟩
  · by_cases hqp : q = plan
    · subst hqp
      exact hturn.imp fun hdue _ _ => hdue
    · exact List.pairwise_of_forall_mem_list fun t ht u _ hne => absurd (hself hq ht hne) hqp
  · refine (List.Nodup.of_map _ hnodup).imp_of_mem fun {q q'} hq hq' hne t ht u hu ht' hu' => ?_
    exact absurd ((hself hq ht ht').trans (hself hq' hu hu').symm) hne
  · obtain ⟨q, hq, ht⟩ := List.mem_flatMap.mp ht
    obtain rfl := hself hq ht hne
    obtain rfl := List.mem_singleton.mp hu
    exact hlast t ht

end Agenda

section Opening

variable (hs : s.IsReady) (hforms : Forms s r voices plans) (hfinite : r.isFinite) (hpos : 0 < r)
include hs hforms hfinite hpos

/-- The timers of a part come up as they were set. -/
theorem foretold_opening {β : Type} {f : Task → List β} (hnow : s.clock.now.isFinite)
    (hplan : plan ∈ plans) (hcomplete : f .complete = [])
    (hothers : ∀ q ∈ plans, q ≠ plan → ∀ task, task.part? = some q.part → f task = []) :
    foretold f (s.opening speed plans).clock.queue =
      plan.strikes.flatMap (fun k => f (.strike plan.part k.2)) ++ f (.endPart plan.part) := by
  have hqueue : (s.opening speed plans).clock.queue =
      insertAll (agenda s.clock.now s.sessions.length speed plans) s.clock.queue := rfl
  obtain ⟨v, -, hfor⟩ := hforms.plan plan hplan
  have hends : ∀ q ∈ plans, IsTime q.part.ends := by
    intro q hq
    obtain ⟨w, -, hw⟩ := hforms.plan q hq
    exact hw.isTime_ends hfinite hpos
  obtain ⟨hlast, hle⟩ := ends_le_lastEnd speed hends
  have hturn : (plan.timers s.clock.now s.sessions.length).Pairwise fun t u => NoLater t.due u.due :=
    (hfor.pairwise_due hfinite hpos hnow).imp noLater_of_le
  have hpairwise := pairwise_agenda hforms.nodup_indices hplan hothers hturn fun t ht =>
    noLater_of_le (hfor.due_le hfinite hpos hnow hlast (hle plan hplan) .complete t ht)
  rw [hqueue, foretold_insertAll (inTurn_of_timers hs.timers) (foretold_eq_nil_of_timers hs.timers)
    hpairwise, foretold_agenda hforms.nodup_indices hplan hothers, hcomplete, List.append_nil]

/-- The session is complete after all else that is reported. -/
theorem ending_opening (hnow : s.clock.now.isFinite)
    (stroke : Part → Nat → Option (Midi.Data × Binary64)) :
    ∃ before, foretold (·.reports stroke) (s.opening speed plans).clock.queue = before ++ [.complete] ∧
      Report.complete ∉ before := by
  generalize hid : s.sessions.length = id
  have hqueue : (s.opening speed plans).clock.queue =
      Clock.insert (timerAfter s.clock.now (assembled speed plans).lastEnd id .complete)
        (insertAll (plans.flatMap (·.timers s.clock.now id)) s.clock.queue) := by
    rw [← hid]
    exact insertAll_append ..
  -- each of the other timers is one of a plan
  have hothers : ∀ u ∈ insertAll (plans.flatMap (·.timers s.clock.now id)) s.clock.queue,
      u.cancelled = false → ∃ plan ∈ plans, u ∈ plan.timers s.clock.now id := by
    intro u hu hlive
    rcases mem_insertAll.mp hu with hu | hu
    · exact List.mem_flatMap.mp hu
    · exact absurd (hs.timers ▸ mem_timers_iff.mpr ⟨hu, hlive⟩) List.not_mem_nil
  have hends : ∀ plan ∈ plans, IsTime plan.part.ends := by
    intro plan hplan
    obtain ⟨v, -, hfor⟩ := hforms.plan plan hplan
    exact hfor.isTime_ends hfinite hpos
  obtain ⟨hlast, hle⟩ := ends_le_lastEnd speed hends
  refine ⟨foretold (·.reports stroke)
    (insertAll (plans.flatMap (·.timers s.clock.now id)) s.clock.queue), ?_, fun hmem => ?_⟩
  · rw [hqueue]
    refine foretold_insert (inTurn_insertAll _ (inTurn_of_timers hs.timers)) fun u hu hlive _ => ?_
    obtain ⟨plan, hplan, hu⟩ := hothers u hu hlive
    obtain ⟨v, -, hfor⟩ := hforms.plan plan hplan
    exact noLater_of_le (hfor.due_le hfinite hpos hnow hlast (hle plan hplan) .complete u hu)
  · obtain ⟨u, hu, hlive, hreport⟩ := mem_foretold.mp hmem
    obtain ⟨plan, hplan, hu⟩ := hothers u hu hlive
    obtain ⟨v, -, hfor⟩ := hforms.plan plan hplan
    rcases hfor.mem_timers.mp hu with ⟨p, -, rfl⟩ | rfl
    · simp [timerAfter, Task.reports] at hreport
    · simp [timerAfter, Task.reports] at hreport

variable (hr : speed.toReal = .ok r)
  (hdue : ∀ t ∈ (s.opening speed plans).clock.timers, t.due.isFinite)
include hr hdue

theorem scheduled_opening :
    Scheduled s.sessions.length (plans.map (·.part))
      ((s.opening speed plans).stroke? s.sessions.length)
      (timerAfter s.clock.now (assembled speed plans).lastEnd s.sessions.length .complete).due
      (s.opening speed plans).clock where
  cancels := hs.cancels
  inTurn := inTurn_insertAll _ (inTurn_of_timers hs.timers)
  numbers t ht := by
    rcases mem_insertAll.mp ht with ht | ht
    · exact ne_nan_of_isFinite (hdue t ((mem_timers_opening hs.timers).mpr ht))
    · exact hs.numbers t ht
  owner t ht := (owner_of_mem_agenda ((mem_timers_opening hs.timers).mp ht)).1
  mem_parts t ht part hpart := by
    -- a timer of the agenda belongs to a plan, or it completes the session
    rcases mem_agenda.mp ((mem_timers_opening hs.timers).mp ht) with ⟨plan, hplan, ht⟩ | rfl
    · rw [(Plan.part_of_mem_timers ht).1] at hpart
      exact Option.mem_some.mp hpart ▸ List.mem_map_of_mem hplan
    · cases hpart
  strikes t ht part event htask := by
    refine ⟨hdue t ht, ?_⟩
    rcases mem_agenda.mp ((mem_timers_opening hs.timers).mp ht) with ⟨plan, hplan, ht⟩ | rfl
    · obtain ⟨v, -, hfor⟩ := hforms.plan plan hplan
      rcases hfor.mem_timers.mp ht with ⟨p, hp, rfl⟩ | rfl
      · obtain ⟨rfl, rfl⟩ := Task.strike.inj htask
        obtain ⟨k, -, hk⟩ := exists_stroke plans hr hpos hfor hp
        exact Option.isSome_iff_exists.mpr ⟨_, hk⟩
      · cases htask
    · cases htask
  ending := ending_opening hs hforms hfinite hpos (isFinite_now hs.timers hdue) _
  completion := ⟨_, (mem_timers_opening hs.timers).mpr (mem_agenda.mpr (.inr rfl)), rfl, rfl⟩

/-- A session is underway when it starts. -/
theorem underway_opening :
    Underway s.sessions.length (plans.map (·.part))
      ((s.opening speed plans).stroke? s.sessions.length)
      (timerAfter s.clock.now (assembled speed plans).lastEnd s.sessions.length .complete).due
      (s.opening speed plans) where
  logging := hs.logging
  connected := hs.connected
  session := ⟨_, List.getElem?_concat_length, rfl, rfl⟩
  held part _ h hh := by
    rw [heldBy_opening] at hh
    cases hh
  isCurrent := ⟨rfl, _, List.getElem?_concat_length, rfl⟩
  strokes _ _ := rfl
  scheduled := scheduled_opening hs hforms hfinite hpos hr hdue

end Opening

end Monody.Playback
