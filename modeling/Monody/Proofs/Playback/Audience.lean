import Monody.Proofs.Playback.Lineup

/-!
# The active session and its audience

Listeners may stop the active session and start others in its place while they are told a report, and
the reports of this reach them again. But all that they can do to the session is to end it. Either it
goes on as if nobody had listened, though they may have silenced the output, or it is no longer active,
and whichever session is active then has just begun: none of its timers has come up, and none of its
parts holds a note.

## Main definitions

* `IsInOrder` — each part has its notes to strike, then its end, before the session is complete
* `IsFresh` — besides, no part holds a note
* `Founds` — those of a lineup have entered a new session, and their timers are set
* `Renewed` — if a session is active, it has just begun
* `panics` — how often listeners have silenced the output
* `IsCalm` — no listener may silence the output
* `Still` — nothing has changed in what is active, pending, held and sounding
* `Follows` — what may come of a report: the one or the other

## Main results

* `exists_play_eq` — what has been started, whether or not playing was refused halfway
* `Founds.isFresh` — a session that has been started is fresh
* `staysCalm_emit` — where no listener may silence the output, none does when a report is told
* `emit_follows` — what comes of a report
* `perform_follows` — what comes of a command that lets no time pass
-/

namespace Monody.Playback

open Clock

variable {s s' : Playback} {id n : Nat} {p q : Part} {plans : List Plan} {speed : Number}
  {t : Timer Task} {rest : List (Timer Task)} {melodies : List Melody}

/-! ## Updates of a session -/

theorem isCurrent_update_iff {f : Session → Session}
    (hf : ∀ session : Session, (f session).phase = session.phase) (j : Nat) :
    (s.update j f).IsCurrent id ↔ s.IsCurrent id := by
  rw [IsCurrent, IsCurrent, update_current, update_sessions, List.getElem?_modify]
  refine and_congr_right fun _ => ?_
  cases s.sessions[id]? with
  | none => exact Iff.rfl
  | some session =>
    by_cases hj : j = id
    · simp [hj, Session.hasEnded, hf]
    · simp [hj]

/-! ## The order of a session -/

/-- The parts of a session. -/
def partsOf (s : Playback) (id : Nat) : List Part := ((s.sessions[id]?).map (·.parts)).getD []

theorem partsOf_eq {session : Session} (h : s.sessions[id]? = some session) :
    s.partsOf id = session.parts := by
  rw [partsOf, h]
  rfl

theorem partsOf_congr (h : (s'.sessions[id]?).map (·.parts) = (s.sessions[id]?).map (·.parts)) :
    s'.partsOf id = s.partsOf id := congrArg (·.getD []) h

theorem partsOf_update {f : Session → Session}
    (hf : ∀ session : Session, (f session).parts = session.parts) (j : Nat) :
    (s.update j f).partsOf id = s.partsOf id := by
  refine partsOf_congr ?_
  rw [update_sessions, List.getElem?_modify]
  cases s.sessions[id]? with
  | none => rfl
  | some session =>
    by_cases hj : j = id
    · simp [hj, hf]
    · simp [hj]

/-- What a timer means to a part: that it strikes a note or ends, or that the session is complete. -/
def Task.turns (p : Part) : Task → List Topic
  | .strike q _ => if q = p then [.note] else []
  | .release .. => []
  | .endPart q => if q = p then [.voiceEnd] else []
  | .complete => [.complete]

/-- What a timer does for one part means nothing to another. -/
theorem Task.turns_eq_nil {task : Task} (htask : task.part? = some q) (hne : q ≠ p) :
    task.turns p = [] := by
  cases task with
  | release | complete => first | rfl | cases htask
  | strike | endPart =>
    obtain rfl := Option.some.inj htask
    exact if_neg hne

/-- What the pending timers of a session mean to a part, in order. -/
def turnsOf (s : Playback) (id : Nat) (p : Part) : List Topic :=
  foretold (·.turns p) (only id s.clock.queue)

/-- Some notes, then the end, and no note after it. -/
def EndsOnce (turns : List Topic) : Prop :=
  ∃ k later, turns = List.replicate k .note ++ .voiceEnd :: later ∧ .note ∉ later

namespace EndsOnce

variable {turns : List Topic}

variable {ended : Prop}

/-- Where notes are still to be struck, the end is still to come. -/
theorem of_note (h : EndsOnce (.note :: turns) ∨ ended ∧ .note ∉ Topic.note :: turns) : EndsOnce turns := by
  obtain ⟨k, later, heq, hlater⟩ := h.resolve_right fun hended => hended.2 List.mem_cons_self
  cases k with
  | zero => cases heq
  | succ k => exact ⟨k, later, (List.cons.inj heq).2, hlater⟩

/-- No notes are to be struck after the end. -/
theorem not_note_mem (h : EndsOnce (.voiceEnd :: turns) ∨ ended ∧ .note ∉ Topic.voiceEnd :: turns) :
    .note ∉ turns := by
  rcases h with ⟨k, later, heq, hlater⟩ | hended
  · cases k with
    | zero => exact (List.cons.inj heq).2 ▸ hlater
    | succ k => cases heq
  · exact fun hmem => hended.2 (List.mem_cons_of_mem _ hmem)

/-- The session is not complete before the end has come. -/
theorem of_complete (h : EndsOnce (.complete :: turns) ∨ ended ∧ .note ∉ Topic.complete :: turns) :
    ended ∧ .note ∉ turns := by
  rcases h with ⟨k, later, heq, -⟩ | hended
  · cases k <;> cases heq
  · exact hended.imp_right fun hnote hmem => hnote (List.mem_cons_of_mem _ hmem)

end EndsOnce

/-- The parts of a session can be told apart, its pending timers are theirs, and each of them has its
notes to strike and then ends. Once it has ended it holds no note. -/
structure IsInOrder (id : Nat) (s : Playback) : Prop where
  distinct : ∀ p ∈ s.partsOf id, ∀ q ∈ s.partsOf id, p.index = q.index → p = q
  mem_parts : ∀ t ∈ s.clock.timers, t.owner = id → ∀ p ∈ t.task.part?, p ∈ s.partsOf id
  course : ∀ p ∈ s.partsOf id, EndsOnce (s.turnsOf id p) ∨
    s.heldBy id p = none ∧ .note ∉ s.turnsOf id p

/-- The session is in order, and none of its parts holds a note. -/
structure IsFresh (id : Nat) (s : Playback) : Prop where
  order : IsInOrder id s
  silent : ∀ p, s.heldBy id p = none

/-- The timer is one of a session and has not been cancelled. -/
def Timer.IsLive (t : Timer Task) (id : Nat) : Prop := t.cancelled = false ∧ t.owner = id

theorem foretold_only_cons_of_isLive {β : Type} {f : Task → List β} (ht : t.IsLive id) :
    foretold f (only id (t :: rest)) = f t.task ++ foretold f (only id rest) := by
  have hpending : (t.cancelled || t.owner != id) = false := by
    rw [ht.1, ht.2, bne_self_eq_false, Bool.or_false]
  exact foretold_cons_of_pending hpending

theorem foretold_only_cons_of_not_isLive {β : Type} {f : Task → List β} (ht : ¬ t.IsLive id) :
    foretold f (only id (t :: rest)) = foretold f (only id rest) := by
  have hpassed : (t.cancelled || t.owner != id) = true := by
    cases hcancelled : t.cancelled with
    | true => rfl
    | false => exact bne_iff_ne.mpr fun howner => ht ⟨hcancelled, howner⟩
  exact foretold_cons_of_cancelled hpassed

namespace IsInOrder

/-- The order depends on the timers, on the parts, and on who holds no note. -/
theorem congr (h : IsInOrder id s) (hqueue : s'.clock.queue = s.clock.queue)
    (hparts : s'.partsOf id = s.partsOf id)
    (hheld : ∀ p ∈ s.partsOf id, s.heldBy id p = none → s'.heldBy id p = none) : IsInOrder id s' where
  distinct := by
    rw [hparts]
    exact h.distinct
  mem_parts t ht := by
    rw [timers, hqueue] at ht
    rw [hparts]
    exact h.mem_parts t ht
  course p hp := by
    rw [hparts] at hp
    rw [turnsOf, hqueue]
    exact (h.course p hp).imp_right fun hended => ⟨hheld p hp hended.1, hended.2⟩

/-- A timer that means nothing to a part changes nothing in what the part has before it. -/
theorem course_of_other (hnone : t.IsLive id → t.task.turns p = [])
    (hcourse : EndsOnce (foretold (·.turns p) (only id (t :: rest))) ∨
      s.heldBy id p = none ∧ .note ∉ foretold (·.turns p) (only id (t :: rest)))
    (hheld : s.heldBy id p = none →
      s'.heldBy id p = none ∨ t.IsLive id ∧ ∃ event, t.task = .strike p event) :
    EndsOnce (foretold (·.turns p) (only id rest)) ∨
      s'.heldBy id p = none ∧ .note ∉ foretold (·.turns p) (only id rest) := by
  have hsame : foretold (·.turns p) (only id (t :: rest)) = foretold (·.turns p) (only id rest) := by
    by_cases hlive : t.IsLive id
    · rw [foretold_only_cons_of_isLive hlive, hnone hlive, List.nil_append]
    · exact foretold_only_cons_of_not_isLive hlive
  rw [hsame] at hcourse
  refine hcourse.imp_right fun hended => ⟨(hheld hended.1).resolve_right ?_, hended.2⟩
  rintro ⟨hlive, event, htask⟩
  have hturn := hnone hlive
  rw [htask, Task.turns, if_pos rfl] at hturn
  cases hturn

/-- A timer has come up and done what it does: one that strikes a note of a part may leave it holding a
note, and one that ends it leaves it without. -/
theorem pop (h : IsInOrder id s) (hqueue : s.clock.queue = t :: rest) (hrest : s'.clock.queue = rest)
    (hparts : s'.partsOf id = s.partsOf id)
    (hheld : ∀ p ∈ s.partsOf id, s.heldBy id p = none →
      s'.heldBy id p = none ∨ t.IsLive id ∧ ∃ event, t.task = .strike p event)
    (hend : t.IsLive id → ∀ p, t.task = .endPart p → s'.heldBy id p = none) : IsInOrder id s' where
  distinct := by
    rw [hparts]
    exact h.distinct
  mem_parts u hu := by
    rw [mem_timers_iff, hrest] at hu
    rw [hparts]
    exact h.mem_parts u (mem_timers_iff.mpr ⟨hqueue ▸ List.mem_cons_of_mem t hu.1, hu.2⟩)
  course p hp := by
    rw [hparts] at hp
    have hcourse := h.course p hp
    rw [turnsOf, hqueue] at hcourse
    rw [turnsOf, hrest]
    -- only timers of the part itself change where it stands in its course
    have hother (hnone : t.IsLive id → t.task.turns p = []) := course_of_other hnone hcourse (hheld p hp)
    by_cases hlive : t.IsLive id
    · rw [foretold_only_cons_of_isLive hlive] at hcourse
      cases htask : t.task with
      | strike q event =>
        by_cases hqp : q = p
        · rw [htask, Task.turns, if_pos hqp] at hcourse
          exact .inl (EndsOnce.of_note hcourse)
        · exact hother fun _ => by rw [htask, Task.turns, if_neg hqp]
      | release q event => exact hother fun _ => by rw [htask, Task.turns]
      | endPart q =>
        by_cases hqp : q = p
        · rw [htask, Task.turns, if_pos hqp] at hcourse
          exact .inr ⟨hend hlive p (hqp ▸ htask), EndsOnce.not_note_mem hcourse⟩
        · exact hother fun _ => by rw [htask, Task.turns, if_neg hqp]
      | complete =>
        rw [htask, Task.turns] at hcourse
        obtain ⟨hnone, hnote⟩ := EndsOnce.of_complete hcourse
        refine .inr ⟨(hheld p hp hnone).resolve_right ?_, hnote⟩
        rintro ⟨-, event, hstrike⟩
        rw [htask] at hstrike
        cases hstrike
    · exact hother fun hlive' => absurd hlive' hlive

/-- When the session is complete, every part has ended. -/
theorem heldBy_of_complete (h : IsInOrder id s) (hqueue : s.clock.queue = t :: rest)
    (hlive : t.IsLive id) (htask : t.task = .complete) (hp : p ∈ s.partsOf id) :
    s.heldBy id p = none := by
  have hcourse := h.course p hp
  rw [turnsOf, hqueue, foretold_only_cons_of_isLive hlive, htask, Task.turns] at hcourse
  exact (EndsOnce.of_complete hcourse).1

/-- A new timer that releases a note of a part. -/
theorem after_release (h : IsInOrder id s) (hp : p ∈ s.partsOf id) (seconds : Binary64) (event : Nat) :
    IsInOrder id (s.after seconds id (.release p event)) where
  distinct := h.distinct
  mem_parts t ht howner q hq := by
    rcases mem_timers_after.mp ht with rfl | ht
    · exact Option.mem_some.mp hq ▸ hp
    · exact h.mem_parts t ht howner q hq
  course q hq := by
    have hqueue : only id (s.after seconds id (.release p event)).clock.queue =
        Clock.insert (timerAfter s.clock.now seconds id (.release p event)) (only id s.clock.queue) :=
      only_insert (t := timerAfter s.clock.now seconds id (.release p event)) rfl _
    have hsame : (s.after seconds id (.release p event)).turnsOf id q = s.turnsOf id q := by
      rw [turnsOf, hqueue]
      exact foretold_insert_of_eq_nil rfl
    rw [hsame]
    exact h.course q hq

end IsInOrder

theorem IsFresh.congr (h : IsFresh id s) (hqueue : s'.clock.queue = s.clock.queue)
    (hparts : s'.partsOf id = s.partsOf id)
    (hheld : ∀ p, s.heldBy id p = none → s'.heldBy id p = none) : IsFresh id s' where
  order := h.order.congr hqueue hparts fun p _ => hheld p
  silent p := hheld p (h.silent p)

/-! ## New sessions -/

/-- A session has been founded: it is active, those of a lineup have entered it, and their timers are set,
with or without the one that completes it. Nobody has been told anything, and nothing has sounded. -/
structure Founds (speed : Number) (plans : List Plan) (s s' : Playback) : Prop where
  lineup : Lineup speed plans
  current : s'.current = some s.sessions.length
  session : ∃ session, s'.sessions = s.sessions ++ [session] ∧
    session.parts = plans.map (·.part) ∧ session.held = [] ∧ session.hasEnded = false
  queue : ∃ last, s'.clock.queue =
      insertAll (plans.flatMap (·.timers s.clock.now s.sessions.length) ++ last) s.clock.queue ∧
    (last = [] ∨
      last = [timerAfter s.clock.now (assembled speed plans).lastEnd s.sessions.length .complete])
  output : s'.output = s.output
  performers : s'.performers = s.performers
  listeners : s'.listeners = s.listeners

theorem launch_log (id : Nat) (s : Playback) (log : List Entry) :
    launch id { s with log } = { launch id s with log } := by
  simp only [launch]
  cases s.sessions[id]? <;> rfl

/-- Starting a session either changes nothing or founds one, where nothing is left of what was active. -/
theorem exists_play_eq {emit : Report → Playback → Playback} (performers : List Nat)
    (hstep : ∀ r s, IsScored melodies s → IsScored melodies (emit r s)) (hs : IsScored melodies s)
    (hparsed : AreParsed melodies) (speed : Number) :
    (play emit performers speed s).2 = s ∨ ¬ speed ≤ 0 ∧
      ∃ t plans, t = clear emit ((s.stop emit).reactionsLeft + 1) (s.stop emit) ∧
        IsScored melodies t ∧ Founds speed plans t (play emit performers speed s).2 := by
  simp only [play]
  split
  · exact .inl rfl
  next hspeed =>
  split
  · exact .inl rfl
  refine .inr ⟨hspeed, ?_⟩
  have hidle := (IsScored.stepwise melodies).idle hstep s hs
  generalize clear emit ((s.stop emit).reactionsLeft + 1) (s.stop emit) = t at hidle ⊢
  have hvoices : ∀ i, ∀ v ∈ (t.begin speed).voice? i, ∃ text, Melody.parse text = .ok v.melody := by
    intro i v hv
    have hmelody : melodies[i]? = some v.melody := by
      rw [← hidle.melodies i, melody?]
      exact congrArg (Option.map _) hv
    exact hparsed v.melody (List.mem_of_getElem? hmelody)
  obtain ⟨plans, log, heq, hlineup⟩ :=
    exists_enterAll hspeed t.sessions.length hvoices (nodup_castOf s performers)
  generalize enterAll t.sessions.length speed (s.castOf performers) (t.begin speed) = result at heq ⊢
  obtain ⟨outcome, u⟩ := result
  obtain rfl : u = { entered t.sessions.length plans (t.begin speed) with log } := heq
  refine ⟨t, plans, rfl, hidle, ?_⟩
  -- the session is there in either case, but it is launched only when everybody has entered
  cases outcome with
  | error fault =>
    refine ⟨hlineup, rfl, ⟨assembled speed plans, modify_concat .., rfl, rfl, rfl⟩,
      ⟨[], ?_, .inl rfl⟩, rfl, rfl, rfl⟩
    rw [List.append_nil]
    rfl
  | ok =>
    dsimp only
    rw [launch_log, launch_entered]
    exact ⟨hlineup, rfl, ⟨_, rfl, rfl, rfl, rfl⟩, ⟨_, rfl, .inr rfl⟩, rfl, rfl, rfl⟩

/-- The timers that there are belong to sessions that there are. -/
theorem IsTimely.owner_ne (hs : s.IsTimely) : ∀ u ∈ s.clock.queue, u.owner ≠ s.sessions.length := by
  intro u hu howner
  obtain ⟨speed, hsome⟩ := Option.isSome_iff_exists.mp (hs u hu).isSome
  rw [howner, speed?, List.getElem?_eq_none (Nat.le_refl _)] at hsome
  cases hsome

namespace Founds

variable (h : Founds speed plans s s')
include h

theorem exists_session : ∃ session, s'.sessions[s.sessions.length]? = some session ∧
    session.parts = plans.map (·.part) ∧ session.held = [] := by
  obtain ⟨session, hsessions, hparts, hheld, -⟩ := h.session
  refine ⟨session, ?_, hparts, hheld⟩
  rw [hsessions]
  exact List.getElem?_concat_length

theorem partsOf_eq : s'.partsOf s.sessions.length = plans.map (·.part) := by
  obtain ⟨session, hsession, hparts, -⟩ := h.exists_session
  exact (Playback.partsOf_eq hsession).trans hparts

theorem heldBy_eq_none (p : Part) : s'.heldBy s.sessions.length p = none := by
  obtain ⟨session, hsession, -, hheld⟩ := h.exists_session
  rw [heldBy_eq hsession, Session.held?, hheld]
  rfl

/-- The parts of different plans are different. -/
theorem part_ne {plan plan' : Plan} (hplan : plan ∈ plans) (hplan' : plan' ∈ plans) (hne : plan' ≠ plan) :
    plan'.part ≠ plan.part := fun heq =>
  hne (List.inj_on_of_nodup_map h.lineup.nodup hplan' hplan (congrArg Part.index heq))

/-- The new timers are those of the plans, and besides at most the one that completes the session. -/
theorem exists_queue : ∃ last, s'.clock.queue =
      insertAll (plans.flatMap (·.timers s.clock.now s.sessions.length) ++ last) s.clock.queue ∧
    (plans.flatMap (·.timers s.clock.now s.sessions.length) ++ last).Sublist
      (agenda s.clock.now s.sessions.length speed plans) ∧
    ∀ p, .note ∉ foretold (Task.turns p) last := by
  obtain ⟨last, hqueue, rfl | rfl⟩ := h.queue
  · exact ⟨[], hqueue, List.append_nil _ ▸ List.sublist_append_left .., fun _ => List.not_mem_nil⟩
  · refine ⟨_, hqueue, .refl _, fun p hmem => ?_⟩
    cases List.mem_singleton.mp hmem

variable (hs : s.IsTimely)
include hs

theorem mem_parts (ht : t ∈ s'.clock.timers) (howner : t.owner = s.sessions.length)
    (hp : t.task.part? = some p) : p ∈ plans.map (·.part) := by
  obtain ⟨last, hqueue, hagenda, -⟩ := h.exists_queue
  have hmem := (mem_timers_iff.mp ht).1
  rw [hqueue] at hmem
  have hnew := (mem_insertAll.mp hmem).resolve_right fun hold => hs.owner_ne t hold howner
  rcases mem_agenda.mp (hagenda.subset hnew) with ⟨plan, hplan, ht⟩ | rfl
  · rw [(Plan.part_of_mem_timers ht).1] at hp
    exact Option.some.inj hp ▸ List.mem_map_of_mem hplan
  · cases hp

/-- Each part has all its notes to strike, and then ends. -/
theorem endsOnce (hspeed : ¬ speed ≤ 0) {plan : Plan} (hplan : plan ∈ plans) :
    EndsOnce (s'.turnsOf s.sessions.length plan.part) := by
  obtain ⟨last, hqueue, hagenda, hlater⟩ := h.exists_queue
  have hothers : ∀ q ∈ plans, q ≠ plan → ∀ task, task.part? = some q.part →
      Task.turns plan.part task = [] := fun q hq hne task htask =>
    Task.turns_eq_nil htask (h.part_ne hplan hq hne)
  obtain ⟨hturn, hends⟩ := h.lineup.noLater_due hspeed hplan s.clock.now s.sessions.length
  have hpairwise := (pairwise_agenda h.lineup.nodup hplan hothers hturn hends).sublist hagenda
  have howners : ∀ t ∈ plans.flatMap (·.timers s.clock.now s.sessions.length) ++ last,
      t.owner = s.sessions.length := fun t ht => (owner_of_mem_agenda (hagenda.subset ht)).1
  have hcancelled : ∀ u ∈ only s.sessions.length s.clock.queue, u.cancelled = true := fun u =>
    cancelled_of_mem_only hs.owner_ne
  have hnothing : foretold (Task.turns plan.part) (only s.sessions.length s.clock.queue) = [] :=
    foretold_eq_nil_iff.mpr fun u hu hlive => by
      rw [hcancelled u hu] at hlive
      cases hlive
  have hnotes : plan.strikes.flatMap (fun k => Task.turns plan.part (.strike plan.part k.2)) =
      List.replicate plan.strikes.length .note := by
    simp only [Task.turns, if_pos, List.flatMap_def, List.map_const', List.flatten_replicate_singleton]
  rw [turnsOf, hqueue, only_insertAll howners,
    foretold_insertAll (inTurn_of_cancelled hcancelled) hnothing hpairwise, foretold_append,
    foretold_flatMap_timers h.lineup.nodup hplan hothers, hnotes, Task.turns, if_pos rfl]
  exact ⟨_, _, List.append_assoc .., hlater plan.part⟩

/-- A session that has been founded is fresh. -/
theorem isFresh (hspeed : ¬ speed ≤ 0) : IsFresh s.sessions.length s' where
  order :=
    { distinct := by
        rw [h.partsOf_eq]
        intro p hp q hq hindex
        obtain ⟨plan, hplan, rfl⟩ := List.mem_map.mp hp
        obtain ⟨plan', hplan', rfl⟩ := List.mem_map.mp hq
        rw [List.inj_on_of_nodup_map h.lineup.nodup hplan hplan' hindex]
      mem_parts := fun t ht howner p hp => h.partsOf_eq ▸ h.mem_parts hs ht howner (Option.mem_def.mp hp)
      course := fun p hp => by
        rw [h.partsOf_eq] at hp
        obtain ⟨plan, hplan, rfl⟩ := List.mem_map.mp hp
        exact .inl (h.endsOnce hs hspeed hplan) }
  silent := h.heldBy_eq_none

end Founds

/-! ## Silencing the output -/

/-- How often listeners have silenced the output. -/
def panics (s : Playback) : Nat := s.log.count (.reaction .panic)

/-- Nothing that is in the log is ever taken back. -/
theorem panics_append (log : List Entry) : s.panics ≤ panics { s with log := s.log ++ log } := by
  rw [panics, panics, List.count_append]
  exact Nat.le_add_right ..

theorem stepwise_panics : Stepwise fun s s' => s.panics ≤ s'.panics where
  refl _ := Nat.le_refl _
  trans := Nat.le_trans
  record _ e := panics_append [e]
  update _ _ _ _ := Nat.le_refl _
  through s call := panics_append ((call s.output).signals.map .signal)
  setCursor _ _ _ := Nat.le_refl _
  setListener _ _ _ := Nat.le_refl _
  addListener _ _ := Nat.le_refl _
  assign _ _ _ := Nat.le_refl _
  after _ _ _ _ _ := Nat.le_refl _
  conclude _ _ _ := Nat.le_refl _
  begin _ _ := Nat.le_refl _

/-- A reaction silences the output, or adds a listener whose reaction may. -/
def Reaction.MayPanic : Reaction → Prop
  | .panic => True
  | .listen _ _ _ reaction => reaction.MayPanic
  | _ => False

/-- No listener may silence the output. -/
def IsCalm (s : Playback) : Prop := ∀ l ∈ s.listeners, ¬ l.reaction.MayPanic

/-- A command adds no listener who may silence the output. -/
def Command.IsCalm : Command → Prop
  | .listen l => ¬ l.reaction.MayPanic
  | _ => True

/-- Where no listener may silence the output, none does, and none may later. -/
def StaysCalm (s s' : Playback) : Prop := s.IsCalm → s'.IsCalm ∧ s'.panics = s.panics

theorem StaysCalm.calm (h : StaysCalm s s') (hs : s.IsCalm ∧ s.panics = n) : s'.IsCalm ∧ s'.panics = n :=
  ⟨(h hs.1).1, (h hs.1).2.trans hs.2⟩

theorem unattended_staysCalm : Unattended StaysCalm where
  refl _ hs := ⟨hs, rfl⟩
  trans h h' hs := StaysCalm.calm h' (h hs)
  update _ _ _ _ hs := ⟨hs, rfl⟩
  through s call hs := by
    refine ⟨hs, ?_⟩
    have hnone : Entry.reaction .panic ∉ (call s.output).signals.map .signal := by simp
    rw [panics, through, List.count_append, List.count_eq_zero_of_not_mem hnone]
    rfl
  setCursor _ _ _ hs := ⟨hs, rfl⟩
  assign _ _ _ hs := ⟨hs, rfl⟩
  after _ _ _ _ _ hs := ⟨hs, rfl⟩
  conclude _ _ _ hs := ⟨hs, rfl⟩
  begin _ _ hs := ⟨hs, rfl⟩

theorem staysCalm_record (s : Playback) {e : Entry} (he : e ≠ .reaction .panic) : StaysCalm s (s.record e) := by
  intro hs
  have hnone : Entry.reaction .panic ∉ [e] := fun hmem => he (List.mem_singleton.mp hmem).symm
  refine ⟨hs, ?_⟩
  rw [panics, record, List.count_append, List.count_eq_zero_of_not_mem hnone]
  rfl

theorem staysCalm_addListener (s : Playback) {l : Listener} (hl : ¬ l.reaction.MayPanic) :
    StaysCalm s (s.addListener l) := fun hs =>
  ⟨List.forall_mem_append.mpr ⟨hs, List.forall_mem_singleton.mpr hl⟩, rfl⟩

theorem staysCalm_setListener (s : Playback) (i : Nat) {l : Listener} (hl : ¬ l.reaction.MayPanic) :
    StaysCalm s (s.setListener i l) := by
  intro hs
  refine ⟨fun l' hl' => ?_, rfl⟩
  rcases List.mem_or_eq_of_mem_set hl' with hmem | rfl
  · exact hs l' hmem
  · exact hl

section Acting

variable {act : Reaction → Playback → Playback} (hact : ∀ r, ¬ r.MayPanic → ∀ s, StaysCalm s (act r s))
include hact

theorem staysCalm_react (s : Playback) (i : Nat) : StaysCalm s (react act s i) := by
  intro hs
  rw [react]
  split
  · exact ⟨hs, rfl⟩
  next l hl =>
  have hcalm := hs l (List.mem_of_getElem? hl)
  split
  · exact staysCalm_setListener s i hcalm hs
  · next times _ _ =>
    -- a reaction that is no panic is recorded, and what it adds is no panic either
    have hentry : Entry.reaction l.reaction ≠ .reaction .panic := fun heq =>
      hcalm (Entry.reaction.inj heq ▸ trivial)
    have hused := staysCalm_setListener s i (l := { l with times }) hcalm
    have hrecorded := unattended_staysCalm.trans hused (staysCalm_record _ hentry)
    exact unattended_staysCalm.trans hrecorded (hact l.reaction hcalm _) hs
  · exact ⟨hs, rfl⟩

theorem staysCalm_emitWith (r : Report) (s : Playback) : StaysCalm s (emitWith act r s) :=
  unattended_staysCalm.trans (staysCalm_record s (e := .report r) nofun)
    (unattended_staysCalm.foldl (staysCalm_react hact) _ _)

end Acting

theorem staysCalm_emitWithin (depth : Nat) (r : Report) (s : Playback) :
    StaysCalm s (emitWithin depth r s) := by
  induction depth generalizing r s with
  | zero => exact staysCalm_emitWith (fun _ _ s => unattended_staysCalm.refl s) r s
  | succ depth ih =>
    refine staysCalm_emitWith (fun reaction hcalm s => unattended_staysCalm.act ih s ?_) r s
    rintro topic skip times added rfl
    exact staysCalm_addListener s hcalm

theorem staysCalm_emit (r : Report) (s : Playback) : StaysCalm s (emit r s) :=
  staysCalm_emitWithin s.reactionsLeft r s

/-! ## What comes of a report -/

/-- If a session is active, it is none of the first, and it is fresh. -/
structure Renewed (n : Nat) (s : Playback) : Prop where
  length : n ≤ s.sessions.length
  fresh : ∀ id, s.IsCurrent id → n ≤ id ∧ IsFresh id s

/-- Nothing has changed in what is active, pending, held and sounding, unless listeners have silenced the
output. -/
structure Still (s s' : Playback) : Prop where
  queue : s'.clock.queue = s.clock.queue
  length : s'.sessions.length = s.sessions.length
  isCurrent : ∀ id, s'.IsCurrent id ↔ s.IsCurrent id
  parts : ∀ id, s'.partsOf id = s.partsOf id
  held : ∀ id p, s'.heldBy id p = s.heldBy id p
  panics : s.panics ≤ s'.panics
  active : s'.panics = s.panics → s'.output.active = s.output.active

/-- What may come of a report: nothing has changed, or all sessions that there were are over. -/
def Follows (s s' : Playback) : Prop := Still s s' ∨ Renewed s.sessions.length s'

namespace Still

/-- A step that leaves the clock, the sessions and the output alone. -/
theorem of_eq (hclock : s'.clock = s.clock) (hsessions : s'.sessions = s.sessions)
    (hcurrent : s'.current = s.current) (houtput : s'.output = s.output) (hpanics : s.panics ≤ s'.panics) :
    Still s s' where
  queue := by rw [hclock]
  length := by rw [hsessions]
  isCurrent id := by rw [IsCurrent, IsCurrent, hcurrent, hsessions]
  parts id := partsOf_congr (by rw [hsessions])
  held id p := by rw [heldBy, heldBy, hsessions]
  panics := hpanics
  active _ := by rw [houtput]

/-- A change of a session that concerns neither its phase nor its parts nor its notes. -/
theorem update {f : Session → Session} (hphase : ∀ session : Session, (f session).phase = session.phase)
    (hparts : ∀ session : Session, (f session).parts = session.parts)
    (hheld : ∀ session : Session, (f session).held = session.held) (j : Nat) : Still s (s.update j f) where
  queue := rfl
  length := List.length_modify ..
  isCurrent id := isCurrent_update_iff hphase j
  parts id := partsOf_update hparts j
  held id p := by
    refine heldBy_congr ?_
    rw [update_sessions, List.getElem?_modify]
    cases s.sessions[id]? with
    | none => rfl
    | some session =>
      by_cases hj : j = id
      · simp [hj, hheld]
      · simp [hj]
  panics := Nat.le_refl _
  active _ := rfl

theorem refl (s : Playback) : Still s s := .of_eq rfl rfl rfl rfl (Nat.le_refl _)

theorem record (s : Playback) (e : Entry) : Still s (s.record e) :=
  .of_eq rfl rfl rfl rfl (stepwise_panics.record s e)

/-- What is told of a session makes no difference. -/
theorem resolve (s : Playback) (how : Ending) (j : Nat) : Still s (s.update j (·.resolve how)) :=
  .update (f := (·.resolve how)) (fun _ => rfl) (fun _ => rfl) (fun _ => rfl) j

/-- The reaction of a listener who silences the output. -/
theorem silenced (s : Playback) : Still s ((s.record (.reaction .panic)).through (·.panic)) where
  queue := rfl
  length := rfl
  isCurrent _ := Iff.rfl
  parts _ := rfl
  held _ _ := rfl
  panics := stepwise_panics.trans (stepwise_panics.record ..) (stepwise_panics.through ..)
  active hsame := by
    -- the reaction is in the log
    have hrecorded : (s.record (.reaction .panic)).panics = s.panics + 1 := by
      rw [Playback.panics, Playback.record, List.count_append, List.count_singleton_self, Playback.panics]
    have hle := stepwise_panics.through (s.record (.reaction .panic)) (·.panic)
    omega

theorem trans {s₁ s₂ s₃ : Playback} (h : Still s₁ s₂) (h' : Still s₂ s₃) : Still s₁ s₃ where
  queue := h'.queue.trans h.queue
  length := h'.length.trans h.length
  isCurrent id := (h'.isCurrent id).trans (h.isCurrent id)
  parts id := (h'.parts id).trans (h.parts id)
  held id p := (h'.held id p).trans (h.held id p)
  panics := Nat.le_trans h.panics h'.panics
  active hsame := by
    have hfirst := h.panics
    have hlast := h'.panics
    exact (h'.active (by omega)).trans (h.active (by omega))

end Still

namespace Renewed

variable (h : Renewed n s)
include h

theorem mono {k : Nat} (hk : k ≤ n) : Renewed k s where
  length := hk.trans h.length
  fresh id hid := ⟨hk.trans (h.fresh id hid).1, (h.fresh id hid).2⟩

/-- A change of sessions and cursors that leaves timers, parts and their silence alone. -/
theorem congr (hlength : s'.sessions.length = s.sessions.length)
    (hcurrent : ∀ id, s'.IsCurrent id → s.IsCurrent id) (hqueue : s'.clock.queue = s.clock.queue)
    (hparts : ∀ id, s'.partsOf id = s.partsOf id)
    (hheld : ∀ id p, s.heldBy id p = none → s'.heldBy id p = none) : Renewed n s' where
  length := h.length.trans_eq hlength.symm
  fresh id hid :=
    have hfresh := h.fresh id (hcurrent id hid)
    ⟨hfresh.1, hfresh.2.congr hqueue (hparts id) (hheld id)⟩

theorem still (hs : Still s s') : Renewed n s' :=
  h.congr hs.length (fun id => (hs.isCurrent id).mp) hs.queue hs.parts
    fun id p hnone => (hs.held id p).trans hnone

theorem follows (hf : Follows s s') : Renewed n s' :=
  hf.elim h.still fun hr => hr.mono h.length

theorem update {f : Session → Session} (hphase : ∀ session : Session, (f session).phase = session.phase)
    (hparts : ∀ session : Session, (f session).parts = session.parts)
    (hheld : ∀ (session : Session) i, session.held? i = none → (f session).held? i = none) (j : Nat) :
    Renewed n (s.update j f) := by
  refine h.congr (List.length_modify ..) (fun _ => (isCurrent_update_iff hphase j).mp) rfl
    (fun _ => partsOf_update hparts j) fun id p hnone => ?_
  by_cases hj : j = id
  · subst hj
    cases hsession : s.sessions[j]? with
    | none =>
      rw [heldBy, update_sessions, List.getElem?_modify_eq, hsession]
      rfl
    | some session =>
      rw [heldBy_eq hsession] at hnone
      exact (heldBy_eq (sessions_update_self hsession) p).trans (hheld session _ hnone)
  · rw [heldBy, sessions_update_of_ne hj]
    exact hnone

theorem through (call : Output → Output.Effect) : Renewed n (s.through call) :=
  h.congr rfl (fun _ hid => hid) rfl (fun _ => rfl) fun _ _ hnone => hnone

theorem setCursor (i : Nat) (event : Option Nat) : Renewed n (s.setCursor i event) :=
  h.congr rfl (fun _ hid => hid) rfl (fun _ => rfl) fun _ _ hnone => hnone

/-- A part releases its note. -/
theorem release (id : Nat) (part : Part) : Renewed n (release id part s) := by
  rw [Playback.release]
  split
  · exact h
  · refine (h.update (f := (·.drop part.index)) (fun _ => rfl) (fun _ => rfl) (fun session i hnone => ?_)
      id).through _
    by_cases hi : i = part.index
    · rw [hi]
      exact session.held?_drop_self _
    · rw [Session.held?_drop_of_ne hi, hnone]

end Renewed

namespace Follows

theorem refl (s : Playback) : Follows s s := .inl (.refl s)

theorem trans {s₁ s₂ s₃ : Playback} (h : Follows s₁ s₂) (h' : Follows s₂ s₃) : Follows s₁ s₃ := by
  rcases h with h | h
  · refine h'.imp h.trans fun hr => ?_
    rwa [h.length] at hr
  · exact .inr (h.follows h')

end Follows

section Reporting

variable {emit : Report → Playback → Playback}
  (hstep : ∀ r s, IsScored melodies s → IsScored melodies (emit r s))
  (hemit : ∀ r s, IsScored melodies s → Follows s (emit r s))
include hstep hemit

omit hstep in
theorem leave_renewed (hs : IsScored melodies s) (h : Renewed n s) (id : Nat) (part : Part) :
    Renewed n (leave emit id s part) := by
  rw [leave]
  have hreleased := h.release id part
  have hscored := (IsScored.stepwise melodies).release id part hs
  split
  · exact (hreleased.setCursor part.performer none).follows
      (hemit _ _ ((IsScored.stepwise melodies).setCursor _ part.performer none hscored))
  · exact hreleased

theorem foldl_leave_renewed (id : Nat) (parts : List Part) (hs : IsScored melodies s)
    (h : Renewed n s) : Renewed n (parts.foldl (leave emit id) s) := by
  induction parts generalizing s with
  | nil => exact h
  | cons part parts ih =>
    exact ih ((IsScored.stepwise melodies).leave hstep id s part hs) (leave_renewed hemit hs h id part)

/-- When the active session ends, those that were there are over. -/
theorem finish_renewed_of_isCurrent (hs : IsScored melodies s) (hid : s.IsCurrent id) (how : Ending) :
    Renewed s.sessions.length (finish emit id how s) := by
  obtain ⟨hcurrent, session, hsession, hlive⟩ := hid
  have hidle : (s.conclude id how).current = none := if_pos hcurrent
  -- for a moment no session is active
  have hconcluded : Renewed s.sessions.length (s.conclude id how) := by
    refine ⟨(List.length_modify ..).ge, fun j hj => ?_⟩
    have hsome := hj.1
    rw [hidle] at hsome
    cases hsome
  rw [finish_of_live hsession hlive]
  have hleft := foldl_leave_renewed hstep hemit id session.parts
    ((IsScored.stepwise melodies).conclude s id how hs) hconcluded
  exact hleft.update (f := (·.resolve how)) (fun _ => rfl) (fun _ => rfl) (fun _ _ hnone => hnone) id

/-- Ending the session that is named as active leaves none of those that were there active. -/
theorem finish_renewed (hs : IsScored melodies s) (hcurrent : s.current = some id) (how : Ending) :
    Renewed s.sessions.length (finish emit id how s) := by
  by_cases hid : s.IsCurrent id
  · exact finish_renewed_of_isCurrent hstep hemit hs hid how
  · -- the session has ended before, or there is none
    have hsame : finish emit id how s = s := by
      rw [finish]
      cases hsession : s.sessions[id]? with
      | none => rfl
      | some session =>
        exact if_pos (Bool.not_eq_false _ ▸ fun hlive => hid ⟨hcurrent, session, hsession, hlive⟩)
    rw [hsame]
    refine ⟨Nat.le_refl _, fun j hj => ?_⟩
    obtain rfl := Option.some.inj (hcurrent.symm.trans hj.1)
    exact absurd hj hid

theorem stop_renewed (hs : IsScored melodies s) : Renewed s.sessions.length (stop emit s) := by
  rw [stop]
  cases hcurrent : s.current with
  | none =>
    refine ⟨Nat.le_refl _, fun id hid => ?_⟩
    rw [IsCurrent, hcurrent] at hid
    cases hid.1
  | some id =>
    exact (finish_renewed hstep hemit hs hcurrent .cancelled).follows
      (hemit .stop _ ((IsScored.stepwise melodies).finish hstep id .cancelled hs))

theorem clear_renewed (fuel : Nat) (hs : IsScored melodies s) (h : Renewed n s) :
    Renewed n (clear emit fuel s) := by
  induction fuel generalizing s with
  | zero => exact h
  | succ fuel ih =>
    rw [clear]
    cases hcurrent : s.current with
    | none => exact h
    | some id =>
      exact ih ((IsScored.stepwise melodies).finish hstep id .cancelled hs)
        ((finish_renewed hstep hemit hs hcurrent .cancelled).mono h.length)

theorem play_follows (hs : IsScored melodies s) (hparsed : AreParsed melodies) (performers : List Nat)
    (speed : Number) : Follows s (play emit performers speed s).2 := by
  rcases exists_play_eq performers hstep hs hparsed speed with heq | ⟨hspeed, t, plans, ht, hscored, hfounds⟩
  · rw [heq]
    exact .refl s
  · have hcleared := clear_renewed hstep hemit ((s.stop emit).reactionsLeft + 1)
      ((IsScored.stepwise melodies).stop hstep hs) (stop_renewed hstep hemit hs)
    rw [← ht] at hcleared
    obtain ⟨session, hsessions, -⟩ := hfounds.session
    refine .inr ⟨?_, fun id hid => ?_⟩
    · rw [hsessions, List.length_append]
      exact hcleared.length.trans (Nat.le_add_right ..)
    · obtain rfl := Option.some.inj (hfounds.current.symm.trans hid.1)
      exact ⟨hcleared.length, hfounds.isFresh hscored.timely hspeed⟩

theorem act_follows (hs : IsScored melodies s) (hparsed : AreParsed melodies) (r : Reaction) :
    Follows s (act emit r (s.record (.reaction r))) := by
  have hrecorded : Follows s (s.record (.reaction r)) := .inl (.record ..)
  have hscored := (IsScored.stepwise melodies).record s (.reaction r) hs
  cases r with
  | log | fail => exact hrecorded
  | stop => exact hrecorded.trans (.inr (stop_renewed hstep hemit hscored))
  | play performers speed =>
    exact hrecorded.trans (play_follows hstep hemit hscored hparsed performers _)
  | listen | assign => exact hrecorded.trans (.inl (.of_eq rfl rfl rfl rfl (Nat.le_refl _)))
  | resolve session => exact hrecorded.trans (.inl (.resolve ..))
  | panic => exact .inl (.silenced s)

end Reporting

section Acting

variable {act : Reaction → Playback → Playback}
  (hstep : ∀ r s, IsScored melodies s → IsScored melodies (act r s))
  (hact : ∀ r s, IsScored melodies s → Follows s (act r (s.record (.reaction r))))
include hstep hact

omit hstep in
theorem react_follows (hs : IsScored melodies s) (i : Nat) : Follows s (react act s i) := by
  rw [react]
  cases s.listeners[i]? with
  | none => exact .refl s
  | some l =>
    obtain ⟨topic, skip, times, reaction⟩ := l
    cases skip with
    | succ skip => exact .inl (.of_eq rfl rfl rfl rfl (Nat.le_refl _))
    | zero =>
      cases times with
      | zero => exact .refl s
      | succ times =>
        have hcounted : Still s (s.setListener i ⟨topic, 0, times, reaction⟩) :=
          .of_eq rfl rfl rfl rfl (Nat.le_refl _)
        have hscored := (IsScored.stepwise melodies).setListener s i ⟨topic, 0, times, reaction⟩ hs
        exact .trans (.inl hcounted) (hact reaction _ hscored)

theorem emitWith_follows (hs : IsScored melodies s) (r : Report) : Follows s (emitWith act r s) := by
  have hfoldl (is : List Nat) : ∀ s, IsScored melodies s → Follows s (is.foldl (react act) s) := by
    induction is with
    | nil => exact fun s _ => .refl s
    | cons i is ih =>
      intro s hs
      exact (react_follows hact hs i).trans
        (ih _ ((IsScored.stepwise melodies).react hstep s i hs))
  exact .trans (.inl (.record s (.report r))) (hfoldl _ _ ((IsScored.stepwise melodies).record s _ hs))

end Acting

theorem emitWithin_follows (hparsed : AreParsed melodies) (depth : Nat) (hs : IsScored melodies s)
    (r : Report) : Follows s (emitWithin depth r s) := by
  induction depth generalizing s r with
  | zero => exact emitWith_follows (fun _ _ h => h) (fun _ s _ => .inl (.record ..)) hs r
  | succ depth ih =>
    have hstep := (IsScored.stepwise melodies).emitWithin depth
    exact emitWith_follows ((IsScored.stepwise melodies).act hstep)
      (fun r s hs => act_follows hstep (fun r s hs => ih hs r) hs hparsed r) hs r

/-- All that listeners can do to the sessions that there are is to end them. -/
theorem emit_follows (hparsed : AreParsed melodies) (hs : IsScored melodies s) (r : Report) :
    Follows s (emit r s) :=
  emitWithin_follows hparsed _ hs r

/-- A command that lets no time pass either leaves the active session alone or ends it, unless it silences
the output. -/
theorem perform_follows (hparsed : AreParsed melodies) (hs : IsScored melodies s) {c : Command}
    (hwait : ¬ c.IsWait) (hpanic : c ≠ .panic) : Follows s (perform c s).2 := by
  have hstep := (IsScored.stepwise melodies).emit
  have hemit : ∀ r s, IsScored melodies s → Follows s (emit r s) := fun r s hs => emit_follows hparsed hs r
  cases c with
  | play performers speed => exact play_follows hstep hemit hs hparsed performers _
  | stop => exact .inr (stop_renewed hstep hemit hs)
  | advance | runAll => exact absurd trivial hwait
  | panic => exact absurd rfl hpanic
  | close => exact .inr ((stop_renewed hstep hemit hs).through _)
  | eligible | assign | listen => exact .inl (.of_eq rfl rfl rfl rfl (Nat.le_refl _))
  | resolve id =>
    rw [perform_resolve]
    exact .inl (.resolve ..)

end Monody.Playback
