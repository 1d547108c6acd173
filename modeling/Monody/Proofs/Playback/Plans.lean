import Monody.Proofs.Melody.Timeline
import Monody.Proofs.Midi.Library
import Monody.Proofs.Playback.Admissible
import Monody.Proofs.Playback.Agenda

/-!
# What voices are to play

A voice strikes its notes in their order, each at its start, and ends after the last of them. A speed
stretches all these times alike, so the timers that a performer sets are due in the order in which he
sets them.

## Main definitions

* `Melody.placedNotes` — the notes of a melody with their places
* `Voice.IsPerformable` — a voice of which every note can be struck
* `Plan.IsFor` — the plan of a performer's voice
* `Plan.timers` — the timers of a plan

## Main results

* `Number.IsSpeed.not_le_zero` — what is divided by is no speed that is refused
* `exists_noteOf` — every note of a performable voice can be struck
* `Plan.IsFor.pairwise_due` — the timers of a plan are set in turn
-/

namespace Monody

open Binary64

-- evaluated, the numbers of units are too long to be looked at
attribute [local irreducible] one bound

/-- A number whose real value is positive is positive itself. -/
theorem Number.IsSpeed.not_le_zero {speed : Number} (h : speed.IsSpeed) : ¬ speed ≤ 0 := by
  obtain ⟨r, hr, hfinite, hpos⟩ := h
  intro hle
  cases speed with
  | real x =>
    obtain rfl := Except.ok.inj hr
    obtain ⟨n, hn, rfl, hn0⟩ := exists_units_of_pos hfinite hpos
    have hunits := (real_le_whole_iff (k := 0) hn).mp hle
    rw [Int.zero_mul] at hunits
    omega
  | whole k =>
    have hk : k ≤ 0 := by
      rcases hle with hlt | heq
      · exact (compare_lt_iff_lt.mp (Option.some.inj hlt)).le
      · exact (compare_eq_iff_eq.mp (Option.some.inj heq)).le
    rw [Number.toReal, Number.realOfInt] at hr
    split at hr
    · obtain rfl := Except.ok.inj hr
      obtain ⟨hzero, hne⟩ := ne_nan_of_order hpos
      -- the real nearest to a number that is not positive is not positive
      have hmono : (Binary64.ofInt k).rank ≤ (Binary64.ofInt 0).rank :=
        rank_ofUnits_mono _ _ (Int.mul_le_mul_of_nonneg_right hk (Int.natCast_nonneg _))
      exact Int.not_lt.mpr hmono ((Binary64.lt_iff_rank hzero hne).mp hpos)
    · cases hr

/-! ## Notes of a voice -/

namespace Melody

/-- The notes of a melody, each with its place among the events. -/
def placedNotes (m : Melody) : List (Event × Nat) := m.events.zipIdx.filter (·.1.isPlayable)

theorem mem_placedNotes {m : Melody} {p : Event × Nat} :
    p ∈ m.placedNotes ↔ m.events[p.2]? = some p.1 ∧ p.1.isPlayable := by
  rw [placedNotes, List.mem_filter, List.mem_zipIdx_iff_getElem?]

/-- The notes of a score are in the order of their starts. -/
theorem pairwise_start_placedNotes {text : List Char} {m : Melody} (h : parse text = .ok m) :
    m.placedNotes.Pairwise (·.1.start ≤ ·.1.start) := by
  have horder := (isAfter_of_parse h).2
  rw [← List.zipIdx_map_fst 0 m.events, List.pairwise_map] at horder
  exact horder.filter _

end Melody

/-- Every note of the voice can be struck: the voice has a score, its notes have a velocity other than
zero, and each of them is in the table of pitches. -/
structure Voice.IsPerformable (v : Voice) : Prop where
  parsed : ∃ text, Melody.parse text = .ok v.melody
  velocity : ∃ velocity, v.velocity = .ok velocity ∧ velocity ≠ .zero
  named : ∀ e ∈ v.melody.notes, e.noteNumber?.isOk

namespace Playback

open Melody Clock

variable {s : Playback} {id : Nat} {plan : Plan} {v : Voice} {r now : Binary64} {p : Event × Nat}

/-- Every note of a performable voice can be struck. -/
theorem exists_noteOf (hv : v.IsPerformable) (hp : p ∈ v.melody.placedNotes) :
    ∃ note, noteOf p.1 = .ok (some note) := by
  obtain ⟨hevent, hplay⟩ := mem_placedNotes.mp hp
  have hmem := List.mem_of_getElem? hevent
  obtain ⟨text, hparse⟩ := hv.parsed
  obtain ⟨token, time, hread⟩ := exists_eventOf (readEvents_of_parse hparse) p.1 hmem
  have hnamed := hv.named p.1 (List.mem_filter.mpr ⟨hmem, hplay⟩)
  obtain ⟨n, hn, hlow, hhigh⟩ := exists_representable hread hplay (exists_ok_of_isOk hnamed)
  have hrange : 0 ≤ n ∧ n < 128 := by
    rw [Pitch.lowest, Pitch.minOctave, Pitch.semitones] at hlow
    rw [Pitch.highest, Pitch.maxOctave, Pitch.semitones] at hhigh
    omega
  obtain ⟨note, hdata⟩ := Midi.Data.exists_ofInt hrange
  refine ⟨note, ?_⟩
  rw [noteOf, hn]
  exact congrArg (fun d : Except Midi.Message.Fault Midi.Data => do
    return some (← d.mapError Fault.range)) hdata

/-! ## Times at a speed -/

section Seconds

variable {x y : Binary64} (hr : r.isFinite) (hpos : 0 < r)

theorem thousand_spec : (Binary64.ofInt 1000).isFinite ∧ 0 < Binary64.ofInt 1000 := by
  decide +kernel

include hr hpos

theorem isTime_secondsBy (hx : IsTime x) : IsTime (secondsBy r x) :=
  (hx.div hr hpos).div thousand_spec.1 thousand_spec.2

theorem secondsBy_le (hx : IsTime x) (hy : IsTime y) (h : x ≤ y) : secondsBy r x ≤ secondsBy r y :=
  (hx.div hr hpos).div_le_div thousand_spec.1 thousand_spec.2 (hy.div hr hpos)
    (hx.div_le_div hr hpos hy h)

end Seconds

/-! ## Timers of a plan -/

/-- The timer of a session for a task, some seconds after a time. -/
def timerAfter (now seconds : Binary64) (id : Nat) (task : Task) : Timer Task :=
  ⟨now + Binary64.max 0 seconds, id, task, false⟩

/-- What is set later is due later. -/
theorem timerAfter_due_le {x y : Binary64} (hnow : now.isFinite) (hx : IsTime x) (hy : IsTime y)
    (h : x ≤ y) (id : Nat) (task task' : Task) :
    (timerAfter now x id task).due ≤ (timerAfter now y id task').due := by
  rw [timerAfter, timerAfter, hx.max_zero, hy.max_zero]
  exact hx.add_le_add_left hnow hy h

/-- The timers that a performer sets who enters a session at a time. -/
def Plan.timers (now : Binary64) (id : Nat) (plan : Plan) : List (Timer Task) :=
  plan.strikes.map (fun k => timerAfter now k.1 id (.strike plan.part k.2)) ++
    [timerAfter now plan.part.ends id (.endPart plan.part)]

/-- The plan of a performer's voice, which is performable. -/
structure Plan.IsFor (s : Playback) (r : Binary64) (v : Voice) (plan : Plan) : Prop where
  performer : (s.performers[plan.part.performer]?).map (·.voice) = some v
  performable : v.IsPerformable
  velocity : v.velocity = .ok plan.part.velocity
  eq : plan = planBy r plan.part.index plan.part.performer v plan.part.velocity

namespace Plan.IsFor

variable (hplan : plan.IsFor s r v)
include hplan

theorem strikes_eq :
    plan.strikes = v.melody.placedNotes.map fun p => (secondsBy r p.1.start, p.2) :=
  congrArg Plan.strikes hplan.eq

theorem ends_eq : plan.part.ends = secondsBy r v.melody.total := congrArg (·.part.ends) hplan.eq

theorem audible : plan.part.velocity ≠ .zero := by
  obtain ⟨velocity, hvelocity, hne⟩ := hplan.performable.velocity
  obtain rfl := Except.ok.inj (hplan.velocity.symm.trans hvelocity)
  exact hne

/-- A timer of the plan strikes a note or ends the part. -/
theorem mem_timers {t : Timer Task} : t ∈ plan.timers now id ↔
    (∃ p ∈ v.melody.placedNotes,
      t = timerAfter now (secondsBy r p.1.start) id (.strike plan.part p.2)) ∨
    t = timerAfter now plan.part.ends id (.endPart plan.part) := by
  rw [timers, hplan.strikes_eq, List.map_map, List.mem_append, List.mem_map, List.mem_singleton]
  exact or_congr_left (exists_congr fun p => and_congr_right fun _ => eq_comm)

section Times

variable (hr : r.isFinite) (hpos : 0 < r)
include hr hpos

theorem isTime_ends : IsTime plan.part.ends := by
  obtain ⟨text, hparse⟩ := hplan.performable.parsed
  rw [hplan.ends_eq]
  exact isTime_secondsBy hr hpos (stop_le_total hparse).1

/-- No note is struck after the end. -/
theorem start_le_ends (hp : p ∈ v.melody.placedNotes) :
    IsTime (secondsBy r p.1.start) ∧ secondsBy r p.1.start ≤ plan.part.ends := by
  obtain ⟨hevent, hplay⟩ := mem_placedNotes.mp hp
  have hmem := List.mem_of_getElem? hevent
  obtain ⟨text, hparse⟩ := hplan.performable.parsed
  obtain ⟨htotal, hstops⟩ := stop_le_total hparse
  have hafter := (isAfter_of_parse hparse).1 p.1 hmem
  rw [hplan.ends_eq]
  refine ⟨isTime_secondsBy hr hpos hafter.start, secondsBy_le hr hpos hafter.start htotal ?_⟩
  exact Binary64.le_trans hafter.start_le_stop
    (hstops p.1 hmem (Event.isComment_of_isPlayable hplay))

/-- The timers of a plan are set in turn. -/
theorem pairwise_due (hnow : now.isFinite) :
    (plan.timers now id).Pairwise (·.due ≤ ·.due) := by
  obtain ⟨text, hparse⟩ := hplan.performable.parsed
  have hends := hplan.isTime_ends hr hpos
  rw [timers, hplan.strikes_eq, List.map_map]
  refine List.pairwise_append.mpr ⟨List.pairwise_map.mpr ?_, List.pairwise_singleton .., ?_⟩
  · refine (pairwise_start_placedNotes hparse).imp_of_mem fun {p q} hp hq hle => ?_
    have hafter {p : Event × Nat} (hp : p ∈ v.melody.placedNotes) : IsTime p.1.start :=
      ((isAfter_of_parse hparse).1 p.1 (List.mem_of_getElem? (mem_placedNotes.mp hp).1)).start
    exact timerAfter_due_le hnow (hplan.start_le_ends hr hpos hp).1
      (hplan.start_le_ends hr hpos hq).1 (secondsBy_le hr hpos (hafter hp) (hafter hq) hle) ..
  · intro t ht u hu
    obtain ⟨p, hp, rfl⟩ := List.mem_map.mp ht
    obtain rfl := List.mem_singleton.mp hu
    obtain ⟨hstart, hle⟩ := hplan.start_le_ends hr hpos hp
    exact timerAfter_due_le hnow hstart hends hle ..

/-- None of the timers of a plan is due after what comes after its end. -/
theorem due_le {last : Binary64} (hnow : now.isFinite) (hlast : IsTime last)
    (hle : plan.part.ends ≤ last) (task : Task) :
    ∀ t ∈ plan.timers now id, t.due ≤ (timerAfter now last id task).due := by
  intro t ht
  rcases hplan.mem_timers.mp ht with ⟨p, hp, rfl⟩ | rfl
  · obtain ⟨hstart, hstop⟩ := hplan.start_le_ends hr hpos hp
    exact timerAfter_due_le hnow hstart hlast (Binary64.le_trans hstop hle) ..
  · exact timerAfter_due_le hnow (hplan.isTime_ends hr hpos) hlast hle ..

end Times

end Plan.IsFor

end Playback

end Monody
