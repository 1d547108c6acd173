import Monody.Proofs.Melody.Octave
import Monody.Proofs.Melody.Timeline
import Monody.Proofs.Number

/-!
# Scores without gaps

Every token of a score has one event, and the clock runs through all of them: an event starts where the
last one before it that takes time has ended, and ends after its own duration, which is positive. Where
the clock stands in the end is the total, since it never runs back. A score is read so unless one of its
notes has an octave that cannot be read.

## Main definitions

* `clock` — where events leave the clock
* `IsTimeline` — events that stand for tokens, one after the other

## Main results

* `latest_eq_getLast` — the latest of times in order is the last
* `isTimeline_of_eventsFrom` — tokens are read as a timeline
* `isTimeline_of_parse` — a score is read as a timeline, unless it has a long octave
-/

namespace Monody

open Binary64

-- evaluated, the numbers of units are too long to be looked at
attribute [local irreducible] one bound

namespace Binary64

variable {x : Binary64} {xs : List Binary64}

/-- The latest of times in order is the last. -/
theorem foldl_max_eq_getLast (hx : IsTime x) (hxs : ∀ y ∈ xs, IsTime y)
    (h : (x :: xs).Pairwise (· ≤ ·)) : xs.foldl Binary64.max x = (x :: xs).getLastD 0 := by
  induction xs generalizing x with
  | nil => rfl
  | cons y xs ih =>
    obtain ⟨hy, hxs⟩ := List.forall_mem_cons.mp hxs
    obtain ⟨hle, hrest⟩ := List.pairwise_cons.mp h
    have hxy : x ≤ y := hle y List.mem_cons_self
    have hmax : x.max y = y := by
      rw [Binary64.max]
      split
      · rfl
      · next hnot => exact hx.le_antisymm hy hxy ((Binary64.not_lt hx.ne_nan hy.ne_nan).mp hnot)
    rw [List.foldl_cons, hmax, ih hy hxs hrest]
    rfl

theorem latest_eq_getLast (hxs : ∀ x ∈ xs, IsTime x) (h : xs.Pairwise (· ≤ ·)) :
    latest xs = xs.getLastD 0 := by
  cases xs with
  | nil => rfl
  | cons x xs =>
    obtain ⟨hx, hxs⟩ := List.forall_mem_cons.mp hxs
    exact foldl_max_eq_getLast hx hxs h

end Binary64

namespace Melody

variable {time : Binary64} {e : Event} {es : List Event} {token : Token} {ts : List Token}

/-! ## The clock -/

/-- Where events leave a clock that stood at a certain time: at the end of the last of them that takes
time. -/
def clockFrom (time : Binary64) (es : List Event) : Binary64 :=
  ((es.filter (!·.isComment)).map (·.stop)).getLastD time

/-- Where events leave the clock of a score. -/
def clock (es : List Event) : Binary64 := clockFrom 0 es

theorem clockFrom_cons :
    clockFrom time (e :: es) = clockFrom (if e.isComment then time else e.stop) es := by
  rw [clockFrom, clockFrom, List.filter_cons]
  cases e.isComment with
  | true => rfl
  | false => exact List.getLastD_cons

/-- Events that stand for tokens, one after the other. -/
structure IsTimeline (ts : List Token) (time : Binary64) (es : List Event) : Prop where
  /-- Every token has one event, with its slice and its place. -/
  tokens : List.Forall₂ (fun token e => e.raw = token.raw ∧ e.span = (token.start, token.stop)) ts es
  /-- An event starts where those before it leave the clock. -/
  start : ∀ before e after, es = before ++ e :: after → e.start = clockFrom time before
  /-- It ends after its duration, and not before it starts. -/
  stop : ∀ e ∈ es, e.stop = e.start + e.duration ∧ e.start ≤ e.stop
  /-- A comment takes no time. -/
  comment : ∀ e ∈ es, e.isComment = true → e.stop = e.start ∧ e.duration = 0
  /-- Any other event does. -/
  duration : ∀ e ∈ es, e.isComment = false → 0 < e.duration

/-- A duration that is stated or left out is positive. -/
theorem pos_of_resolveDuration? {stated : Option (List Char)} {x : Binary64}
    (h : resolveDuration? stated = some x) : 0 < x := by
  rcases eq_of_resolveDuration? h with rfl | ⟨d, rfl, hpos⟩
  · exact (Number.isFinite_of_realOfInt (n := 1000) (by decide)
      (Number.realOfInt_of_natAbs_le (by decide))).2
  · by_contra hnot
    exact hpos ((Binary64.not_lt isTime_zero.ne_nan (isTime_ofDecimal d).ne_nan).mp hnot)

/-- Tokens are read as a timeline. -/
theorem isTimeline_of_eventsFrom (h : eventsFrom time ts = .ok es) (htime : IsTime time) :
    IsTimeline ts time es := by
  induction ts generalizing time es with
  | nil =>
    obtain rfl := Except.ok.inj h
    exact ⟨.nil, by simp, by simp, by simp, by simp⟩
  | cons token ts ih =>
    obtain ⟨e, he, h⟩ := exists_of_bind_eq_ok h
    obtain ⟨rest, hrest, h⟩ := exists_of_bind_eq_ok h
    obtain rfl := Except.ok.inj h
    have hstart := start_of_eventOf he
    obtain ⟨-, hle⟩ := isTime_stop_of_eventOf he htime
    obtain ⟨hnext, -, -⟩ := isTime_next_of_eventOf he htime rfl
    obtain ⟨htokens, hstarts, hstops, hcomments, hdurations⟩ := ih hrest hnext
    have htimes := eventOf_times he
    -- the first event starts where the clock stands, and the others where it leaves the clock
    refine ⟨.cons (raw_of_eventOf he) htokens, fun before e' after hsplit => ?_,
      List.forall_mem_cons.mpr ⟨⟨?_, hstart ▸ hle⟩, hstops⟩,
      List.forall_mem_cons.mpr ⟨fun hcomment => ?_, hcomments⟩,
      List.forall_mem_cons.mpr ⟨fun hcomment => ?_, hdurations⟩⟩
    · cases before with
      | nil =>
        obtain ⟨rfl, -⟩ := List.cons.inj hsplit
        exact hstart
      | cons first before =>
        obtain ⟨rfl, hbefore⟩ := List.cons.inj hsplit
        rw [clockFrom_cons]
        exact hstarts before e' after hbefore
    · rcases htimes with ⟨-, -, -, hstop, hduration⟩ | ⟨-, -, hstop, -⟩
      · rw [hstop, hstart, hduration, htime.add_zero]
      · rw [hstop, hstart]
    · rcases htimes with ⟨-, -, -, hstop, hduration⟩ | ⟨hfalse, -⟩
      · exact ⟨hstop.trans hstart.symm, hduration⟩
      · rw [hcomment] at hfalse
        cases hfalse
    · rcases htimes with ⟨htrue, -⟩ | ⟨-, -, -, stated, hstated⟩
      · rw [hcomment] at htrue
        cases htrue
      · exact pos_of_resolveDuration? hstated

/-! ## Scores -/

section Parsed

variable {text : List Char} {m : Melody}

/-- The total of a score is where its events leave the clock. -/
theorem total_eq_clock (h : parse text = .ok m) : m.total = clock m.events := by
  obtain ⟨hafter, -⟩ := isAfter_of_parse h
  have horder : m.events.Pairwise (·.stop ≤ ·.stop) := by
    refine (stop_le_start_of_parse h).imp_of_mem fun _ he' hle => ?_
    exact Binary64.le_trans hle (hafter _ he').start_le_stop
  have htotal : m.total = latest ((m.events.filter (!·.isComment)).map (·.stop)) := rfl
  rw [htotal]
  refine latest_eq_getLast (fun x hx => ?_) (List.pairwise_map.mpr (horder.sublist List.filter_sublist))
  obtain ⟨e, he, rfl⟩ := List.mem_map.mp hx
  exact (hafter e (List.mem_filter.mp he).1).stop

/-- The flaws of a score are those of the events that have one. -/
theorem map_flaw_filter (es : List Event) :
    (es.filter (·.flaw.isSome)).map (·.flaw) = (es.filterMap (·.flaw)).map some := by
  induction es with
  | nil => rfl
  | cons e es ih => cases hflaw : e.flaw <;> simp [hflaw, ih]

/-- **A score is read as a timeline** without gaps, unless one of its notes has an octave that cannot be
read: each of its tokens has an event, the total is where the clock stands in the end, and the flaws are
those of the events that have one. -/
theorem isTimeline_of_parse (text : List Char) :
    ((∀ token ∈ tokens text, ¬ HasLongOctave token.text) ∧
      ∃ m, parse text = .ok m ∧ IsTimeline (tokens text) 0 m.events ∧ m.total = clock m.events ∧
        ∃ fs, validate text = .ok fs ∧
          (m.events.filter (·.flaw.isSome)).map (·.flaw) = fs.map some) ∨
    ((∃ token ∈ tokens text, HasLongOctave token.text) ∧
      ∃ fault, parse text = .error fault ∧ validate text = .error fault) := by
  have hread := @isOk_eventsFrom_iff (tokens text) 0
  cases hevents : eventsFrom 0 (tokens text) with
  | ok es =>
    rw [hevents] at hread
    have hparse : parse text = .ok ⟨text, es⟩ := by rw [parse, readEvents, hevents]; rfl
    refine .inl ⟨hread.mp rfl, ⟨text, es⟩, hparse, isTimeline_of_eventsFrom hevents isTime_zero,
      total_eq_clock hparse, es.filterMap (·.flaw), ?_, map_flaw_filter es⟩
    rw [validate, hparse]
    rfl
  | error fault =>
    rw [hevents] at hread
    have hparse : parse text = .error fault := by rw [parse, readEvents, hevents]; rfl
    refine .inr ⟨?_, fault, hparse, by rw [validate, hparse]; rfl⟩
    by_contra hnone
    exact absurd (hread.mpr fun token htoken hlong => hnone ⟨token, htoken, hlong⟩) Bool.false_ne_true

end Parsed

end Melody

end Monody
