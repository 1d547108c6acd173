import Monody.Proofs.Binary64.Time
import Monody.Proofs.Melody.Events

/-!
# The timeline of a score

Every event of a score starts where the one before it ends, and its end is a number that is not
negative, or infinite if the durations are too long. The total of a score is the latest of these
ends, and so it bounds them all.

## Main results

* `eventOf_placed` — what the event of one token is
* `eventOf_times` — its times
* `isAfter_of_parse` — the events of a score are in the order of their starts
* `stop_le_start_of_parse` — none of them starts before those in front of it have ended
* `stop_le_of_total_le` — no event ends after the total
-/

namespace Monody

open Binary64

-- evaluated, the numbers of units are too long to be looked at
attribute [local irreducible] one bound

namespace Melody

variable {time : Binary64} {e : Event} {es : List Event} {token : Token} {ts : List Token}

/-- The event of a token is a comment, or it is placed with the duration that its token states or leaves
out. -/
theorem eventOf_placed (h : eventOf token time = .ok e) :
    e = ⟨.comment, time, time, 0, none, token.raw, (token.start, token.stop)⟩ ∨
      ∃ content stated cause, content ≠ .comment ∧
        e = placed token time content (resolveDuration? stated) cause := by
  rcases eventOf_eq_cases h with ⟨-, he⟩ | ⟨stated, -, he⟩ | ⟨parts, n, -, -, he⟩ | ⟨-, -, -, he⟩
  · exact .inl he
  · exact .inr ⟨.pause, stated, _, by simp, he⟩
  · exact .inr ⟨.note parts.letter parts.sharp n, parts.duration, _, by simp, he⟩
  · -- no duration can be read from nothing
    exact .inr ⟨.unreadable, some [], _, by simp, he⟩

/-- A comment takes no time; any other event takes the duration that its token states or leaves
out. -/
theorem eventOf_times (h : eventOf token time = .ok e) :
    (e.isComment = true ∧ e.flaw = none ∧ e.start = time ∧ e.stop = time ∧ e.duration = 0) ∨
      (e.isComment = false ∧ e.start = time ∧ e.stop = time + e.duration ∧
        ∃ stated, resolveDuration? stated = some e.duration) := by
  rcases eventOf_placed h with rfl | ⟨content, stated, cause, hcontent, rfl⟩
  · exact .inl ⟨rfl, rfl, rfl, rfl, rfl⟩
  · refine .inr ⟨beq_eq_false_iff_ne.mpr hcontent, rfl, rfl, ?_⟩
    cases hx : resolveDuration? stated with
    | none => exact ⟨none, rfl⟩
    | some x => exact ⟨stated, hx⟩

/-- The slice and the place of an event are those of its token. -/
theorem raw_of_eventOf (h : eventOf token time = .ok e) :
    e.raw = token.raw ∧ e.span = (token.start, token.stop) := by
  rcases eventOf_placed h with rfl | ⟨content, stated, cause, -, rfl⟩ <;> exact ⟨rfl, rfl⟩

/-- A note takes time. -/
theorem Event.isComment_of_isPlayable {e : Event} (h : e.isPlayable) : e.isComment = false := by
  rw [Event.isPlayable, Event.isNote, Bool.and_eq_true] at h
  rw [Event.isComment]
  cases hcontent : e.content with
  | note => rfl
  | _ => rw [hcontent] at h; exact absurd h.1 Bool.false_ne_true

theorem isWhole_of_isComment (h : eventOf token time = .ok e) (hcomment : e.isComment = true) :
    e.duration.isWhole := by
  rcases eventOf_times h with ⟨-, -, -, -, hduration⟩ | ⟨hfalse, -⟩
  · rw [hduration, zero_eq]
    rfl
  · rw [hcomment] at hfalse
    cases hfalse

theorem finite_of_eventOf (h : eventOf token time = .ok e) (hfinite : e.duration.isFinite)
    (hcomment : e.isComment = false) :
    ∃ n hn, e.duration = .finite false n hn ∧ 0 < n ∧ e.stop = time + .finite false n hn := by
  rcases eventOf_times h with ⟨htrue, -⟩ | ⟨-, -, hstop, stated, hstated⟩
  · rw [hcomment] at htrue
    cases htrue
  · obtain ⟨n, hn, heq, hpos⟩ := eq_finite_of_resolveDuration? hstated hfinite
    exact ⟨n, hn, heq, hpos, heq ▸ hstop⟩

/-- Every event starts at the time its token is read at. -/
theorem start_of_eventOf (h : eventOf token time = .ok e) : e.start = time := by
  rcases eventOf_times h with ⟨-, -, hstart, -⟩ | ⟨-, hstart, -⟩ <;> exact hstart

/-- A duration that is stated or left out is a time. -/
theorem isTime_of_resolveDuration? {stated : Option (List Char)} {x : Binary64}
    (h : resolveDuration? stated = some x) : IsTime x := by
  rcases eq_of_resolveDuration? h with rfl | ⟨d, rfl, -⟩
  · exact defaultDuration_eq ▸ .finite _
  · exact isTime_ofDecimal d

/-- An event ends at a time, and not before it starts. -/
theorem isTime_stop_of_eventOf (h : eventOf token time = .ok e) (htime : IsTime time) :
    IsTime e.stop ∧ time ≤ e.stop := by
  rcases eventOf_times h with ⟨-, -, -, hstop, -⟩ | ⟨-, -, hstop, stated, hstated⟩
  · rw [hstop]
    exact ⟨htime, Binary64.le_refl htime.ne_nan⟩
  · have hduration := isTime_of_resolveDuration? hstated
    rw [hstop]
    exact ⟨htime.add hduration, htime.le_add hduration⟩

/-- The times of an event that does not start before a certain one. -/
structure Event.IsAfter (time : Binary64) (e : Event) : Prop where
  start : IsTime e.start
  stop : IsTime e.stop
  le_start : time ≤ e.start
  start_le_stop : e.start ≤ e.stop

/-- The clock runs on from the time of a comment, and from the end of any other event. -/
theorem isTime_next_of_eventOf (h : eventOf token time = .ok e) (htime : IsTime time) {next : Binary64}
    (hnext : next = if e.isComment then time else e.stop) :
    IsTime next ∧ time ≤ next ∧ e.stop ≤ next := by
  obtain ⟨hstop, hle⟩ := isTime_stop_of_eventOf h htime
  subst hnext
  split
  · next hcomment =>
    rcases eventOf_times h with ⟨-, -, -, heq, -⟩ | ⟨hfalse, -⟩
    · rw [heq]
      exact ⟨htime, Binary64.le_refl htime.ne_nan, Binary64.le_refl htime.ne_nan⟩
    · rw [hcomment] at hfalse
      cases hfalse
  · exact ⟨hstop, hle, Binary64.le_refl hstop.ne_nan⟩

/-- The events of a score are in the order of their starts. -/
theorem isAfter_of_eventsFrom (h : eventsFrom time ts = .ok es) (htime : IsTime time) :
    (∀ e ∈ es, e.IsAfter time) ∧ es.Pairwise (·.start ≤ ·.start) := by
  induction ts generalizing time es with
  | nil =>
    obtain rfl := Except.ok.inj h
    exact ⟨fun e he => absurd he List.not_mem_nil, .nil⟩
  | cons token ts ih =>
    obtain ⟨e, he, h⟩ := exists_of_bind_eq_ok h
    obtain ⟨rest, hrest, h⟩ := exists_of_bind_eq_ok h
    obtain rfl := Except.ok.inj h
    have hstart := start_of_eventOf he
    obtain ⟨hstop, hle⟩ := isTime_stop_of_eventOf he htime
    obtain ⟨hnext, hlater, -⟩ := isTime_next_of_eventOf he htime rfl
    obtain ⟨hafter, horder⟩ := ih hrest hnext
    refine ⟨List.forall_mem_cons.mpr ⟨?_, fun e' he' => ?_⟩, List.pairwise_cons.mpr ⟨?_, horder⟩⟩
    · exact ⟨hstart.symm ▸ htime, hstop, hstart.symm ▸ Binary64.le_refl htime.ne_nan,
        hstart.symm ▸ hle⟩
    · exact { hafter e' he' with le_start := Binary64.le_trans hlater (hafter e' he').le_start }
    · exact fun e' he' => hstart.symm ▸ Binary64.le_trans hlater (hafter e' he').le_start

/-- No event of a score starts before those in front of it have ended. -/
theorem stop_le_start_of_eventsFrom (h : eventsFrom time ts = .ok es) (htime : IsTime time) :
    es.Pairwise (·.stop ≤ ·.start) := by
  induction ts generalizing time es with
  | nil =>
    obtain rfl := Except.ok.inj h
    exact .nil
  | cons token ts ih =>
    obtain ⟨e, he, h⟩ := exists_of_bind_eq_ok h
    obtain ⟨rest, hrest, h⟩ := exists_of_bind_eq_ok h
    obtain rfl := Except.ok.inj h
    obtain ⟨hnext, -, hstop⟩ := isTime_next_of_eventOf he htime rfl
    refine List.pairwise_cons.mpr ⟨fun e' he' => ?_, ih hrest hnext⟩
    exact Binary64.le_trans hstop ((isAfter_of_eventsFrom hrest hnext).1 e' he').le_start

section Parsed

variable {text : List Char} {m : Melody}

theorem isAfter_of_parse (h : parse text = .ok m) :
    (∀ e ∈ m.events, e.IsAfter 0) ∧ m.events.Pairwise (·.start ≤ ·.start) :=
  isAfter_of_eventsFrom (readEvents_of_parse h) isTime_zero

theorem stop_le_start_of_parse (h : parse text = .ok m) : m.events.Pairwise (·.stop ≤ ·.start) :=
  stop_le_start_of_eventsFrom (readEvents_of_parse h) isTime_zero

/-- The notes of a score have times, and none of them starts before those in front of it have ended. -/
theorem inTurn_notes_of_parse (h : parse text = .ok m) :
    (∀ e ∈ m.notes, e.IsAfter 0) ∧ m.notes.Pairwise (·.stop ≤ ·.start) :=
  ⟨fun e he => (isAfter_of_parse h).1 e (List.mem_filter.mp he).1,
    (stop_le_start_of_parse h).sublist List.filter_sublist⟩

/-- No event that takes time ends after the total. -/
theorem stop_le_total (h : parse text = .ok m) :
    IsTime m.total ∧ ∀ e ∈ m.events, e.isComment = false → e.stop ≤ m.total := by
  have hlatest : m.total = latest ((m.events.filter (!·.isComment)).map (·.stop)) := rfl
  have hstops : ∀ x ∈ (m.events.filter (!·.isComment)).map (·.stop), IsTime x := by
    intro x hx
    obtain ⟨e, he, rfl⟩ := List.mem_map.mp hx
    exact ((isAfter_of_parse h).1 e (List.mem_filter.mp he).1).stop
  obtain ⟨htotal, hle⟩ := le_latest hstops
  rw [hlatest]
  refine ⟨htotal, fun e he hcomment => hle e.stop (List.mem_map_of_mem ?_)⟩
  exact List.mem_filter.mpr ⟨he, by simp [hcomment]⟩

/-- What bounds the total of a score bounds the end of each of its events that takes time. -/
theorem stop_le_of_total_le {k : ℤ} (h : parse text = .ok m)
    (htotal : Number.real m.total ≤ .whole k) :
    ∀ e ∈ m.events, e.isComment = false → Number.real e.stop ≤ .whole k := by
  obtain ⟨htime, hstops⟩ := stop_le_total h
  intro e he hcomment
  exact ((isAfter_of_parse h).1 e he).stop.le_whole_of_le htime (hstops e he hcomment) htotal

end Parsed

end Melody

end Monody
