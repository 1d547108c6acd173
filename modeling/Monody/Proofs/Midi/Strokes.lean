import Monody.Midi.Import
import Monody.Proofs.Midi.Library
import Monody.Proofs.Midi.Tempo

/-!
# Notes one after another

A voice strikes a note only after the one before it has ended. Its messages are then in order as they
stand, and of the strokes that a reader holds there is never more than one, so that each note is let
go of by the message that was written for it.

## Main definitions

* `Stroke` — a note held from one time to another
* `InTurn` — strokes none of which starts before the one before it has ended

## Main results

* `mergeSort_messages` — the messages are in order
* `foldl_step_eventsFrom` — the spans that are read are the strokes
-/

namespace Monody.Midi

/-- A note held from one time to another, in milliseconds or in ticks. -/
structure Stroke where
  start : ℕ
  stop : ℕ
  note : Data

namespace Stroke

/-- The messages of a stroke. -/
def messages (c : Channel) (velocity : Data) (s : Stroke) : List PlacedMessage :=
  [(s.start, .noteOn c s.note velocity), (s.stop, .noteOff c s.note .zero)]

/-- A stroke whose times are written as ticks. -/
def inTicks (tick : ℕ → ℕ) (s : Stroke) : Stroke := ⟨tick s.start, tick s.stop, s.note⟩

/-- The span of a stroke. -/
def span (c : Channel) (s : Stroke) : Span := ⟨s.start, s.stop, c, s.note⟩

end Stroke

/-- Strokes one after another from a time on, the last of which ends by a limit. -/
inductive InTurn (limit : ℕ) : ℕ → List Stroke → Prop
  | nil {t : ℕ} : InTurn limit t []
  | cons {t : ℕ} {s : Stroke} {ss : List Stroke} (hstart : t ≤ s.start) (hstop : s.start < s.stop)
      (htime : s.stop ≤ limit) (hrest : InTurn limit s.stop ss) : InTurn limit t (s :: ss)

variable {limit t : ℕ} {s : Stroke} {ss : List Stroke} {c : Channel} {velocity : Data}

theorem InTurn.of_le {t' : ℕ} (h : InTurn limit t' ss) (hle : t ≤ t') : InTurn limit t ss := by
  cases h with
  | nil => exact .nil
  | cons hstart hstop htime hrest => exact .cons (hle.trans hstart) hstop htime hrest

/-- Strokes stay one after another in ticks, if no tick is out of order and every stroke has a length. -/
theorem InTurn.inTicks {tick : ℕ → ℕ} {limit' : ℕ} (h : InTurn limit t ss)
    (hmono : ∀ {i j}, i ≤ j → j ≤ limit → tick i ≤ tick j)
    (hlonger : ∀ s ∈ ss, tick s.start < tick s.stop) (hlimit : ∀ j ≤ limit, tick j ≤ limit') :
    InTurn limit' (tick t) (ss.map (Stroke.inTicks tick)) := by
  induction h with
  | nil => exact .nil
  | cons hstart hstop htime _ ih =>
    obtain ⟨hs, hss⟩ := List.forall_mem_cons.mp hlonger
    exact .cons (hmono hstart (hstop.le.trans htime)) hs (hlimit _ htime) (ih hss)

/-! ## Writing -/

theorem InTurn.le_of_mem (h : InTurn limit t ss) :
    ∀ p ∈ ss.flatMap (Stroke.messages c velocity), (t : ℤ) ≤ p.1 := by
  induction h with
  | nil => exact fun p hp => absurd hp List.not_mem_nil
  | @cons t s ss hstart hstop _ _ ih =>
    intro p hp
    rcases List.mem_append.mp hp with hp | hp
    · simp only [Stroke.messages, List.mem_cons, List.not_mem_nil, or_false] at hp
      rcases hp with rfl | rfl <;> dsimp only <;> omega
    · have hle := ih p hp
      omega

/-- The messages of strokes are in order. -/
theorem InTurn.pairwise (h : InTurn limit t ss) :
    (ss.flatMap (Stroke.messages c velocity)).Pairwise fun a b => ¬ PlacedMessage.Before b a := by
  induction h with
  | nil => exact .nil
  | @cons t s ss hstart hstop _ hrest ih =>
    refine List.pairwise_append.mpr ⟨?_, ih, fun a ha b hb => ?_⟩
    · refine List.pairwise_pair.mpr ?_
      rintro (hlt | ⟨heq, -⟩) <;> simp only at * <;> omega
    · have hle := hrest.le_of_mem b hb
      simp only [Stroke.messages, List.mem_cons, List.not_mem_nil, or_false] at ha
      rcases ha with rfl | rfl
      · rintro (hlt | ⟨heq, -⟩) <;> simp only at * <;> omega
      · -- nothing has a lower rank than a message that lets go of a note
        rintro (hlt | ⟨-, hrank⟩)
        · simp only at hlt
          omega
        · exact absurd hrank (Nat.not_lt_zero _)

theorem InTurn.mergeSort_messages (h : InTurn limit t ss) :
    ((ss.flatMap (Stroke.messages c velocity)).mergeSort fun a b => ¬ PlacedMessage.Before b a) =
      ss.flatMap (Stroke.messages c velocity) := by
  refine List.mergeSort_of_pairwise (h.pairwise.imp fun hab => ?_)
  exact decide_eq_true hab

/-- The events of strokes can be written. -/
theorem InTurn.isWritable (h : InTurn limit t ss) :
    Track.IsWritable (eventsFrom t (ss.flatMap (Stroke.messages c velocity))) := by
  induction h with
  | nil => exact fun e he => absurd he List.not_mem_nil
  | @cons t s ss hstart hstop _ _ ih =>
    refine List.forall_mem_cons.mpr ⟨⟨?_, trivial⟩, List.forall_mem_cons.mpr ⟨⟨?_, trivial⟩, ih⟩⟩
    · simp only [Int.sub_nonneg]
      omega
    · simp only [Int.sub_nonneg]
      omega

/-! ## Reading -/

/-- No stroke is held. -/
def Idle (hs : List HeldNote) : Prop := ∀ h ∈ hs, h.strokes = []

namespace Pairing

variable {held : List HeldNote} {note : Data} {tick : ℤ}

theorem firstStroke?_strike (h : Idle held) :
    firstStroke? c note (strike c note tick held) = some tick := by
  induction held with
  | nil => simp [strike, firstStroke?]
  | cons first held ih =>
    obtain ⟨hfirst, hheld⟩ := List.forall_mem_cons.mp h
    rw [strike]
    by_cases hsame : first.channel = c ∧ first.note = note
    · rw [if_pos hsame]
      simp [firstStroke?, hsame, hfirst]
    · rw [if_neg hsame, firstStroke?, List.find?_cons_of_neg (by simpa using hsame)]
      exact ih hheld

theorem idle_letGo_strike (h : Idle held) : Idle (letGo c note (strike c note tick held)) := by
  induction held with
  | nil => simp [Idle, letGo, strike]
  | cons first held ih =>
    obtain ⟨hfirst, hheld⟩ := List.forall_mem_cons.mp h
    rw [strike]
    by_cases hsame : first.channel = c ∧ first.note = note
    · rw [if_pos hsame]
      refine List.forall_mem_cons.mpr ⟨by simp [hsame, hfirst], fun g hg => ?_⟩
      obtain ⟨g, hmem, rfl⟩ := List.mem_map.mp hg
      split
      · simp [hheld g hmem]
      · exact hheld g hmem
    · rw [if_neg hsame]
      refine List.forall_mem_cons.mpr ⟨?_, ih hheld⟩
      simp [hsame, hfirst]

/-- One stroke is read where none is held, and then none is held again. -/
theorem foldl_step_stroke (s : Stroke) (tick : ℤ) (spans : List Span) (h : Idle held)
    (hvelocity : velocity ≠ .zero) :
    ∃ held', Idle held' ∧
      (eventsFrom tick (s.messages c velocity)).foldl step ⟨tick, held, spans⟩ =
        ⟨s.stop, held', spans ++ [s.span c]⟩ := by
  refine ⟨letGo c s.note (strike c s.note s.start held), idle_letGo_strike h, ?_⟩
  have hstart : tick + (s.start - tick) = s.start := by omega
  have hstop : (s.start : ℤ) + (s.stop - s.start) = s.stop := by omega
  simp only [Stroke.messages, eventsFrom, List.foldl_cons, List.foldl_nil, step, if_neg hvelocity,
    hstart, hstop, endStroke, firstStroke?_strike h]
  rfl

/-- Strokes are read one after another. -/
theorem foldl_step_eventsFrom (t : ℕ) (ss : List Stroke) (spans : List Span) (h : Idle held)
    (hvelocity : velocity ≠ .zero) :
    ∃ tick held', Idle held' ∧
      (eventsFrom t (ss.flatMap (Stroke.messages c velocity))).foldl step ⟨t, held, spans⟩ =
        ⟨tick, held', spans ++ ss.map (Stroke.span c)⟩ := by
  induction ss generalizing t held spans with
  | nil => exact ⟨t, held, h, by simp [eventsFrom]⟩
  | cons s ss ih =>
    obtain ⟨held', hheld', hstroke⟩ := foldl_step_stroke s t spans h hvelocity
    obtain ⟨tick, held'', hheld'', hrest⟩ := ih s.stop (spans ++ [s.span c]) hheld'
    refine ⟨tick, held'', hheld'', ?_⟩
    have hevents : eventsFrom t ((s :: ss).flatMap (Stroke.messages c velocity)) =
        eventsFrom t (s.messages c velocity) ++
          eventsFrom s.stop (ss.flatMap (Stroke.messages c velocity)) := rfl
    rw [hevents, List.foldl_append, hstroke, hrest]
    simp

end Pairing

/-! ## Tracks -/

/-- The track of a voice with its strokes. -/
def strokeTrack (tempo : ℕ) (name : List Char) (c : Channel) (program velocity : Data)
    (stated : Bool) (ss : List Stroke) : Track :=
  ⟨0, .name name⟩ :: (if stated then [⟨0, .tempo tempo⟩] else []) ++
    ⟨0, .message (.program c program)⟩ :: eventsFrom 0 (ss.flatMap (Stroke.messages c velocity))

variable {tempo : ℕ} {name : List Char} {program : Data} {stated : Bool}

theorem strokeTrack_isWritable (h : InTurn limit 0 ss) (hname : ∀ c ∈ name, isNarrow c)
    (htempo : tempo ≤ Tempo.greatest) :
    (strokeTrack tempo name c program velocity stated ss).IsWritable := by
  intro e he
  rcases List.mem_append.mp he with he | he
  · rcases List.mem_cons.mp he with rfl | he
    · exact ⟨le_rfl, hname⟩
    · cases stated with
      | false => exact absurd he List.not_mem_nil
      | true =>
        obtain rfl := List.mem_singleton.mp he
        exact ⟨le_rfl, htempo⟩
  · rcases List.mem_cons.mp he with rfl | he
    · exact ⟨le_rfl, trivial⟩
    · exact h.isWritable e he

theorem excess?_eventsFrom (placed : List PlacedMessage) (last : ℤ) :
    Track.excess? (eventsFrom last placed) = none := by
  induction placed generalizing last with
  | nil => rfl
  | cons p placed ih => exact ih p.1

/-- Of the data of a track, only its name may be too long. -/
theorem excess?_strokeTrack :
    (strokeTrack tempo name c program velocity stated ss).excess? = (TrackEvent.name name).excess? := by
  have hrest := excess?_eventsFrom (ss.flatMap (Stroke.messages c velocity)) 0
  rw [strokeTrack, Track.excess?, List.cons_append, List.findSome?_cons]
  cases (TrackEvent.name name).excess? with
  | some n => rfl
  | none => cases stated <;> exact hrest

theorem title_strokeTrack (hname : name ≠ []) (rest : Track) :
    (strokeTrack tempo name c program velocity stated ss ++ rest).title = name := by
  obtain ⟨first, name, rfl⟩ := List.exists_cons_of_ne_nil hname
  rfl

theorem program?_strokeTrack (rest : Track) :
    (strokeTrack tempo name c program velocity stated ss ++ rest).program? = some program := by
  cases stated <;> rfl

/-- The spans of a track are those of its strokes. -/
theorem spans_strokeTrack (hvelocity : velocity ≠ .zero) :
    (strokeTrack tempo name c program velocity stated ss ++ [ending]).spans = ss.map (Stroke.span c) := by
  obtain ⟨tick, held, hidle, hread⟩ := Pairing.foldl_step_eventsFrom (c := c) 0 ss []
    (fun h hh => absurd hh List.not_mem_nil : Idle []) hvelocity
  have hfold : (strokeTrack tempo name c program velocity stated ss ++ [ending]).foldl Pairing.step .empty =
      ⟨tick + 0, held, ss.map (Stroke.span c)⟩ := by
    have hstart : (strokeTrack tempo name c program velocity stated ss ++ [ending]).foldl Pairing.step
        .empty = (eventsFrom 0 (ss.flatMap (Stroke.messages c velocity)) ++ [ending]).foldl
          Pairing.step ⟨0, [], []⟩ := by
      cases stated <;> rfl
    rw [hstart, List.foldl_append]
    exact congrArg (Pairing.step · ending) hread
  have hrest : Pairing.rest ⟨tick + 0, held, ss.map (Stroke.span c)⟩ = [] := by
    refine List.flatMap_eq_nil_iff.mpr fun h hh => ?_
    rw [hidle h hh]
    rfl
  rw [Track.spans, hfold]
  dsimp only
  rw [hrest, List.append_nil]

theorem tempi_placedFrom_eq_nil {track : Track} (h : ∀ e ∈ track, ∀ n, e.event ≠ .tempo n)
    (tick : ℤ) :
    ((track.placedFrom tick).filterMap fun p => match p.2 with
      | .tempo microseconds => some (p.1, (microseconds : Int))
      | _ => none) = [] := by
  induction track generalizing tick with
  | nil => rfl
  | cons e track ih =>
    obtain ⟨he, htrack⟩ := List.forall_mem_cons.mp h
    obtain ⟨delta, event⟩ := e
    cases event with
    | tempo n => exact absurd rfl (he n)
    | _ => exact ih htrack _

theorem ne_tempo_of_mem_eventsFrom {placed : List PlacedMessage} {last : ℤ} :
    ∀ e ∈ eventsFrom last placed, ∀ n, e.event ≠ .tempo n := by
  induction placed generalizing last with
  | nil => exact fun e he => absurd he List.not_mem_nil
  | cons p placed ih => exact List.forall_mem_cons.mpr ⟨fun n => TrackEvent.noConfusion, ih⟩

/-- A track states its tempo at its beginning, or none. -/
theorem tempi_strokeTrack :
    Track.tempi (strokeTrack tempo name c program velocity stated ss ++ [ending]) =
      if stated then [(0, (tempo : ℤ))] else [] := by
  have hrest : ∀ e ∈ eventsFrom 0 (ss.flatMap (Stroke.messages c velocity)) ++ [ending],
      ∀ n, e.event ≠ .tempo n := by
    intro e he
    rcases List.mem_append.mp he with he | he
    · exact ne_tempo_of_mem_eventsFrom e he
    · obtain rfl := List.mem_singleton.mp he
      exact fun n => TrackEvent.noConfusion
  cases stated with
  | false => exact tempi_placedFrom_eq_nil hrest 0
  | true => exact congrArg ((0, (tempo : ℤ)) :: ·) (tempi_placedFrom_eq_nil hrest 0)

/-! ## Performances -/

/-- A stroke as it is played when its ticks are read as times. -/
def Stroke.playedAt (time : ℕ → Binary64) (c : Channel) (s : Stroke) : Performance.Note :=
  ⟨.real (time s.start), .real (time s.stop), s.note.val, c.val⟩

/-- A stroke as it is played when it is read. -/
def Stroke.played (c : Channel) (s : Stroke) : Performance.Note := s.playedAt tickTime c

/-- The span of a stroke is a note, if its times are known and the note has a length. -/
theorem noteOfSpan_of_toMs {m : TempoMap} {time : ℕ → Binary64} {length : ℤ}
    (hstart : m.toMs s.start = .ok (time s.start)) (hstop : m.toMs s.stop = .ok (time s.stop))
    (hlength : Number.roundHalfUp (time s.stop - time s.start) = .ok length) (hpos : 0 < length)
    (hpitch : Pitch.Representable s.note.val) :
    noteOfSpan m (s.span c) = .ok (some (s.playedAt time c)) := by
  have hkeep : ¬ (length ≤ 0 ∨ ¬ Pitch.Representable s.note.val) := by
    rintro (hle | hnot)
    · omega
    · exact hnot hpitch
  rw [noteOfSpan, Stroke.span]
  dsimp only
  rw [hstart, ok_bind, hstop, ok_bind, hlength, ok_bind, if_neg hkeep]
  rfl

/-- The performance of a track is that of its strokes. -/
theorem performance_of_noteOfSpan {m : TempoMap} {time : ℕ → Binary64} (hvelocity : velocity ≠ .zero)
    (h : ∀ s ∈ ss, noteOfSpan m (s.span c) = .ok (some (s.playedAt time c))) :
    performance m (strokeTrack tempo name c program velocity stated ss ++ [ending]) =
      .ok (ss.map (Stroke.playedAt time c)) := by
  have hnotes : (ss.map (Stroke.span c)).mapM (noteOfSpan m) =
      .ok (ss.map fun s => some (s.playedAt time c)) := by
    induction ss with
    | nil => rfl
    | cons s ss ih =>
      obtain ⟨hs, hss⟩ := List.forall_mem_cons.mp h
      rw [List.map_cons, List.mapM_cons, hs, ok_bind, ih hss]
      rfl
  have hkept : (ss.map fun s => some (s.playedAt time c)).filterMap id =
      ss.map (Stroke.playedAt time c) := by
    simp
  rw [performance, spans_strokeTrack hvelocity, hnotes, ok_bind, hkept]
  rfl

theorem noteOfSpan_span (hstop : s.start < s.stop) (htime : s.stop ≤ greatestTime)
    (hpitch : Pitch.Representable s.note.val) :
    noteOfSpan defaultMap (s.span c) = .ok (some (s.played c)) := by
  have hsmall : s.stop ≤ 2 ^ 50 := by
    rw [greatestTime] at htime
    omega
  have hlength : Number.roundHalfUp (tickTime s.stop - tickTime s.start) =
      .ok ((s.stop - s.start : ℕ) : ℤ) :=
    ((near_tickTime htime).sub (near_tickTime (hstop.le.trans htime)) hstop hsmall).roundHalfUp
      (by omega)
  exact noteOfSpan_of_toMs (toMs_natCast (hstop.le.trans htime)) (toMs_natCast htime) hlength
    (by omega) hpitch

theorem InTurn.forall_mem (h : InTurn limit t ss) :
    ∀ s ∈ ss, t ≤ s.start ∧ s.start < s.stop ∧ s.stop ≤ limit := by
  induction h with
  | nil => exact fun s hs => absurd hs List.not_mem_nil
  | @cons t s ss hstart hstop htime _ ih =>
    refine List.forall_mem_cons.mpr ⟨⟨hstart, hstop, htime⟩, fun s' hs' => ?_⟩
    obtain ⟨hlow, hrest⟩ := ih s' hs'
    exact ⟨hstart.trans (hstop.le.trans hlow), hrest⟩

/-- The performance of a track of milliseconds. -/
theorem performance_strokeTrack (h : InTurn greatestTime t ss)
    (hpitch : ∀ s ∈ ss, Pitch.Representable s.note.val) (hvelocity : velocity ≠ .zero) :
    performance defaultMap (strokeTrack tempo name c program velocity stated ss ++ [ending]) =
      .ok (ss.map (Stroke.played c)) := by
  refine performance_of_noteOfSpan hvelocity fun s hs => ?_
  obtain ⟨-, hstop, htime⟩ := h.forall_mem s hs
  exact noteOfSpan_span hstop htime (hpitch s hs)

end Monody.Midi
