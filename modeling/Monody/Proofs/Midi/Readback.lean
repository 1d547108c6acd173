import Monody.Proofs.Midi.TickOrder
import Monody.Proofs.Midi.Unnumbered
import Monody.Proofs.Midi.Weaving

/-!
# Reading back the track of a voice

A voice is written as a track at any positive resolution and tempo. Coarse ticks may put several notes
on one tick, and since every note lasts a tick at least, the notes of one tick overlap those of the next.
Still the ticks are in the order of the times, so that the spans of the notes are staggered, and a reader
finds in the track exactly these spans.

## Main definitions

* `IsSpanOf` — the span that a note is written as
* `ReadsBack` — of a track exactly the spans of some notes are read

## Main results

* `areStaggered_of_spans` — the spans of a score are staggered
* `isOk_trackOfVoice_iff` — when a voice has a track
* `readsBack_trackOfVoice` — of the track of a voice its notes are read
-/

namespace Monody.Midi

open Melody (Event)
open Binary64 (IsTime)

variable {c : Channel} {velocity : Data} {resolution : Number} {tempo : ℤ} {e e' : Event}
  {es : List Event} {s s' : Span} {ss : List Span}

/-- A span is the one that a note is written as: it starts at the tick of the start and ends at the tick
of the end, but at least a tick later. -/
structure IsSpanOf (c : Channel) (resolution : Number) (tempo : ℤ) (e : Event) (s : Span) : Prop where
  channel : s.channel = c
  note : e.noteNumber? = .ok (some s.note.val)
  start : ticksOfMs e.start resolution tempo = .ok s.start
  stop : ∃ off, ticksOfMs e.stop resolution tempo = .ok off ∧ s.stop = max (s.start + 1) off

/-- Of a track exactly the spans of some notes are read, in their order. No event comes before the one in
front of it, none lets go of a note that is not held, and no note is held at the end. -/
structure ReadsBack (c : Channel) (resolution : Number) (tempo : ℤ) (notes : List Event) (t : Track) :
    Prop where
  delta : ∀ e ∈ t, 0 ≤ e.delta
  spans : List.Forall₂ (IsSpanOf c resolution tempo) notes (t.foldl Pairing.step .empty).spans
  matched : Pairing.unmatched .empty t = []
  closed : (t.foldl Pairing.step .empty).rest = []

/-! ## Spans of notes -/

/-- A note has a number or a fault. -/
theorem exists_of_noteNumber? (hplay : e.isPlayable) {number : Option ℤ}
    (h : e.noteNumber? = .ok number) : ∃ n, number = some n := by
  obtain ⟨hnote, hflaw⟩ := isPlayable_iff.mp hplay
  cases hcontent : e.content with
  | note letter sharp octave =>
    rw [Melody.noteNumber?_of_note hcontent hflaw] at h
    cases hn : Pitch.noteNumber (Pitch.nameOf letter sharp) octave with
    | ok n =>
      rw [hn] at h
      exact ⟨n, (Except.ok.inj h).symm⟩
    | error fault =>
      rw [hn] at h
      cases h
  | pause | comment | unreadable => simp [Event.isNote, hcontent] at hnote

/-- The messages of a note are those of its span. -/
theorem exists_span_of_messagesOfEvent (hplay : e.isPlayable) {ms : List PlacedMessage}
    (h : messagesOfEvent c velocity resolution tempo e = .ok ms) :
    ∃ s, IsSpanOf c resolution tempo e s ∧ ms = s.messages velocity := by
  rw [messagesOfEvent] at h
  obtain ⟨number, hnumber, h⟩ := exists_of_bind_eq_ok h
  rw [mapError_eq_ok_iff] at hnumber
  obtain ⟨n, rfl⟩ := exists_of_noteNumber? hplay hnumber
  obtain ⟨on, hon, h⟩ := exists_of_bind_eq_ok h
  obtain ⟨off, hoff, h⟩ := exists_of_bind_eq_ok h
  obtain ⟨note, hnote, h⟩ := exists_of_bind_eq_ok h
  obtain rfl := Except.ok.inj h
  rw [mapError_eq_ok_iff] at hon hoff hnote
  have hval : (note.val : ℤ) = n := Data.val_of_ofInt hnote
  exact ⟨⟨on, max (on + 1) off, c, note⟩, ⟨rfl, hval ▸ hnumber, hon, off, hoff, rfl⟩, rfl⟩

/-- The messages of events are those of the spans of the notes among them. -/
theorem exists_spans_of_mapM {placed : List (List PlacedMessage)}
    (h : es.mapM (messagesOfEvent c velocity resolution tempo) = .ok placed) :
    ∃ ss, List.Forall₂ (IsSpanOf c resolution tempo) (es.filter (·.isPlayable)) ss ∧
      placed.flatten = ss.flatMap (·.messages velocity) := by
  rw [mapM_eq_ok_iff] at h
  induction h with
  | nil => exact ⟨[], .nil, rfl⟩
  | @cons e ms es placed hms _ ih =>
    obtain ⟨ss, hss, hflatten⟩ := ih
    cases hplay : e.isPlayable with
    | true =>
      obtain ⟨s, hs, rfl⟩ := exists_span_of_messagesOfEvent hplay hms
      refine ⟨s :: ss, ?_, ?_⟩
      · rw [List.filter_cons_of_pos hplay]
        exact .cons hs hss
      · rw [List.flatten_cons, List.flatMap_cons, hflatten]
    | false =>
      rw [Sounds.messagesOfEvent_of_silent hplay] at hms
      obtain rfl := Except.ok.inj hms
      refine ⟨ss, ?_, hflatten⟩
      rw [List.filter_cons_of_neg (by simp [hplay])]
      exact hss

namespace IsSpanOf

theorem start_lt_stop (h : IsSpanOf c resolution tempo e s) : s.start < s.stop := by
  obtain ⟨off, -, hstop⟩ := h.stop
  omega

section Order

variable (hresolution : 0 < resolution) (htempo : 0 < tempo)
include hresolution htempo

theorem start_nonneg (h : IsSpanOf c resolution tempo e s) (he : e.IsAfter 0) : 0 ≤ s.start :=
  tick_nonneg hresolution htempo he.start h.start

/-- The span of a later note neither starts nor ends earlier. -/
theorem le (h : IsSpanOf c resolution tempo e s) (h' : IsSpanOf c resolution tempo e' s')
    (he : e.IsAfter 0) (he' : e'.IsAfter 0) (hturn : e.stop ≤ e'.start) :
    s.start ≤ s'.start ∧ s.stop ≤ s'.stop := by
  obtain ⟨off, hoff, hstop⟩ := h.stop
  obtain ⟨off', -, hstop'⟩ := h'.stop
  have hstart : s.start ≤ s'.start :=
    tick_le_tick hresolution htempo he.start he'.start (Binary64.le_trans he.start_le_stop hturn)
      h.start h'.start
  have hbetween : off ≤ s'.start := tick_le_tick hresolution htempo he.stop he'.start hturn hoff h'.start
  exact ⟨hstart, by omega⟩

end Order

end IsSpanOf

/-- The spans of events one after another are staggered. -/
theorem areStaggered_of_spans (hresolution : 0 < resolution) (htempo : 0 < tempo)
    (h : List.Forall₂ (IsSpanOf c resolution tempo) es ss) (hafter : ∀ e ∈ es, e.IsAfter 0)
    (hturn : es.Pairwise (·.stop ≤ ·.start)) : AreStaggered ss ∧ ∀ s ∈ ss, 0 ≤ s.start := by
  induction h with
  | nil =>
    exact ⟨⟨fun s hs => absurd hs List.not_mem_nil, .nil, .nil⟩, fun s hs => absurd hs List.not_mem_nil⟩
  | @cons e s es ss hs hss ih =>
    obtain ⟨he, hafter⟩ := List.forall_mem_cons.mp hafter
    obtain ⟨hfirst, hturn⟩ := List.pairwise_cons.mp hturn
    obtain ⟨hstaggered, hlow⟩ := ih hafter hturn
    have hle : ∀ s' ∈ ss, s.start ≤ s'.start ∧ s.stop ≤ s'.stop := by
      intro s' hs'
      obtain ⟨e', he', hspan⟩ := exists_of_mem_right hss s' hs'
      exact hs.le hresolution htempo hspan he (hafter e' he') (hfirst e' he')
    refine ⟨⟨?_, ?_, ?_⟩, List.forall_mem_cons.mpr ⟨hs.start_nonneg hresolution htempo he, hlow⟩⟩
    · exact List.forall_mem_cons.mpr ⟨hs.start_lt_stop, hstaggered.long⟩
    · exact List.pairwise_cons.mpr ⟨fun s' hs' => (hle s' hs').1, hstaggered.starts⟩
    · exact List.pairwise_cons.mpr ⟨fun s' hs' => (hle s' hs').2, hstaggered.stops⟩

/-! ## Tracks -/

theorem orOne_ne_zero (d : Data) : d.orOne ≠ .zero := by
  rw [Data.orOne]
  split
  · decide
  · assumption

/-- Of the sorted messages of staggered spans exactly the spans are read. -/
theorem readsBack_eventsFrom {notes : List Event} (hvelocity : velocity ≠ .zero) (h : AreStaggered ss)
    (hlow : ∀ s ∈ ss, 0 ≤ s.start) (hspans : List.Forall₂ (IsSpanOf c resolution tempo) notes ss) :
    ReadsBack c resolution tempo notes (eventsFrom 0
      ((ss.flatMap (·.messages velocity)).mergeSort fun a b => ¬ PlacedMessage.Before b a)) := by
  obtain ⟨hmatched, hread, hrest⟩ := (woven_mergeSort h).foldl_step hvelocity .nil 0 []
  refine ⟨delta_nonneg_of_pairwise (fun m hm => ?_) (PlacedMessage.pairwise_mergeSort _), ?_, hmatched,
    hrest.rest_eq_nil⟩
  · obtain ⟨s, hs, hm⟩ := List.mem_flatMap.mp (List.mem_mergeSort.mp hm)
    have hstart := hlow s hs
    rcases List.mem_pair.mp hm with rfl | rfl
    · exact hstart
    · exact hstart.trans (h.long s hs).le
  · change List.Forall₂ _ notes (List.foldl Pairing.step ⟨0, [], []⟩ _).spans
    rw [hread]
    exact hspans

/-- What a track begins with makes no notes. -/
theorem ReadsBack.prepend {notes : List Event} {t : Track} (h : ReadsBack c resolution tempo notes t)
    {e : TimedEvent} (hdelta : e.delta = 0) (hstep : Pairing.step .empty e = .empty)
    (hstray : Pairing.IsStray .empty e = false) : ReadsBack c resolution tempo notes (e :: t) := by
  refine ⟨List.forall_mem_cons.mpr ⟨hdelta.ge, h.delta⟩, ?_, ?_, ?_⟩
  · rw [List.foldl_cons, hstep]
    exact h.spans
  · rw [Pairing.unmatched, hstray, hstep]
    exact h.matched
  · rw [List.foldl_cons, hstep]
    exact h.closed

section Voice

variable {v : Voice} {text : List Char} {index : ℕ} {stated : Bool} {t : Track}

theorem isOk_writtenVelocity_iff : (writtenVelocity v).isOk ↔ v.velocity.isOk := by
  rw [writtenVelocity]
  cases v.velocity <;> exact Iff.rfl

theorem isOk_tempoEvent_iff (htempo : 0 < tempo) : (tempoEvent tempo).isOk ↔ tempo ≤ Tempo.greatest := by
  constructor
  · intro h
    obtain ⟨e, he⟩ := exists_ok_of_isOk h
    exact (tempoEvent_eq_ok_iff.mp he).1.2
  · intro hle
    rw [tempoEvent_eq_ok_iff.mpr ⟨⟨htempo.le, hle⟩, rfl⟩]
    rfl

theorem isOk_noteEvents_iff (hparse : Melody.parse text = .ok v.melody) (index : ℕ) :
    (noteEvents v index resolution tempo).isOk ↔ v.velocity.isOk ∧
      ∀ e ∈ v.melody.notes, e.noteNumber?.isOk ∧
        (ticksOfMs e.start resolution tempo).isOk ∧ (ticksOfMs e.stop resolution tempo).isOk := by
  have hmessages (velocity : Data) :
      (v.melody.events.mapM (messagesOfEvent (.ofVoice index) velocity resolution tempo)).isOk ↔
        ∀ e ∈ v.melody.notes, e.noteNumber?.isOk ∧
          (ticksOfMs e.start resolution tempo).isOk ∧ (ticksOfMs e.stop resolution tempo).isOk := by
    rw [isOk_mapM_iff]
    constructor
    · intro h e he
      obtain ⟨hmem, hplay⟩ := List.mem_filter.mp he
      rw [isOk_noteNumber?_iff hplay]
      exact (isOk_messagesOfEvent_iff hparse he ..).mp (h e hmem)
    · intro h e hmem
      cases hplay : e.isPlayable with
      | true =>
        have he : e ∈ v.melody.notes := List.mem_filter.mpr ⟨hmem, hplay⟩
        have hnote := h e he
        rw [isOk_noteNumber?_iff hplay] at hnote
        exact (isOk_messagesOfEvent_iff hparse he ..).mpr hnote
      | false =>
        rw [Sounds.messagesOfEvent_of_silent hplay]
        rfl
  rw [noteEvents, ← isOk_writtenVelocity_iff]
  cases writtenVelocity v with
  | error fault => exact iff_of_false Bool.false_ne_true fun h => Bool.false_ne_true h.1
  | ok velocity =>
    rw [and_iff_right (by rfl), ← hmessages velocity, mapError_ok, ok_bind]
    cases v.melody.events.mapM (messagesOfEvent (.ofVoice index) velocity resolution tempo) <;>
      exact Iff.rfl

/-- A voice without notes has no track, and any other has one exactly if its notes have a velocity, each
of them has a number and ticks, and the tempo can be stated where it has to be. -/
theorem isOk_trackOfVoice_iff (hparse : Melody.parse text = .ok v.melody) (htempo : 0 < tempo) :
    (trackOfVoice v index resolution tempo stated).isOk ↔ v.melody.notes = [] ∨
      (v.velocity.isOk ∧ ∀ e ∈ v.melody.notes, e.noteNumber?.isOk ∧
        (ticksOfMs e.start resolution tempo).isOk ∧ (ticksOfMs e.stop resolution tempo).isOk) ∧
      (stated → tempo ≤ Tempo.greatest) := by
  rw [trackOfVoice]
  split
  · next hempty => exact iff_of_true rfl (.inl (List.isEmpty_iff.mp hempty))
  · next hnotes =>
    rw [List.isEmpty_iff] at hnotes
    rw [or_iff_right hnotes, ← isOk_noteEvents_iff hparse index]
    cases noteEvents v index resolution tempo with
    | error fault => exact iff_of_false Bool.false_ne_true fun h => Bool.false_ne_true h.1
    | ok notes =>
      rw [and_iff_right (by rfl), ok_bind, ← isOk_tempoEvent_iff htempo]
      cases stated with
      | false => exact iff_of_true rfl fun h => absurd h Bool.false_ne_true
      | true =>
        rw [if_pos rfl, imp_iff_right rfl]
        cases tempoEvent tempo <;> exact Iff.rfl

/-- A track has the name of its voice, the tempo where it is stated, the program and the notes. -/
theorem exists_of_trackOfVoice {track : Option Track} (hnotes : v.melody.notes ≠ [])
    (h : trackOfVoice v index resolution tempo stated = .ok track) :
    ∃ notes tempi, noteEvents v index resolution tempo = .ok notes ∧
      (tempi = [] ∨ ∃ e, tempoEvent tempo = .ok e ∧ tempi = [e]) ∧
      track = some (⟨0, .name (nameOfTrack v index)⟩ :: tempi ++
        ⟨0, .message (.program (.ofVoice index) v.instrument.program)⟩ :: notes) := by
  rw [trackOfVoice, if_neg fun h => hnotes (List.isEmpty_iff.mp h)] at h
  obtain ⟨notes, hevents, h⟩ := exists_of_bind_eq_ok h
  cases stated with
  | false => exact ⟨notes, [], hevents, .inl rfl, (Except.ok.inj h).symm⟩
  | true =>
    obtain ⟨e, he, h⟩ := exists_of_bind_eq_ok h
    exact ⟨notes, [e], hevents, .inr ⟨e, he, rfl⟩, (Except.ok.inj h).symm⟩

theorem trackOfVoice_eq_none_iff :
    trackOfVoice v index resolution tempo stated = .ok none ↔ v.melody.notes = [] := by
  constructor
  · intro h
    by_contra hnotes
    obtain ⟨notes, tempi, -, -, htrack⟩ := exists_of_trackOfVoice hnotes h
    cases htrack
  · intro h
    rw [trackOfVoice, h]
    rfl

/-- Of the notes of a voice as events of a track exactly these notes are read. -/
theorem readsBack_of_noteEvents (hparse : Melody.parse text = .ok v.melody)
    (hresolution : 0 < resolution) (htempo : 0 < tempo)
    (h : noteEvents v index resolution tempo = .ok t) :
    ReadsBack (.ofVoice index) resolution tempo v.melody.notes t := by
  rw [noteEvents, writtenVelocity] at h
  obtain ⟨velocity, hvelocity, h⟩ := exists_of_bind_eq_ok h
  obtain ⟨placed, hplaced, h⟩ := exists_of_bind_eq_ok h
  obtain rfl := Except.ok.inj h
  have hnonzero : velocity ≠ .zero := by
    rw [mapError_eq_ok_iff] at hvelocity
    obtain ⟨d, -, hd⟩ := exists_of_bind_eq_ok hvelocity
    obtain rfl := Except.ok.inj hd
    exact orOne_ne_zero d
  obtain ⟨ss, hspans, hflatten⟩ := exists_spans_of_mapM hplaced
  obtain ⟨hafter, hturn⟩ := Melody.inTurn_notes_of_parse hparse
  obtain ⟨hstaggered, hlow⟩ := areStaggered_of_spans hresolution htempo hspans hafter hturn
  rw [hflatten]
  exact readsBack_eventsFrom hnonzero hstaggered hlow hspans

/-- Of the track of a voice exactly its notes are read. -/
theorem readsBack_of_trackOfVoice (hparse : Melody.parse text = .ok v.melody)
    (hresolution : 0 < resolution) (htempo : 0 < tempo)
    (h : trackOfVoice v index resolution tempo stated = .ok (some t)) :
    ReadsBack (.ofVoice index) resolution tempo v.melody.notes t := by
  have hnotes : v.melody.notes ≠ [] := by
    intro hempty
    rw [trackOfVoice_eq_none_iff.mpr hempty] at h
    cases h
  obtain ⟨notes, tempi, hevents, htempi, htrack⟩ := exists_of_trackOfVoice hnotes h
  obtain rfl := Option.some.inj htrack
  -- neither the name nor the tempo nor the program makes a note
  have hread := (readsBack_of_noteEvents hparse hresolution htempo hevents).prepend
    (e := ⟨0, .message (.program (.ofVoice index) v.instrument.program)⟩) rfl rfl rfl
  rcases htempi with rfl | ⟨e, he, rfl⟩
  · exact hread.prepend rfl rfl rfl
  · obtain ⟨-, rfl⟩ := tempoEvent_eq_ok_iff.mp he
    exact (hread.prepend (e := ⟨0, .tempo tempo.toNat⟩) rfl rfl rfl).prepend rfl rfl rfl

/-- **Of the track of a voice its notes are read.** A voice without notes has no track, and any other has
one exactly if its notes have a velocity, each of them has a number and ticks, and the tempo can be stated
where it has to be. At a positive resolution and tempo no event of that track comes before the one in
front of it, and reading it finds the spans of the notes, in their order and nothing else: no note is let
go of that is not held, and none is held at the end. -/
theorem readsBack_trackOfVoice (hparse : Melody.parse text = .ok v.melody) (index : ℕ) (stated : Bool)
    (hresolution : 0 < resolution) (htempo : 0 < tempo) :
    ((trackOfVoice v index resolution tempo stated).isOk ↔ v.melody.notes = [] ∨
      (v.velocity.isOk ∧ ∀ e ∈ v.melody.notes, e.noteNumber?.isOk ∧
        (ticksOfMs e.start resolution tempo).isOk ∧ (ticksOfMs e.stop resolution tempo).isOk) ∧
      (stated → tempo ≤ Tempo.greatest)) ∧
    (trackOfVoice v index resolution tempo stated = .ok none ↔ v.melody.notes = []) ∧
    ∀ t, trackOfVoice v index resolution tempo stated = .ok (some t) →
      ReadsBack (.ofVoice index) resolution tempo v.melody.notes t :=
  ⟨isOk_trackOfVoice_iff hparse htempo, trackOfVoice_eq_none_iff,
    fun _ => readsBack_of_trackOfVoice hparse hresolution htempo⟩

end Voice

/-- Notes of one pitch the first two of which start on one tick, where a tick is a millisecond. -/
theorem readsBack_trackOfVoice_short :
    ∃ m t, Melody.parse "C(0.3) C(0.3) C(1.2)".toList = .ok m ∧
      m.notes.map (fun e => ticksOfMs e.start (.whole defaultResolution) defaultTempo) =
        [.ok 0, .ok 0, .ok 1] ∧
      trackOfVoice (.ofMelody m) 0 (.whole defaultResolution) defaultTempo true = .ok (some t) ∧
      ReadsBack (.ofVoice 0) (.whole defaultResolution) defaultTempo m.notes t := by
  obtain ⟨m, hm, hticks, hne, hvelocity, hnotes⟩ :
      ∃ m, Melody.parse "C(0.3) C(0.3) C(1.2)".toList = .ok m ∧
        m.notes.map (fun e => ticksOfMs e.start (.whole defaultResolution) defaultTempo) =
          [.ok 0, .ok 0, .ok 1] ∧
        m.notes ≠ [] ∧ (Voice.ofMelody m).velocity.isOk ∧
        ∀ e ∈ m.notes, e.noteNumber?.isOk ∧
          (ticksOfMs e.start (.whole defaultResolution) defaultTempo).isOk ∧
          (ticksOfMs e.stop (.whole defaultResolution) defaultTempo).isOk := by
    decide +kernel
  obtain ⟨hok, hnone, hread⟩ := readsBack_trackOfVoice (v := .ofMelody m) hm 0 true
    (by decide : 0 < Number.whole defaultResolution) (by decide : (0 : ℤ) < defaultTempo)
  obtain ⟨track, htrack⟩ := exists_ok_of_isOk (hok.mpr (.inr ⟨⟨hvelocity, hnotes⟩, fun _ => by decide⟩))
  cases track with
  | none => exact absurd (hnone.mp htrack) hne
  | some t => exact ⟨m, t, hm, hticks, htrack, hread t htrack⟩

end Monody.Midi
