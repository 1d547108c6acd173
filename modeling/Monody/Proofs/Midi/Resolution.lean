import Monody.Proofs.Midi.Closed
import Monody.Proofs.Midi.RoundTrip

/-!
# Voices at other resolutions

At another resolution or another tempo than the default, a tick is no millisecond. The start and the end
of a note are rounded to ticks, these are read as times that are not whole, and the difference of the
times is rounded once more. Where a tick lasts at most five quarters of a millisecond and every note at
least two, the notes stay apart and are read as one voice, and no length changes by more than a
millisecond.

## Main definitions

* `strokesInTicks` — the strokes of a score at the ticks that they are written at
* `IsReadNear` — a note as it is read again, to the millisecond or one more or less

## Main results

* `encode_inTicks` — a voice is written, and its track can be read
* `decode_inTicks` — the track is read as one voice
* `decode_encode_near` — the notes are read as they were, but for a millisecond
-/

namespace Monody

open Binary64

-- evaluated, the numbers of units are too long to be looked at
attribute [local irreducible] one bound

namespace Midi

open Performance

attribute [local irreducible] timeOfTick tickOf

variable {resolution tempo t : ℕ} {s : Stroke} {ss : List Stroke} {c : Channel} {v : Voice}
  {bytes : List UInt8}

/-! ## Strokes in ticks -/

/-- The strokes of milliseconds at the ticks that they are written at. -/
def strokesInTicks (resolution tempo : ℕ) (ss : List Stroke) : List Stroke :=
  ss.map (Stroke.inTicks (tickOf resolution tempo))

/-- The times of ticks can be told apart. -/
theorem isClock_timeOfTick (h : IsFine resolution tempo) :
    IsClock lastTick (timeOfTick resolution tempo) where
  order_gt {i j} hlt hj := by
    have hticks : ((i : ℚ) + 1) * tickMs resolution tempo ≤ j * tickMs resolution tempo := by
      refine mul_le_mul_of_nonneg_right ?_ h.tickMs_pos.le
      exact_mod_cast hlt
    refine (isWithin_timeOfTick h hj).order_gt (isWithin_timeOfTick h (hlt.le.trans hj)) ?_
    -- the two errors together are a fiftieth of the shortest tick
    linarith [h.low]
  reach {i j} hle hj := by
    have hticks : (i : ℚ) * tickMs resolution tempo ≤ j * tickMs resolution tempo := by
      refine mul_le_mul_of_nonneg_right ?_ h.tickMs_pos.le
      exact_mod_cast hle
    have hsmall := mul_tickMs_le h hj
    refine (isWithin_timeOfTick h (hle.trans hj)).le_of_lt
      ((isWithin_timeOfTick h hj).add_half (by linarith)) ?_
    linarith

/-- Strokes of two milliseconds or more stay one after another in ticks. -/
theorem InTurn.strokesInTicks (h : IsFine resolution tempo) (hss : InTurn greatestTime t ss)
    (hlong : ∀ s ∈ ss, s.start + 2 ≤ s.stop) :
    InTurn lastTick 0 (strokesInTicks resolution tempo ss) := by
  have hlonger : ∀ s ∈ ss, tickOf resolution tempo s.start < tickOf resolution tempo s.stop :=
    fun s hs => tickOf_lt_tickOf h (hlong s hs) (hss.forall_mem s hs).2.2
  exact (hss.inTicks (tickOf_le_tickOf h) hlonger fun _ hj => tickOf_le_lastTick h hj).of_le
    (Nat.zero_le _)

-- for any ticks and times, since those of a file are too deep to be compared by unfolding them
section Ticks

variable {tick : ℕ → ℕ} {time : ℕ → Binary64} {m : TempoMap} {length : ℤ}

theorem noteOfSpan_inTicks (hstart : m.toMs (tick s.start) = .ok (time (tick s.start)))
    (hstop : m.toMs (tick s.stop) = .ok (time (tick s.stop)))
    (hlength : Number.roundHalfUp (time (tick s.stop) - time (tick s.start)) = .ok length)
    (hpos : 0 < length) (hpitch : Pitch.Representable s.note.val) :
    noteOfSpan m ((s.inTicks tick).span c) = .ok (some ((s.inTicks tick).playedAt time c)) :=
  noteOfSpan_of_toMs hstart hstop hlength hpos hpitch

theorem length_inTicks
    (h : Number.roundHalfUp (time (tick s.stop) - time (tick s.start)) = .ok length) :
    ((s.inTicks tick).playedAt time c).length = .ok length := h

theorem pitch_inTicks : ((s.inTicks tick).playedAt time c).pitch = s.note.val := rfl

end Ticks

/-- A stroke of two milliseconds or more is read as a note, whose length is that of the stroke or a
millisecond more or less. -/
theorem exists_length_inTicks (h : IsFine resolution tempo) (hlong : s.start + 2 ≤ s.stop)
    (htime : s.stop ≤ greatestTime) (hpitch : Pitch.Representable s.note.val) (c : Channel) :
    noteOfSpan (steadyMap resolution tempo) ((s.inTicks (tickOf resolution tempo)).span c) =
        .ok (some ((s.inTicks (tickOf resolution tempo)).playedAt (timeOfTick resolution tempo) c)) ∧
      ∃ k : ℕ, ((s.inTicks (tickOf resolution tempo)).playedAt (timeOfTick resolution tempo) c).length =
          .ok k ∧
        |(k : ℤ) - (s.stop - s.start : ℕ)| ≤ 1 := by
  obtain ⟨k, hlength, hpos, hnear⟩ := exists_length_of_ticks h hlong htime
  have hread {j : ℕ} (hj : j ≤ greatestTime) :
      (steadyMap resolution tempo).toMs (tickOf resolution tempo j) =
        .ok (timeOfTick resolution tempo (tickOf resolution tempo j)) :=
    toMs_eq h.isStatable (isFinite_ofInt (fits_mul_one ((tickOf_le_lastTick h hj).trans (by decide))))
  refine ⟨?_, k, length_inTicks hlength, hnear⟩
  exact noteOfSpan_inTicks (hread (by omega)) (hread htime) hlength (by exact_mod_cast hpos) hpitch

/-! ## Writing -/

/-- A voice is written, and what is written is read as its track. -/
theorem encode_inTicks {bpm : Number} (hbpm : 0 < bpm) (htempo : Tempo.ofBpm bpm = .ok (tempo : ℤ))
    (h : IsFine resolution tempo) (hv : v.velocity.isOk) (hss : Sounds 0 v.melody.events ss)
    (hlong : ∀ s ∈ ss, s.start + 2 ≤ s.stop) (hne : ss ≠ [])
    (hnarrow : ∀ c ∈ nameOfTrack v 0, isNarrow c) (hshort : (nameOfTrack v 0).length ≤ greatestLength) :
    ∃ bytes velocity, velocity ≠ Data.zero ∧ encode [v] bpm (.whole resolution) = .ok bytes ∧
      readFile bytes = .ok ⟨resolution, [strokeTrack tempo (nameOfTrack v 0) (.ofVoice 0)
        v.instrument.program velocity true (strokesInTicks resolution tempo ss) ++ [ending]]⟩ := by
  have hturn := hss.inTurn.strokesInTicks h hlong
  obtain ⟨velocity, hvelocity, htrack⟩ := trackOfVoice_of_sounds hv hss hne
    (fun k hk => (ticksOfMs_eq h hk).1) hturn h.tempo_le 0 true
  rw [← strokesInTicks] at htrack
  generalize ht : strokeTrack tempo (nameOfTrack v 0) (.ofVoice 0) v.instrument.program velocity true
    (strokesInTicks resolution tempo ss) = track at htrack
  have hwritable : track.IsWritable := ht ▸ strokeTrack_isWritable hturn hnarrow h.tempo_le
  have hexcess : track.excess? = none := by
    rw [← ht, excess?_strokeTrack, TrackEvent.excess?, if_neg (Nat.not_lt.mpr hshort)]
  -- in `10 ^ 9` milliseconds there is only room for half as many strokes
  have hsize (body : List UInt8) (hbody : writeEvents none track = .ok body) :
      body.length < 2 ^ 32 := by
    have hcount := hss.inTurn.length_le (Nat.zero_le _) hlong
    have hname : (nameOfTrack v 0).length < 2 ^ 31 - 7 := hshort.trans_lt (by decide)
    have hle := length_le_of_writeEvents_inTurn hturn hname (ht ▸ hbody)
    rw [strokesInTicks, List.length_map, lastTick] at hle
    rw [greatestTime] at hcount
    rw [greatestLength] at hshort
    omega
  have hone : [track].length < 32768 := (by decide : 1 < 32768)
  obtain ⟨bytes, hwrite, hread⟩ := readFile_writeFile (Nat.lt_succ_of_le h.resolution_le) hone
    (List.forall_mem_singleton.mpr hwritable) (List.forall_mem_singleton.mpr hsize)
  have hresolution : ¬ (.whole resolution : Number) ≤ 0 :=
    Number.not_le_zero_of_pos (Number.whole_pos (Int.natCast_pos.mpr h.resolution_pos))
  have htracks : tracksFrom 0 false (.whole resolution) tempo [v] = .ok [track] := by
    rw [tracksFrom, Bool.not_false, htrack]
    rfl
  refine ⟨bytes, velocity, hvelocity, ?_, ?_⟩
  · exact encode_of_tracksFrom (Number.not_le_zero_of_pos hbpm) hresolution htempo htracks
      (List.cons_ne_nil _ _) hwrite
  · rw [hread, List.findSome?_singleton, hexcess, ht]
    rfl

/-! ## Reading -/

/-- A note as it is read again: it has the same number, and its whole number of milliseconds is the same
or one more or less. -/
structure IsReadNear (e e' : Melody.Event) : Prop where
  number : ∃ n, e.noteNumber? = .ok (some n) ∧ e'.noteNumber? = .ok (some n)
  duration : ∃ k k' : ℤ, Number.ofReal e.duration = .whole k ∧ Number.ofReal e'.duration = .whole k' ∧
    |k' - k| ≤ 1

theorem isReadNear_of_isPlayed {n : Note} {d k : ℕ} {w : List Char} {e e' : Melody.Event}
    (hnumber : e.noteNumber? = .ok (some n.pitch)) (hduration : e.duration = .ofInt d)
    (hd : d ≤ 2 ^ 53) (hlength : n.length = .ok k) (hnear : |(k : ℤ) - d| ≤ 1)
    (hplayed : n.IsPlayed w e') : IsReadNear e e' := by
  obtain ⟨k', hlength', hfits, hreading⟩ := hplayed.reading
  obtain rfl : k = k' := Int.ofNat.inj (Except.ok.inj (hlength.symm.trans hlength'))
  refine ⟨⟨n.pitch, hnumber, hplayed.number⟩, d, k, ?_, ?_, hnear⟩
  · rw [hduration, Melody.ofReal_ofInt (fits_mul_one hd)]
  · rw [hreading.duration, Melody.ofReal_ofInt hfits]

/-- A track is read as one voice with the notes of its strokes. -/
theorem decode_inTicks {name : List Char} {program velocity : Data} (h : IsFine resolution tempo)
    {es : List Melody.Event} (hss : Sounds 0 es ss) (hlong : ∀ s ∈ ss, s.start + 2 ≤ s.stop)
    (hne : ss ≠ []) (hvelocity : velocity ≠ .zero)
    (hread : readFile bytes = .ok ⟨resolution, [strokeTrack tempo name c program velocity true
      (strokesInTicks resolution tempo ss) ++ [ending]]⟩) :
    ∃ d, decode bytes = .ok [d] ∧
      List.Forall₂ IsReadNear (es.filter (·.isPlayable)) d.melody.notes := by
  have hturn := hss.inTurn
  have hnote (s : Stroke) (hs : s ∈ ss) := exists_length_inTicks h (hlong s hs)
    (hturn.forall_mem s hs).2.2 (hss.representable s hs) c
  have hspans : ∀ s ∈ strokesInTicks resolution tempo ss, noteOfSpan (steadyMap resolution tempo)
      (s.span c) = .ok (some (s.playedAt (timeOfTick resolution tempo) c)) :=
    List.forall_mem_map.mpr fun s hs => (hnote s hs).1
  have hreads : ∀ n ∈ (strokesInTicks resolution tempo ss).map
      (Stroke.playedAt (timeOfTick resolution tempo) c), IsRead n :=
    List.forall_mem_map.mpr fun s hs => isRead_of_noteOfSpan (hspans s hs)
  have hline := lines_playedAt (c := c) (isClock_timeOfTick h) (hturn.strokesInTicks h hlong)
    (mt List.map_eq_nil_iff.mp hne)
  obtain ⟨d, gs, ws, hd, hscored⟩ := exists_voiceOfLine hreads
  refine ⟨d, decode_of_lines hread rfl ?_ (performance_of_noteOfSpan hvelocity hspans) hline
    (mapM_eq_ok_iff.mpr (.cons hd .nil)) (List.cons_ne_nil _ _), ?_⟩
  · rw [tempi_strokeTrack]
    exact ofChanges_steady h.isStatable
  · -- from the notes of the score to the strokes, and from them to the notes that are read
    have hsaid := hscored.forall₂_notes
    rw [strokesInTicks, List.forall₂_map_left_iff, List.forall₂_map_left_iff] at hsaid
    have hsame := forall₂_comp hss.forall₂_notes
      ((List.forall₂_and_left _ _).mpr ⟨fun s hs => hs, hsaid⟩)
    refine hsame.imp ?_
    rintro e e' ⟨s, ⟨hnumber, hduration⟩, hs, w, hplayed⟩
    obtain ⟨-, k, hlength, hnear⟩ := hnote s hs
    have htime := (hturn.forall_mem s hs).2.2
    rw [greatestTime] at htime
    exact isReadNear_of_isPlayed (pitch_inTicks ▸ hnumber) hduration (by omega) hlength hnear hplayed

/-! ## The round trip -/

theorem le_of_whole_le_ofInt {k d : ℕ} (hd : d ≤ 2 ^ 53)
    (h : Number.whole k ≤ .real (.ofInt (d : ℤ))) : k ≤ d := by
  have hpos : (0 : ℤ) < (one : ℕ) := Int.natCast_pos.mpr one_pos
  have horder : Number.order (.whole k) (.real (.ofInt (d : ℤ))) =
      some (compare ((k : ℤ) * (one : ℕ)) ((d * one : ℕ) : ℤ)) := by
    rw [ofInt_natCast hd]
    rfl
  have hunits : (k : ℤ) * (one : ℕ) ≤ (d * one : ℕ) := by
    rcases h with hlt | heq
    · exact (compare_lt_iff_lt.mp (Option.some.inj (horder.symm.trans hlt))).le
    · exact (compare_eq_iff_eq.mp (Option.some.inj (horder.symm.trans heq))).le
  rw [Nat.cast_mul] at hunits
  exact_mod_cast le_of_mul_le_mul_right hunits hpos

/-- Where no note is shorter than a number of milliseconds, no stroke is. -/
theorem add_le_stop_of_sounds {k t : ℕ} {es : List Melody.Event} (hss : Sounds t es ss)
    (h : ∀ e ∈ es, e.isPlayable → Number.whole k ≤ .real e.duration) :
    ∀ s ∈ ss, s.start + k ≤ s.stop := by
  intro s hs
  obtain ⟨e, he, -, hduration⟩ := exists_of_mem_right hss.forall₂_notes s hs
  obtain ⟨hmem, hplay⟩ := List.mem_filter.mp he
  obtain ⟨-, hstop, htime⟩ := hss.inTurn.forall_mem s hs
  rw [greatestTime] at htime
  have hle := h e hmem hplay
  rw [hduration] at hle
  have hk := le_of_whole_le_ofInt (by omega) hle
  omega

/-- The note is a sharp E or a sharp B, which have no number. -/
def IsUnnumbered (e : Melody.Event) : Prop :=
  e.content.noteName? = some ['E', '#'] ∨ e.content.noteName? = some ['B', '#']

instance (e : Melody.Event) : Decidable (IsUnnumbered e) := inferInstanceAs (Decidable (_ ∨ _))

/-- A note other than a sharp E or B has a number. -/
theorem exists_noteNumber_of_not_isUnnumbered {e : Melody.Event} (h : ¬ IsUnnumbered e) :
    ∃ n, e.noteNumber? = .ok n := by
  rw [Melody.Event.noteNumber?]
  split
  · next letter sharp octave hcontent _ =>
    have hplain : sharp = true → letter ≠ .e ∧ letter ≠ .b := by
      rintro rfl
      refine ⟨?_, ?_⟩ <;> rintro rfl
      · exact h (.inl (by rw [hcontent]; rfl))
      · exact h (.inr (by rw [hcontent]; rfl))
    obtain ⟨n, hn⟩ := Pitch.exists_noteNumber hplain octave
    exact ⟨some n, congrArg (Except.map some) hn⟩
  · exact ⟨none, rfl⟩

/-- A resolution and a tempo of a file, from integers. -/
theorem exists_isFine {resolution tempo : ℤ} (htempo : 1 ≤ tempo) (hgreatest : tempo ≤ Tempo.greatest)
    (hresolution : resolution ≤ 32767) (hlow : 1 / 10 ≤ tickMs resolution tempo)
    (hhigh : tickMs resolution tempo ≤ 5 / 4) :
    ∃ r p : ℕ, resolution = r ∧ tempo = p ∧ IsFine r p := by
  have hpos : 0 < resolution := by
    by_contra hle
    have hleℚ : (1000 : ℚ) * resolution ≤ 0 := by
      exact_mod_cast (by omega : 1000 * resolution ≤ 0)
    have hnonpos : tickMs resolution tempo ≤ 0 :=
      div_nonpos_of_nonneg_of_nonpos (by exact_mod_cast (by omega : 0 ≤ tempo)) hleℚ
    linarith
  obtain ⟨r, rfl⟩ := Int.eq_ofNat_of_zero_le hpos.le
  obtain ⟨p, rfl⟩ := Int.eq_ofNat_of_zero_le (by omega : 0 ≤ tempo)
  exact ⟨r, p, rfl, rfl, by omega, hgreatest, hlow, hhigh⟩

/-- **The round trip at other resolutions.** A score of whole milliseconds, at least two of them for
each event, is written at any resolution and tempo of a file where a tick lasts at least a tenth of a
millisecond and at most five quarters of one. It is read as one voice, with the same note numbers in the
same order, and each note as long as it was, or one millisecond longer or shorter. -/
theorem decode_encode_near {text : List Char} {m : Melody} {bpm : Number} {resolution tempo : ℤ}
    (hparse : Melody.parse text = .ok m) (hnotes : m.notes ≠ [])
    (hnumbered : ∀ e ∈ m.notes, ¬ IsUnnumbered e)
    (hlong : ∀ e ∈ m.events, e.isComment = false →
      e.duration.isWhole ∧ (2 : Number) ≤ .real e.duration)
    (hbrief : Number.real m.total ≤ .whole (10 ^ 9)) (hbpm : 0 < bpm)
    (htempo : Tempo.ofBpm bpm = .ok tempo) (hpositive : 1 ≤ tempo) (hgreatest : tempo ≤ Tempo.greatest)
    (hresolution : resolution ≤ 32767) (hlow : 1 / 10 ≤ tickMs resolution tempo)
    (hhigh : tickMs resolution tempo ≤ 5 / 4) :
    ∃ bytes d, encode [Voice.ofMelody m] bpm (.whole resolution) = .ok bytes ∧
      decode bytes = .ok [d] ∧ List.Forall₂ IsReadNear m.notes d.melody.notes := by
  obtain ⟨r, p, rfl, rfl, hfine⟩ := exists_isFine hpositive hgreatest hresolution hlow hhigh
  have hwhole : ∀ e ∈ m.events, e.duration.isWhole := by
    intro e he
    obtain ⟨token, time, hevent⟩ := Melody.exists_eventOf (Melody.readEvents_of_parse hparse) e he
    -- a comment takes no time
    cases hcomment : e.isComment with
    | true => exact Melody.isWhole_of_isComment hevent hcomment
    | false => exact (hlong e he hcomment).1
  have hexportable : (Voice.ofMelody m).IsExportable := by
    refine .of_parse hparse hwhole (fun e he => ?_) hbrief (fun c hc => absurd hc List.not_mem_nil) .piano
    obtain ⟨n, hn⟩ := exists_noteNumber_of_not_isUnnumbered (hnumbered e he)
    rw [hn]
    rfl
  obtain ⟨ss, hss⟩ := sounds_of_isExportable hexportable
  have hstrokes : ∀ s ∈ ss, s.start + 2 ≤ s.stop := by
    refine add_le_stop_of_sounds hss fun e he hplay => ?_
    exact (hlong e he (Melody.Event.isComment_of_isPlayable hplay)).2
  have hne : ss ≠ [] := by
    rintro rfl
    exact hnotes (List.forall₂_nil_right_iff.mp hss.forall₂_notes)
  have hname := nameOfTrack_of_name_eq_nil (v := Voice.ofMelody m) rfl 0
  obtain ⟨bytes, velocity, hvelocity, hencode, hread⟩ := encode_inTicks hbpm htempo hfine
    hexportable.struck hss hstrokes hne (narrow_nameOfTrack hexportable.narrow 0)
    (by rw [hname]; decide)
  obtain ⟨d, hdecode, hsame⟩ := decode_inTicks hfine hss hstrokes hne hvelocity hread
  exact ⟨bytes, d, hencode, hdecode, hsame⟩

/-- Notes of odd lengths at 97 beats in a minute, with a tick that is not quite 1.25 milliseconds long. -/
theorem decode_encode_near_tune :
    ∃ m, Melody.parse "C(7)p(13)//turn//d#5(251) B(2)".toList = .ok m ∧
      ∃ bytes d, encode [Voice.ofMelody m] (.whole 97) (.whole 495) = .ok bytes ∧
        decode bytes = .ok [d] ∧ List.Forall₂ IsReadNear m.notes d.melody.notes := by
  obtain ⟨m, hm, hnotes, hnumbered, hlong, hbrief⟩ :
      ∃ m, Melody.parse "C(7)p(13)//turn//d#5(251) B(2)".toList = .ok m ∧ m.notes ≠ [] ∧
        (∀ e ∈ m.notes, ¬ IsUnnumbered e) ∧
        (∀ e ∈ m.events, e.isComment = false →
          e.duration.isWhole ∧ (2 : Number) ≤ .real e.duration) ∧
        Number.real m.total ≤ .whole (10 ^ 9) := by
    refine ⟨⟨_, _⟩, rfl, ?_, ?_, ?_, ?_⟩ <;> decide +kernel
  have htempo : Tempo.ofBpm (.whole 97) = .ok 618557 := by decide +kernel
  have hlength : tickMs 495 618557 = 618557 / 495000 := by norm_num [tickMs]
  refine ⟨m, hm, decode_encode_near hm hnotes hnumbered hlong hbrief (by decide) htempo (by decide)
    (by decide) (by decide) ?_ ?_⟩ <;> rw [hlength] <;> norm_num

end Midi

end Monody
