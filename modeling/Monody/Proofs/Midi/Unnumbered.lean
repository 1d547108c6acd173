import Monody.Proofs.Melody.Transpose
import Monody.Proofs.Midi.Resolution

/-!
# Notes without a number

Every letter may be written with a sharp, but the table of pitches knows no sharp E and no sharp B. Such
a note is read without a flaw, and then it has no number: a score that holds one cannot be transposed,
and the note cannot be written to a file. Nothing else about a note without a flaw stands in the way.

## Main results

* `noteNumber?_of_isUnnumbered` — a sharp E or B has no number
* `exists_representable_of_not_isUnnumbered` — every other note has the number of a note of a score
* `isOk_transpose_iff` — a score without flaws is transposed exactly if all its notes have numbers
* `isOk_messagesOfEvent_iff` — a note is written to a file exactly if it has a number and ticks
-/

namespace Monody

namespace Midi

open Melody
open Sounds (isPlayable_of_note)

variable {e : Event} {m : Melody} {text : List Char}

/-! ## Numbers -/

theorem noteNumber_sharp {letter : Letter} (h : letter = .e ∨ letter = .b) (octave : ℤ) :
    Pitch.noteNumber (Pitch.nameOf letter true) octave =
      .error (.unknownName (Pitch.nameOf letter true)) := by
  rcases h with rfl | rfl <;> rfl

/-- The name of an unnumbered note is that of a sharp E or B. -/
theorem exists_content_of_isUnnumbered (h : IsUnnumbered e) :
    ∃ letter octave, (letter = .e ∨ letter = .b) ∧ e.content = .note letter true octave := by
  rw [IsUnnumbered] at h
  cases hcontent : e.content with
  | note letter sharp octave =>
    rw [hcontent] at h
    cases letter <;> cases sharp <;> first
      | exact ⟨_, octave, .inl rfl, rfl⟩
      | exact ⟨_, octave, .inr rfl, rfl⟩
      | exact absurd h (by simp [Content.noteName?, Letter.toChar])
  | pause | comment | unreadable =>
    rw [hcontent] at h
    exact absurd h (by simp [Content.noteName?])

/-- A sharp E or B has no number, and the fault names it. -/
theorem noteNumber?_of_isUnnumbered (hplay : e.isPlayable) (h : IsUnnumbered e) :
    ∃ name, e.content.noteName? = some name ∧ e.noteNumber? = .error (.unknownName name) := by
  obtain ⟨letter, octave, hletter, hcontent⟩ := exists_content_of_isUnnumbered h
  refine ⟨Pitch.nameOf letter true, by rw [hcontent]; rfl, ?_⟩
  rw [noteNumber?_of_note hcontent (isPlayable_iff.mp hplay).2, noteNumber_sharp hletter]
  rfl

theorem isOk_noteNumber?_iff (hplay : e.isPlayable) : e.noteNumber?.isOk ↔ ¬ IsUnnumbered e := by
  constructor
  · intro hok h
    obtain ⟨name, -, hnumber⟩ := noteNumber?_of_isUnnumbered hplay h
    rw [hnumber] at hok
    cases hok
  · intro h
    obtain ⟨n, hn⟩ := exists_noteNumber_of_not_isUnnumbered h
    rw [hn]
    rfl

/-- Every note of a score but a sharp E or B has the number of a note of a score. -/
theorem exists_representable_of_not_isUnnumbered (hparse : parse text = .ok m) (he : e ∈ m.notes)
    (h : ¬ IsUnnumbered e) : ∃ n, e.noteNumber? = .ok (some n) ∧ Pitch.Representable n := by
  obtain ⟨hmem, hplay⟩ := List.mem_filter.mp he
  obtain ⟨token, time, hevent⟩ := exists_eventOf (readEvents_of_parse hparse) e hmem
  exact exists_representable hevent hplay (exists_noteNumber_of_not_isUnnumbered h)

theorem exists_data_of_representable {n : ℤ} (h : Pitch.Representable n) :
    ∃ d, Data.ofInt n = .ok d := by
  obtain ⟨hlow, hhigh⟩ := h
  rw [Pitch.lowest, Pitch.minOctave, Pitch.semitones] at hlow
  rw [Pitch.highest, Pitch.maxOctave, Pitch.semitones] at hhigh
  exact Data.exists_ofInt (by omega)

/-! ## Transpositions -/

/-- Every duration that is read can be written, also an infinite one. -/
theorem exists_writeDuration {token : Token} {time : Binary64} (h : eventOf token time = .ok e)
    (hflaw : e.flaw = none) (hcomment : e.isComment = false) :
    ∃ w, writeDuration (.ofReal e.duration) = .ok w := by
  rcases eventOf_cases h hflaw with ⟨-, rfl⟩ | ⟨-, -, content, x, stated, -, hx, rfl⟩
  · cases hcomment
  · change ∃ w, writeDuration (.ofReal x) = .ok w
    cases hfinite : x.isFinite with
    | true =>
      obtain ⟨k, hk, rfl, hpos⟩ := eq_finite_of_resolveDuration? hx hfinite
      obtain ⟨w, hw, -⟩ := writeDuration_ok hpos hk
      exact ⟨w, hw⟩
    | false =>
      cases x with
      | nan => exact ⟨_, rfl⟩
      | infinite s => cases s <;> exact ⟨_, rfl⟩
      | finite s n hn => cases hfinite

/-- An event without a flaw is transposed exactly if it has a number or is no note. -/
theorem isOk_transposeEvent_iff {token : Token} {time : Binary64} (h : eventOf token time = .ok e)
    (hflaw : e.flaw = none) (shift : ℤ) :
    (transposeEvent shift e).isOk ↔ (e.isPlayable → ¬ IsUnnumbered e) := by
  cases hcontent : e.content with
  | note letter sharp octave =>
    have hplay : e.isPlayable := isPlayable_of_note hcontent hflaw
    have hcomment : e.isComment = false := by rw [Event.isComment, hcontent]; rfl
    obtain ⟨w, hw⟩ := exists_writeDuration h hflaw hcomment
    rw [imp_iff_right hplay, ← isOk_noteNumber?_iff hplay, noteNumber?_of_note hcontent hflaw]
    cases hn : Pitch.noteNumber (Pitch.nameOf letter sharp) octave with
    | ok n =>
      rw [transposeEvent_note hcontent hn shift, writeNote, hw]
      exact iff_of_true rfl rfl
    | error fault =>
      -- both look the name up in the same table, and neither gets further without it
      refine iff_of_false (fun hok => ?_) Bool.false_ne_true
      cases hindex : Pitch.chromaticIndex (Pitch.nameOf letter sharp) with
      | ok i =>
        rw [Pitch.noteNumber, hindex] at hn
        cases hn
      | error fault =>
        simp only [transposeEvent, hcontent, Pitch.transpose, hindex] at hok
        cases hok
  | pause =>
    have hcomment : e.isComment = false := by rw [Event.isComment, hcontent]; rfl
    obtain ⟨w, hw⟩ := exists_writeDuration h hflaw hcomment
    have hsilent : ¬ e.isPlayable := by simp [Event.isPlayable, Event.isNote, hcontent]
    refine iff_of_true ?_ fun hplay => absurd hplay hsilent
    rw [transposeEvent, hcontent]
    simp only [writeEvent, hcontent, writePause, hw]
    rfl
  | comment | unreadable =>
    have hsilent : ¬ e.isPlayable := by simp [Event.isPlayable, Event.isNote, hcontent]
    refine iff_of_true ?_ fun hplay => absurd hplay hsilent
    rw [transposeEvent, hcontent]
    simp only [writeEvent, hcontent]
    rfl

/-- A score without flaws is transposed exactly if the shift is shown and all its notes have numbers. -/
theorem isOk_transpose_iff (hparse : parse text = .ok m) (hsound : m.isFlawed = false) (shift : ℤ) :
    (transpose m.events shift).isOk ↔
      Text.isShown shift ∧ ∀ e ∈ m.notes, ¬ IsUnnumbered e := by
  have hflaw := isFlawed_eq_false_iff.mp hsound
  have hevent := exists_eventOf (readEvents_of_parse hparse)
  rw [isOk_transpose_iff_mapM hflaw, isOk_mapM_iff]
  refine and_congr_right fun _ => ?_
  constructor
  · intro h e he
    obtain ⟨hmem, hplay⟩ := List.mem_filter.mp he
    obtain ⟨token, time, htoken⟩ := hevent e hmem
    exact (isOk_transposeEvent_iff htoken (hflaw e hmem) shift).mp (h e hmem) hplay
  · intro h e he
    obtain ⟨token, time, htoken⟩ := hevent e he
    exact (isOk_transposeEvent_iff htoken (hflaw e he) shift).mpr
      fun hplay => h e (List.mem_filter.mpr ⟨he, hplay⟩)

/-! ## Files -/

/-- A note is written to a file exactly if it has a number and its times have ticks. -/
theorem isOk_messagesOfEvent_iff (hparse : parse text = .ok m) (he : e ∈ m.notes) (channel : Channel)
    (velocity : Data) (resolution : Number) (tempo : ℤ) :
    (messagesOfEvent channel velocity resolution tempo e).isOk ↔
      ¬ IsUnnumbered e ∧ (ticksOfMs e.start resolution tempo).isOk ∧
        (ticksOfMs e.stop resolution tempo).isOk := by
  have hplay := (List.mem_filter.mp he).2
  by_cases h : IsUnnumbered e
  · obtain ⟨name, -, hnumber⟩ := noteNumber?_of_isUnnumbered hplay h
    refine iff_of_false (fun hok => ?_) fun hok => hok.1 h
    rw [messagesOfEvent, hnumber] at hok
    cases hok
  · obtain ⟨n, hnumber, hrange⟩ := exists_representable_of_not_isUnnumbered hparse he h
    obtain ⟨note, hnote⟩ := exists_data_of_representable hrange
    rw [and_iff_right h, messagesOfEvent, hnumber, mapError_ok, ok_bind]
    dsimp only
    cases ticksOfMs e.start resolution tempo with
    | error fault => exact iff_of_false Bool.false_ne_true fun hok => Bool.false_ne_true hok.1
    | ok on =>
      cases ticksOfMs e.stop resolution tempo with
      | error fault => exact iff_of_false Bool.false_ne_true fun hok => Bool.false_ne_true hok.2
      | ok off =>
        rw [hnote]
        exact iff_of_true rfl ⟨rfl, rfl⟩

end Midi

end Monody
