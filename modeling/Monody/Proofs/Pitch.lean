import Mathlib.Tactic.IntervalCases
import Monody.Melody.Event
import Monody.Outcome

/-!
# Note numbers

The notes of a score and the note numbers 12 to 119 stand for one another, the sharp E and B apart,
which have no number. A transposition is a rotation of these 108 numbers: rotations compose by
adding their shifts, and 108 semitones more or less make no difference.

## Main definitions

* `Pitch.nameOf` — the name of a note as a score states it
* `Pitch.rotated` — a note number moved by semitones, cyclically

## Main results

* `Pitch.ofNoteNumber_of_noteNumber` — a note is written from its number again
* `Pitch.exists_nameOf` — each of the 108 numbers is that of a note
* `Pitch.transpose_eq` — what a transposition does to the number of a note
-/

namespace Monody.Pitch

open Melody (Letter)

variable {letter : Letter} {sharp : Bool} {octave n : Int}

/-- The name of a note as a score states it. -/
abbrev nameOf (letter : Letter) (sharp : Bool) : List Char :=
  letter.toChar :: if sharp then ['#'] else []

theorem sharpNames_of_chromaticIndex {i : ℕ} (h : chromaticIndex (nameOf letter sharp) = .ok i) :
    i < 12 ∧ sharpNames.getD i [] = nameOf letter sharp := by
  have hall : ∀ i, chromaticIndex (nameOf letter sharp) = .ok i →
      i < 12 ∧ sharpNames.getD i [] = nameOf letter sharp := by
    cases letter <;> cases sharp <;> first
      | exact fun i h => by obtain rfl := Except.ok.inj h; decide
      | exact fun i h => by cases h
  exact hall i h

/-- A note of a score with a note number is written from that number again. -/
theorem ofNoteNumber_of_noteNumber (hlow : 0 ≤ octave) (hhigh : octave ≤ 8)
    (h : noteNumber (nameOf letter sharp) octave = .ok n) :
    Representable n ∧ ofNoteNumber n = (nameOf letter sharp, octave) := by
  obtain ⟨i, hi, h⟩ := exists_of_bind_eq_ok h
  obtain ⟨hlt, hname⟩ := sharpNames_of_chromaticIndex hi
  obtain rfl : (octave + 1) * semitones + i = n := Except.ok.inj h
  have hsemitones : semitones = 12 := rfl
  have hmod : ((octave + 1) * semitones + (i : ℤ)).fmod semitones = i := by
    rw [hsemitones, Int.fmod_eq_emod_of_nonneg _ (by decide)]
    omega
  have hdiv : ((octave + 1) * semitones + (i : ℤ)).fdiv semitones = octave + 1 := by
    rw [hsemitones, Int.fdiv_eq_ediv_of_nonneg _ (by decide)]
    omega
  refine ⟨?_, ?_⟩
  · rw [Representable, lowest, highest, minOctave, maxOctave, hsemitones]
    omega
  · rw [ofNoteNumber, sharpName, hmod, hdiv, Int.toNat_natCast, hname, Int.add_sub_cancel]

/-- Every note but the sharp E and B has a number. -/
theorem exists_noteNumber (h : sharp = true → letter ≠ .e ∧ letter ≠ .b) (octave : Int) :
    ∃ n, noteNumber (nameOf letter sharp) octave = .ok n := by
  have hindex : ∃ i, chromaticIndex (nameOf letter sharp) = .ok i := by
    cases letter <;> cases sharp <;> first
      | exact ⟨_, rfl⟩
      | exact absurd rfl (h rfl).1
      | exact absurd rfl (h rfl).2
  obtain ⟨i, hi⟩ := hindex
  rw [noteNumber, hi]
  exact ⟨_, rfl⟩

/-- Every pitch class has a name that a score can state. -/
theorem exists_chromaticIndex {i : ℕ} (hi : i < 12) :
    ∃ letter sharp, sharpNames.getD i [] = nameOf letter sharp ∧
      chromaticIndex (nameOf letter sharp) = .ok i := by
  interval_cases i
  · exact ⟨.c, false, rfl, rfl⟩
  · exact ⟨.c, true, rfl, rfl⟩
  · exact ⟨.d, false, rfl, rfl⟩
  · exact ⟨.d, true, rfl, rfl⟩
  · exact ⟨.e, false, rfl, rfl⟩
  · exact ⟨.f, false, rfl, rfl⟩
  · exact ⟨.f, true, rfl, rfl⟩
  · exact ⟨.g, false, rfl, rfl⟩
  · exact ⟨.g, true, rfl, rfl⟩
  · exact ⟨.a, false, rfl, rfl⟩
  · exact ⟨.a, true, rfl, rfl⟩
  · exact ⟨.b, false, rfl, rfl⟩

/-- Every note number of a score is that of a note in its octaves. -/
theorem exists_nameOf (h : Representable n) :
    ∃ letter sharp octave, 0 ≤ octave ∧ octave ≤ 8 ∧
      ofNoteNumber n = (nameOf letter sharp, octave) ∧
      noteNumber (nameOf letter sharp) octave = .ok n := by
  obtain ⟨hlow, hhigh⟩ := h
  rw [lowest, minOctave, semitones] at hlow
  rw [highest, maxOctave, semitones] at hhigh
  obtain ⟨i, hi⟩ : ∃ i : ℕ, n.fmod semitones = i := by
    refine ⟨(n.fmod semitones).toNat, (Int.toNat_of_nonneg ?_).symm⟩
    exact Int.fmod_nonneg_of_pos n (by decide)
  -- a number is an octave and a chromatic index
  have hn : n.fdiv semitones * 12 + i = n := by
    rw [← hi, mul_comm]
    exact Int.mul_fdiv_add_fmod n semitones
  have hlt : i < 12 := by
    have := Int.fmod_lt_of_pos n (b := semitones) (by decide)
    rw [hi, semitones] at this
    omega
  obtain ⟨letter, sharp, hname, hindex⟩ := exists_chromaticIndex hlt
  refine ⟨letter, sharp, n.fdiv semitones - 1, by omega, by omega, ?_, ?_⟩
  · rw [ofNoteNumber, sharpName, hi, Int.toNat_natCast, hname]
  · rw [noteNumber, hindex, ok_bind]
    refine congrArg Except.ok ?_
    rw [Int.sub_add_cancel]
    exact hn

/-! ## Transposition -/

/-- A note number moved by semitones, cyclically over those of the octaves of a score. -/
def rotated (n shift : Int) : Int := lowest + (n - lowest + shift) % (octaveCount * semitones)

theorem rotated_eq (n shift : Int) : rotated n shift = 12 + (n - 12 + shift) % 108 := rfl

theorem representable_rotated (n shift : Int) : Representable (rotated n shift) := by
  rw [rotated_eq, Representable, lowest, highest, minOctave, maxOctave, semitones]
  omega

/-- Shifts add up. -/
@[simp] theorem rotated_rotated (n a b : Int) : rotated (rotated n a) b = rotated n (a + b) := by
  simp only [rotated_eq]
  omega

theorem rotated_zero (h : Representable n) : rotated n 0 = n := by
  rw [Representable, lowest, highest, minOctave, maxOctave, semitones] at h
  rw [rotated_eq]
  omega

/-- A transposed note is the one that its rotated number stands for. -/
theorem transpose_eq {name : List Char} (h : noteNumber name octave = .ok n) (shift : Int) :
    transpose name octave shift = .ok (ofNoteNumber (rotated n shift)) := by
  obtain ⟨i, hi, h⟩ := exists_of_bind_eq_ok h
  obtain rfl : (octave + 1) * semitones + i = n := Except.ok.inj h
  -- the pitch class is that of the number, as twelve divides the number of notes
  have hclass : ((i : ℤ) + shift).fmod semitones =
      (rotated ((octave + 1) * semitones + i) shift).fmod semitones := by
    rw [rotated_eq, semitones, Int.fmod_eq_emod_of_nonneg _ (by decide),
      Int.fmod_eq_emod_of_nonneg _ (by decide)]
    omega
  -- the octave, with its carry, is wrapped as the number is
  have hoctave : (octave + ((i : ℤ) + shift).fdiv semitones - minOctave).fmod octaveCount + minOctave =
      (rotated ((octave + 1) * semitones + i) shift).fdiv semitones - 1 := by
    have hcount : octaveCount = 9 := rfl
    rw [rotated_eq, semitones, hcount, minOctave, Int.fmod_eq_emod_of_nonneg _ (by decide),
      Int.fdiv_eq_ediv_of_nonneg _ (by decide), Int.fdiv_eq_ediv_of_nonneg _ (by decide)]
    omega
  rw [transpose, hi, ok_bind]
  refine congrArg Except.ok (Prod.ext ?_ hoctave)
  exact congrArg (fun i : ℤ => sharpNames.getD i.toNat []) hclass

/-- Once round all octaves, and any number of times, nothing has changed. -/
theorem transpose_add_cycle (name : List Char) (octave shift k : Int) :
    transpose name octave (shift + 108 * k) = transpose name octave shift := by
  rw [transpose, transpose]
  refine congrArg _ (funext fun i => congrArg Except.ok (Prod.ext ?_ ?_))
  · -- twelve divides what is added
    refine congrArg (fun i : ℤ => sharpNames.getD i.toNat []) ?_
    simp only [semitones, Int.fmod_eq_emod_of_nonneg _ (show (0 : ℤ) ≤ 12 by decide)]
    omega
  · have hcount : octaveCount = 9 := rfl
    simp only [semitones, hcount, minOctave, Int.fmod_eq_emod_of_nonneg _ (show (0 : ℤ) ≤ 9 by decide),
      Int.fdiv_eq_ediv_of_nonneg _ (show (0 : ℤ) ≤ 12 by decide)]
    omega

example : rotated 119 1 = 12 := rfl

end Monody.Pitch
