import Monody.Text.Quoted
import Monody.Text.Uppercase

/-!
# Pitches

The twelve pitch classes are spelled with sharps, and five of them may also be spelled with a flat.
A pitch is a spelled class with an octave, or a note number: twelve numbers to the octave, with
middle C, `C4`, at 60. Scores write the octaves 0 to 8, which are the note numbers 12 to 119.

## Main definitions

* `Pitch.chromaticIndex` — the pitch class of a name, from 0 to 11
* `Pitch.noteNumber`, `Pitch.ofNoteNumber` — between spelled pitches and note numbers
* `Pitch.transpose` — a shift by semitones, cyclic over the octaves 0 to 8
-/

namespace Monody.Pitch

/-- The least octave of a score. -/
def minOctave : Int := 0

/-- The greatest octave of a score. -/
def maxOctave : Int := 8

/-- The number of octaves of a score. -/
def octaveCount : Int := maxOctave - minOctave + 1

/-- The number of semitones in an octave. -/
def semitones : Int := 12

/-- The spellings of the pitch classes from C upwards. -/
def sharpNames : List (List Char) :=
  [['C'], ['C', '#'], ['D'], ['D', '#'], ['E'], ['F'], ['F', '#'], ['G'], ['G', '#'], ['A'],
    ['A', '#'], ['B']]

/-- The flat spellings and what they are called with a sharp. -/
def flatNames : List (List Char × List Char) :=
  [(['D', 'b'], ['C', '#']), (['E', 'b'], ['D', '#']), (['G', 'b'], ['F', '#']),
    (['A', 'b'], ['G', '#']), (['B', 'b'], ['A', '#'])]

/-- Why a name is no pitch class. -/
inductive Fault where
  /-- The name is empty. -/
  | emptyName
  /-- No pitch class is called by the name. -/
  | unknownName (name : List Char)
  deriving DecidableEq, Repr

/-- The message of a fault. -/
def Fault.message : Fault → String
  | .emptyName => "Empty note name"
  | .unknownName name =>
    "Unknown note name: " ++ String.ofList (Text.quote name) ++ ". Expected e.g. 'C', 'F#', 'Bb'."

/-- A name with its first letter in upper case and a flat respelled as a sharp. -/
def normalizeName : List Char → Except Fault (List Char)
  | [] => .error .emptyName
  | c :: cs =>
    let spelled := Text.upperChar c ++ cs
    .ok ((flatNames.lookup spelled).getD spelled)

/-- The pitch class of a name, from 0 for C to 11 for B. -/
def chromaticIndex (name : List Char) : Except Fault Nat := do
  match sharpNames.idxOf? (← normalizeName name) with
  | some i => return i
  | none => throw (.unknownName name)

/-- The note number of a spelled pitch. -/
def noteNumber (name : List Char) (octave : Int) : Except Fault Int := do
  return (octave + 1) * semitones + (← chromaticIndex name)

/-- The spelling of a pitch class given by any integer, counted round the octave. -/
def sharpName (index : Int) : List Char := sharpNames.getD (index.fmod semitones).toNat []

/-- The spelled pitch of a note number. -/
def ofNoteNumber (n : Int) : List Char × Int := (sharpName n, n.fdiv semitones - 1)

/-- The least note number of a score. -/
def lowest : Int := (minOctave + 1) * semitones

/-- The greatest note number of a score. -/
def highest : Int := (maxOctave + 2) * semitones - 1

/-- A score can write the note number. -/
def Representable (n : Int) : Prop := lowest ≤ n ∧ n ≤ highest

instance (n : Int) : Decidable (Representable n) := inferInstanceAs (Decidable (_ ∧ _))

/-- A spelled pitch shifted by semitones. The octave carries, and then wraps round within the
octaves of a score. -/
def transpose (name : List Char) (octave shift : Int) : Except Fault (List Char × Int) := do
  let n := (← chromaticIndex name) + shift
  let octave := octave + n.fdiv semitones
  return (sharpName n, (octave - minOctave).fmod octaveCount + minOctave)

end Monody.Pitch
