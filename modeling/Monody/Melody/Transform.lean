import Monody.Melody.Printer
import Monody.Outcome

/-!
# Transposing and scaling

Both operations take the events of a score without flaws and write a new score. Comments pass
through. A transposition moves every note by semitones, cyclically over the octaves; scaling
multiplies every duration and rounds up to whole milliseconds.

Once all events are done, each operation shows its shift or its multiplier in a message. A whole number
of too many digits cannot be shown, and the operation fails there.

## Main definitions

* `transpose` — the score moved by semitones
* `scaleDuration` — one duration times a multiplier, rounded up
* `scale` — the score with every duration multiplied
-/

namespace Monody.Melody

/-- Why a score cannot be transformed. -/
inductive TransformFault where
  /-- The multiplier is zero or negative. -/
  | notPositive
  /-- Events carry flaws: what was asked for, how many there are, and the first. -/
  | flawed (operation : String) (count : Nat) (first : Flaw)
  /-- A note is not in the table of pitches. -/
  | pitch (fault : Pitch.Fault)
  /-- A duration has no result. -/
  | number (fault : Number.Fault)
  /-- The shift or the multiplier has too many digits to be shown. -/
  | notShown
  deriving DecidableEq, Repr

/-- The message of a fault. -/
def TransformFault.message : TransformFault → String
  | .notPositive => "multiplier must be positive"
  | .flawed operation count first =>
    s!"Cannot {operation}: sequence has {count} error(s), first: {first.message}"
  | .pitch fault => fault.message
  | .number fault => fault.message
  | .notShown => Text.unshownMessage

/-- Refuses events of which any carries a flaw. -/
def requireSound (operation : String) (es : List Event) : Except TransformFault Unit :=
  match es.filterMap (·.flaw) with
  | [] => .ok ()
  | first :: rest => .error (.flawed operation (rest.length + 1) first)

/-- The token of an event moved by semitones. -/
def transposeEvent (shift : Int) (e : Event) : Except TransformFault (List Char) :=
  match e.content with
  | .note letter sharp octave => do
    let name := letter.toChar :: if sharp then ['#'] else []
    let (name, octave) ← (Pitch.transpose name octave shift).mapError .pitch
    (writeNote name octave (.ofReal e.duration)).mapError .number
  | _ => (writeEvent e (.ofReal e.duration)).mapError .number

/-- The score of events moved by semitones. -/
def transpose (es : List Event) (shift : Int) : Except TransformFault (List Char) := do
  requireSound "transpose" es
  let tokens ← es.mapM (transposeEvent shift)
  require (Text.isShown shift) .notShown
  return joinTokens tokens

/-- The decimal places that a product is rounded to before it is rounded up, so that the noise of
binary rounding does not push an exact product over the next integer. -/
def ceilingPlaces : Nat := 9

/-- A duration times a multiplier, rounded up to a whole number. -/
def scaleDuration (duration multiplier : Number) : Except Number.Fault Int := do
  match ← duration.mul multiplier with
  | .whole n => return n
  | .real x => Number.ceil (x.roundPlaces ceilingPlaces)

/-- The token of an event with its duration multiplied. -/
def scaleEvent (multiplier : Number) (e : Event) : Except TransformFault (List Char) :=
  Except.mapError .number <| match e.content with
    | .note .. | .pause => do
      writeEvent e (.whole (← scaleDuration (.ofReal e.duration) multiplier))
    | _ => .ok e.raw

/-- The score of events with every duration multiplied. -/
def scale (es : List Event) (multiplier : Number) : Except TransformFault (List Char) := do
  if multiplier ≤ 0 then throw .notPositive
  requireSound "scale durations" es
  let tokens ← es.mapM (scaleEvent multiplier)
  require multiplier.isShown .notShown
  return joinTokens tokens

end Monody.Melody
