import Monody.Melody.Basic

/-!
# Writing scores

A score is written in its shortest form: the default octave and the default duration are left out,
comments are kept as they are, and one space stands between tokens. Only events without a flaw have
a written form.

## Main definitions

* `writeNumber` — a whole number without a point, any other in full without an exponent
* `writeNote`, `writePause` — single tokens
* `serialize` — a whole score
-/

namespace Monody.Melody

/-- A number as a duration writes it. -/
def writeNumber (x : Number) : Except Number.Fault (List Char) := do
  let real ← x.toReal
  if real.isWhole then
    let n ← match x with
      | .whole n => pure n
      | .real x => Number.truncate x
    return (toString n).toList
  else
    return Binary64.pointed.write real

/-- A duration in parentheses, or nothing for the default. -/
def writeDuration (duration : Number) : Except Number.Fault (List Char) :=
  if duration.order (.whole 1000) = some .eq then .ok []
  else do return '(' :: (← writeNumber duration) ++ [')']

/-- A note of a given name. -/
def writeNote (name : List Char) (octave : Int) (duration : Number) :
    Except Number.Fault (List Char) := do
  let stated := if octave = defaultOctave then [] else (toString octave).toList
  return name ++ stated ++ (← writeDuration duration)

/-- A pause. -/
def writePause (duration : Number) : Except Number.Fault (List Char) := do
  return 'P' :: (← writeDuration duration)

/-- Tokens with a space between them. -/
def joinTokens (ts : List (List Char)) : List Char := List.intercalate [' '] ts

/-- Why a score cannot be written. -/
inductive WriteFault where
  /-- An event carries a flaw. -/
  | flawed (raw : List Char)
  /-- A duration cannot be written. -/
  | number (fault : Number.Fault)
  deriving DecidableEq, Repr

/-- The message of a fault. -/
def WriteFault.message : WriteFault → String
  | .flawed raw => "Cannot serialize an event with an error: " ++ String.ofList (Text.quote raw)
  | .number fault => fault.message

/-- The token of an event with a given duration. -/
def writeEvent (e : Event) (duration : Number) : Except Number.Fault (List Char) :=
  match e.content with
  | .note letter sharp octave =>
    writeNote (letter.toChar :: if sharp then ['#'] else []) octave duration
  | .pause => writePause duration
  | .comment | .unreadable => .ok e.raw

/-- The token of an event without a flaw. -/
def formatEvent (e : Event) : Except WriteFault (List Char) :=
  if e.flaw.isSome then .error (.flawed e.raw)
  else (writeEvent e (.ofReal e.duration)).mapError .number

/-- The written form of events without a flaw. -/
def serialize (es : List Event) : Except WriteFault (List Char) := do
  return joinTokens (← es.mapM formatEvent)

end Monody.Melody
