import Monody.Number
import Monody.Pitch

/-!
# Events of a melody

An event is what one token of a score stands for, with its place on the timeline. Times and
durations are milliseconds. An event that breaks a rule keeps its place and carries a flaw.

## Main definitions

* `Event` — a note, a pause, a comment, or something unreadable, with its times
* `Flaw` — which rule an event breaks, with the text that breaks it
* `Event.noteNumber?` — the note number of a note without a flaw
-/

namespace Monody.Melody

/-- The duration of a note or a pause that states none. -/
def defaultDuration : Binary64 := .ofInt 1000

/-- The octave of a note that states none. -/
def defaultOctave : Int := 4

/-- The letter of a note. -/
inductive Letter where
  | a | b | c | d | e | f | g
  deriving DecidableEq, Repr

namespace Letter

/-- The letter that a character of either case stands for. -/
def ofChar? : Char → Option Letter
  | 'A' | 'a' => some a
  | 'B' | 'b' => some b
  | 'C' | 'c' => some c
  | 'D' | 'd' => some d
  | 'E' | 'e' => some e
  | 'F' | 'f' => some f
  | 'G' | 'g' => some g
  | _ => none

/-- The letter in upper case. -/
def toChar : Letter → Char
  | a => 'A'
  | b => 'B'
  | c => 'C'
  | d => 'D'
  | e => 'E'
  | f => 'F'
  | g => 'G'

end Letter

/-- What a token stands for. -/
inductive Content where
  | note (letter : Letter) (sharp : Bool) (octave : Int)
  | pause
  | comment
  | unreadable
  deriving DecidableEq, Repr

namespace Content

/-- The word for the kind of content. -/
def kind : Content → String
  | note .. => "note"
  | pause => "pause"
  | comment => "comment"
  | unreadable => "invalid"

/-- The name of a note: its letter, with a sign if it is sharp. -/
def noteName? : Content → Option (List Char)
  | note letter sharp _ => some (letter.toChar :: if sharp then ['#'] else [])
  | _ => none

end Content

/-- Which rule a token breaks. -/
inductive Flaw.Cause where
  /-- The octave is outside 0 to 8. -/
  | octave (n : Int)
  /-- The duration of a note is no positive number. -/
  | duration (text : List Char)
  /-- The duration of a pause is no positive number. -/
  | pauseDuration (text : List Char)
  /-- The token is neither a note nor a pause nor a comment. -/
  | unreadable
  deriving DecidableEq, Repr

/-- A broken rule, with the slice of the score that breaks it. -/
structure Flaw where
  cause : Flaw.Cause
  text : List Char
  deriving DecidableEq, Repr

namespace Flaw

/-- The word for the kind of flaw, which is also the key of its message. -/
def kind (flaw : Flaw) : String :=
  match flaw.cause with
  | .octave _ => "invalid_octave"
  | .duration _ => "invalid_duration"
  | .pauseDuration _ => "invalid_pause_duration"
  | .unreadable => "invalid_format"

/-- The message of a flaw. -/
def message (flaw : Flaw) : String :=
  let shown (cs : List Char) : String := String.ofList (Text.quote cs)
  match flaw.cause with
  | .octave n => s!"Invalid octave: {n}. Range: {Pitch.minOctave}-{Pitch.maxOctave}"
  | .duration cs => "Invalid duration: " ++ shown cs
  | .pauseDuration cs => "Invalid pause duration: " ++ shown cs
  | .unreadable => "Invalid format: " ++ shown flaw.text

end Flaw

/-- A token on the timeline. -/
structure Event where
  content : Content
  /-- When it starts, in milliseconds. -/
  start : Binary64
  /-- When it ends. -/
  stop : Binary64
  duration : Binary64
  flaw : Option Flaw
  /-- The slice of the score it was read from. -/
  raw : List Char
  /-- The offsets of that slice. -/
  span : Nat × Nat
  deriving DecidableEq

namespace Event

/-- A note, with or without a flaw. -/
def isNote (e : Event) : Bool :=
  match e.content with
  | .note .. => true
  | _ => false

/-- A comment, which takes no time. -/
def isComment (e : Event) : Bool := e.content == .comment

/-- A note without a flaw: the only event that sounds. -/
def isPlayable (e : Event) : Bool := e.isNote && e.flaw.isNone

/-- The note number of a playable note; a sharp E or B has none, and faults. -/
def noteNumber? (e : Event) : Except Pitch.Fault (Option Int) :=
  match e.content, e.flaw with
  | .note letter sharp octave, none =>
    (Pitch.noteNumber (letter.toChar :: if sharp then ['#'] else []) octave).map some
  | _, _ => .ok none

/-- What two events have in common when they say the same at the same time, wherever in a score
they were written. -/
def gist (e : Event) : Content × Binary64 × Binary64 × Binary64 × Option Flaw :=
  (e.content, e.start, e.stop, e.duration, e.flaw)

end Event

end Monody.Melody
