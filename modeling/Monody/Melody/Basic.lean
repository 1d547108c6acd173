import Monody.Melody.Event
import Monody.Melody.Token
import Monody.Text.Numeral

/-!
# Melodies

A melody is a score and the events it is read as. Each token is read as a comment, a pause or a
note, or else as unreadable; what is wrong with one token stays with its event, and the clock runs
on through all of them.

## Main definitions

* `eventOf` — the event of one token that starts at a given time
* `Melody` — a score with its events
* `Melody.parse` — reading a score
* `Melody.validate` — what is wrong with a score
-/

namespace Monody.Melody

/-- Two slashes at either end, which do not overlap. -/
def isCommentText (cs : List Char) : Bool :=
  4 ≤ cs.length && cs.take 2 == ['/', '/'] && cs.drop (cs.length - 2) == ['/', '/']

/-- The characters between parentheses, if the whole text is in parentheses. -/
def parenthesized? : List Char → Option (List Char)
  | '(' :: cs => if cs.getLast? = some ')' then some cs.dropLast else none
  | _ => none

/-- What may follow the rest of a token: nothing, or a duration in parentheses. -/
def durationText? (cs : List Char) : Option (Option (List Char)) :=
  if cs.isEmpty then some none else (parenthesized? cs).map some

/-- A positive number: digits, and a point with digits after it or none. One line break may stand
at the end. -/
def readDuration? (cs : List Char) : Option Binary64 :=
  let cs := if cs.getLast? = some '\n' then cs.dropLast else cs
  let whole := cs.takeWhile Text.isDigit
  let part? := match cs.dropWhile Text.isDigit with
    | [] => some []
    | '.' :: part => if part.isEmpty then none else some part
    | _ => none
  match part? with
  | none => none
  | some part =>
    if whole.isEmpty || !part.all Text.isDigit then none
    else
      let value := Binary64.ofDecimal false ⟨Text.digitsValue (whole ++ part), -part.length⟩
      if value ≤ 0 then none else some value

/-- A stated duration, or the default if none is stated; none if it is no positive number. -/
def resolveDuration? : Option (List Char) → Option Binary64
  | none => some defaultDuration
  | some cs => readDuration? cs

/-- A pause: the letter P, and a duration or none. -/
def pause? : List Char → Option (Option (List Char))
  | c :: cs => if c = 'P' ∨ c = 'p' then durationText? cs else none
  | [] => none

/-- The parts of a note as they are written. -/
structure NoteText where
  letter : Letter
  sharp : Bool
  /-- Whether the octave is negative, and its digits. -/
  octave : Option (Bool × List Char)
  duration : Option (List Char)
  deriving DecidableEq, Repr

/-- Whether a certain sign comes first, and what follows it. -/
def splitFirst (sign : Char) : List Char → Bool × List Char
  | [] => (false, [])
  | c :: cs => if c = sign then (true, cs) else (false, c :: cs)

/-- An optional octave, and what follows it. -/
def splitOctave (cs : List Char) : Option (Bool × List Char) × List Char :=
  let (negative, body) := splitFirst '-' cs
  let digits := body.takeWhile Text.isDigit
  if digits.isEmpty then (none, cs)
  else (some (negative, digits), body.dropWhile Text.isDigit)

/-- A note: a letter, then a sharp sign, an octave and a duration, each of which may be missing. -/
def note? : List Char → Option NoteText
  | [] => none
  | c :: cs => do
    let letter ← Letter.ofChar? c
    let (sharp, cs) := splitFirst '#' cs
    let (octave, cs) := splitOctave cs
    return ⟨letter, sharp, octave, ← durationText? cs⟩

/-- The octave that a note states, or the default. -/
def resolveOctave : Option (Bool × List Char) → Except Text.IntegerFault Int
  | none => .ok defaultOctave
  | some (negative, digits) =>
    if Text.integerPlaces < digits.length then .error (.tooLong digits.length)
    else .ok (if negative then -(Text.digitsValue digits : Int) else Text.digitsValue digits)

/-- The event of a token that takes time, with the default duration where it states none that can
be read. -/
def placed (token : Token) (start : Binary64) (content : Content) (duration : Option Binary64)
    (cause : Option Flaw.Cause) : Event :=
  let duration := duration.getD defaultDuration
  { content
    start
    stop := start + duration
    duration
    flaw := cause.map (⟨·, token.raw⟩)
    raw := token.raw
    span := (token.start, token.stop) }

/-- The event of a token that starts at a given time. Only an octave too long to be read has no
event. -/
def eventOf (token : Token) (start : Binary64) : Except Text.IntegerFault Event :=
  if isCommentText token.text then
    .ok ⟨.comment, start, start, 0, none, token.raw, (token.start, token.stop)⟩
  else match pause? token.text with
    | some stated =>
      let duration := resolveDuration? stated
      let cause := if duration.isNone then some (.pauseDuration (stated.getD [])) else none
      .ok (placed token start .pause duration cause)
    | none => match note? token.text with
      | some parts => do
        let octave ← resolveOctave parts.octave
        let duration := resolveDuration? parts.duration
        let cause :=
          if octave < Pitch.minOctave ∨ Pitch.maxOctave < octave then some (.octave octave)
          else if duration.isNone then some (.duration (parts.duration.getD []))
          else none
        return placed token start (.note parts.letter parts.sharp octave) duration cause
      | none => .ok (placed token start .unreadable none (some .unreadable))

/-- The events of tokens, the first of them starting at a given time. A comment stops no clock. -/
def eventsFrom (time : Binary64) : List Token → Except Text.IntegerFault (List Event)
  | [] => .ok []
  | token :: rest => do
    let event ← eventOf token time
    let events ← eventsFrom (if event.isComment then time else event.stop) rest
    return event :: events

/-- The events of a score. -/
def readEvents (text : List Char) : Except Text.IntegerFault (List Event) :=
  eventsFrom 0 (tokens text)

end Melody

/-- A score and the events it is read as. -/
structure Melody where
  text : List Char
  events : List Melody.Event
  deriving DecidableEq

namespace Melody

/-- Reads a score. -/
def parse (text : List Char) : Except Text.IntegerFault Melody :=
  (readEvents text).map (⟨text, ·⟩)

/-- The flaws of the events, in order. -/
def flaws (m : Melody) : List Flaw := m.events.filterMap (·.flaw)

/-- The flaws of a score, in order. -/
def validate (text : List Char) : Except Text.IntegerFault (List Flaw) :=
  (parse text).map (·.flaws)

/-- Whether any event has a flaw. -/
def isFlawed (m : Melody) : Bool := m.events.any (·.flaw.isSome)

/-- The notes without a flaw, in order. -/
def notes (m : Melody) : List Event := m.events.filter (·.isPlayable)

/-- The latest end of an event that takes time, or zero if there is none. -/
def total (m : Melody) : Binary64 :=
  match (m.events.filter (!·.isComment)).map (·.stop) with
  | [] => 0
  | stop :: stops => stops.foldl Binary64.max stop

end Melody

end Monody
