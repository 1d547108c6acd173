import Monody.Melody.Printer

/-!
# Lines of a performance

A performance is a list of notes, each with its start and end in milliseconds. A melody has one note
at a time, so a performance is split into lines in which no note starts before the one before it has
ended. A line is then written as a score, with a pause for every gap.

Times are compared exactly. Whole milliseconds also have an exact difference, so that a line of them
keeps its durations however far from zero it is played.

## Main definitions

* `Note` — a note with its times
* `lines` — a performance as lines, each note in the first line that is free
* `score` — a line as a score
-/

namespace Monody.Performance

/-- A note that is played from one time to another. -/
structure Note where
  /-- When it starts, in milliseconds. -/
  start : Number
  /-- When it ends. -/
  stop : Number
  /-- Its note number. -/
  pitch : Int
  channel : Int
  deriving DecidableEq

namespace Note

/-- A note comes before another: it starts earlier, or at the same time with a lower pitch. -/
def Before (a b : Note) : Prop := a.start < b.start ∨ a.start.Same b.start ∧ a.pitch < b.pitch

instance (a b : Note) : Decidable (Before a b) := inferInstanceAs (Decidable (_ ∨ _))

/-- The latest time at which a note may end that this one follows: half a millisecond after this one
starts. -/
def reach (n : Note) : Except Number.Fault Binary64 := do
  return (← n.start.toReal) + Number.half

/-- How long a note is played. -/
def duration (n : Note) : Except Number.Fault Number := n.stop.sub n.start

end Note

/-! ## Splitting -/

/-- A line under construction: its last note, and those before it in reverse order. -/
structure OpenLine where
  last : Note
  earlier : List Note
  deriving DecidableEq

/-- The notes of a line in order. -/
def OpenLine.notes (l : OpenLine) : List Note := (l.last :: l.earlier).reverse

/-- Places a note with its reach in the first line that it may follow, or in a new line after
them. -/
def place (n : Note) (reach : Binary64) : List OpenLine → List OpenLine
  | [] => [⟨n, []⟩]
  | l :: ls =>
    if l.last.stop ≤ .real reach then ⟨n, l.last :: l.earlier⟩ :: ls else l :: place n reach ls

/-- The lines of notes that are placed one after another. The reach of the first does not matter, as
there is no line yet that it might follow. -/
def placeAll : List Note → Except Number.Fault (List OpenLine)
  | [] => .ok []
  | first :: rest => do
    let reaches ← rest.mapM Note.reach
    return (rest.zip reaches).foldl (fun ls p => place p.1 p.2 ls) [⟨first, []⟩]

/-- The notes in the order in which they are placed. Notes with the same start and pitch keep their
order. -/
def inOrder (ns : List Note) : List Note := ns.mergeSort fun a b => ¬ b.Before a

/-- A performance as lines without overlapping notes. -/
def lines (ns : List Note) : Except Number.Fault (List (List Note)) := do
  return (← placeAll (inOrder ns)).map (·.notes)

/-! ## Writing -/

/-- Where the writing of a line stands: the whole milliseconds written so far, and when the last
note ended. -/
structure Position where
  cursor : Int
  ended : Option Number
  deriving DecidableEq

/-- A note follows the last one without a gap: it starts at most half a millisecond after that one's
end. -/
def Position.touches (p : Position) (n : Note) : Except Number.Fault Bool :=
  match p.ended with
  | none => .ok false
  | some stop => do return decide ((← n.start.sub stop) ≤ .real Number.half)

/-- The pause before a note, which is zero or less if there is none. -/
def gap (p : Position) (n : Note) : Except Number.Fault Int := do
  if ← p.touches n then return 0 else return (← n.start.nearest) - p.cursor

/-- The tokens of a line from a position on. Every duration is rounded on its own, and a note after
a gap is placed at its own rounded start. -/
def tokensFrom (p : Position) : List Note → Except Number.Fault (List (List Char))
  | [] => .ok []
  | n :: ns => do
    let pause ← gap p n
    let written ← if 0 < pause then do pure [← Melody.writePause (.whole pause)] else pure []
    let duration ← (← n.duration).nearest
    let (name, octave) := Pitch.ofNoteNumber n.pitch
    let token ← Melody.writeNote name octave (.whole duration)
    let rest ← tokensFrom ⟨p.cursor + max 0 pause + duration, some n.stop⟩ ns
    return written ++ token :: rest

/-- A line as a score. -/
def score (line : List Note) : Except Number.Fault (List Char) := do
  return Melody.joinTokens (← tokensFrom ⟨0, none⟩ line)

end Monody.Performance
