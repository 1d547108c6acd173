import Monody.Voice

/-!
# Sessions

A session is one playing of some voices. Each voice takes part in it with the channel, velocity and
gate that it has when the session starts, and holds at most one note at a time. A session ends once,
completed or cancelled, and its result is what whoever waits for it is told.

## Main definitions

* `Part` — a voice as it takes part in a session
* `Session` — the parts with the notes they hold
* `Session.held?`, `Session.hold`, `Session.drop` — the note that a part holds
-/

namespace Monody.Playback

/-- How a session ends. -/
inductive Ending where
  | completed
  | cancelled
  deriving DecidableEq, Repr

/-- How far a session has come. -/
inductive Phase where
  /-- It is being built. -/
  | idle
  | scheduled
  | playing
  | ended (how : Ending)
  deriving DecidableEq, Repr

/-- A voice as it takes part in a session. -/
structure Part where
  /-- Its place among the voices played. -/
  index : Nat
  /-- The performer whose voice it is. -/
  performer : Nat
  channel : Midi.Channel
  velocity : Midi.Data
  gate : Binary64
  /-- When it ends, in seconds from the start. -/
  ends : Binary64
  deriving DecidableEq

/-- A note that a part holds, and the event it comes from. -/
structure Held where
  part : Nat
  event : Nat
  note : Midi.Data
  deriving DecidableEq, Repr

/-- One playing of some voices. -/
structure Session where
  speed : Number
  phase : Phase
  parts : List Part
  /-- When the last part ends, in seconds from the start. -/
  duration : Binary64
  held : List Held
  /-- What whoever waits for the session is told. -/
  result : Option Ending
  deriving DecidableEq

namespace Session

/-- A session without parts. -/
def new (speed : Number) : Session := ⟨speed, .idle, [], 0, [], none⟩

/-- Whether the session has ended. -/
def hasEnded (s : Session) : Bool :=
  match s.phase with
  | .ended _ => true
  | _ => false

/-- The note that a part holds. -/
def held? (s : Session) (part : Nat) : Option Held := s.held.find? (·.part == part)

/-- The session without the note that a part holds. -/
def drop (s : Session) (part : Nat) : Session :=
  { s with held := s.held.filter (·.part ≠ part) }

/-- The session where a part holds a note, and no other. -/
def hold (s : Session) (h : Held) : Session :=
  { s with held := h :: (s.held.filter (·.part ≠ h.part)) }

/-- Tells the result, unless one was told before. -/
def resolve (s : Session) (how : Ending) : Session :=
  { s with result := s.result.or (some how) }

/-- The session apart from what is told of it. -/
def untold (s : Session) : Session := { s with result := none }

/-- When the last of the parts ends. -/
def lastEnd (s : Session) : Binary64 :=
  match s.parts.map (·.ends) with
  | [] => 0
  | e :: es => es.foldl Binary64.max e

end Session

end Monody.Playback
