import Monody.Midi.Library.Message

/-!
# Tracks

A track is a list of events, each with the ticks that pass before it. Of the events that say
something about a track only its name and the changes of tempo are kept; every other event that
makes no melody only takes time.

## Main definitions

* `TrackEvent`, `TimedEvent`, `Track` — what a track holds
* `File` — the tracks of a file with its resolution
-/

namespace Monody.Midi

/-- What a track holds. -/
inductive TrackEvent where
  | message (m : Message)
  | name (text : List Char)
  /-- A change of tempo, in microseconds a beat. -/
  | tempo (microseconds : Nat)
  /-- An event that makes no melody. -/
  | other
  deriving DecidableEq, Repr

/-- An event after some ticks. -/
structure TimedEvent where
  /-- The ticks since the event before it. -/
  delta : Int
  event : TrackEvent
  deriving DecidableEq, Repr

/-- The events of a track in order. -/
abbrev Track := List TimedEvent

/-- The name of a header chunk, `MThd`. -/
def headerName : List UInt8 := [0x4d, 0x54, 0x68, 0x64]

/-- The name of a track chunk, `MTrk`. -/
def trackName : List UInt8 := [0x4d, 0x54, 0x72, 0x6b]

/-- The tracks of a file. -/
structure File where
  /-- The ticks in a beat. -/
  resolution : Int
  tracks : List Track
  deriving DecidableEq, Repr

end Monody.Midi
