import Monody.Midi.Library

/-!
# Ticks of a track

The events of a track state the ticks since the event before them. Counted from its beginning, they say
where in the track an event stands.

## Main definitions

* `Track.placed` — the events of a track with the ticks since its beginning
* `Track.tempi` — the changes of tempo in a track
-/

namespace Monody.Midi

/-- The events of a track with the ticks since its beginning, which is at a given tick. -/
def Track.placedFrom (tick : Int) : Track → List (Int × TrackEvent)
  | [] => []
  | ⟨delta, event⟩ :: rest => (tick + delta, event) :: placedFrom (tick + delta) rest

/-- The events of a track with the ticks since its beginning. -/
def Track.placed (t : Track) : List (Int × TrackEvent) := t.placedFrom 0

/-- The changes of tempo in a track, each with its tick. -/
def Track.tempi (t : Track) : List (Int × Int) :=
  t.placed.filterMap fun p => match p.2 with
    | .tempo microseconds => some (p.1, (microseconds : Int))
    | _ => none

end Monody.Midi
