import Monody.Midi.Library.Track
import Monody.Number

/-!
# Tempi and seconds

A file counts time in ticks. Its resolution is the number of ticks in a beat, and a tempo the number
of microseconds that a beat lasts.

## Main definitions

* `Tempo.ofBpm` — the tempo of a number of beats in a minute
* `Tempo.secondsOfTicks` — the length of ticks at one tempo
* `TrackEvent.ofTempo?` — the event that states a tempo
-/

namespace Monody.Midi

namespace Tempo

/-- The greatest tempo that a file can state. -/
def greatest : Int := 16777215

/-- The number of microseconds in a minute. -/
def minute : Binary64 := .ofInt 60000000

/-- The tempo of a number of beats in a minute, in a measure of quarters. -/
def ofBpm (bpm : Number) : Except Number.Fault Int := do
  let beat ← Number.divide minute (← bpm.toReal)
  Number.round (beat * 4 / 4)

/-- One millionth. -/
def millionth : Binary64 := .ofDecimal false ⟨1, -6⟩

/-- The length of ticks in seconds. -/
def secondsOfTicks (ticks resolution tempo : Int) : Except Number.Fault Binary64 := do
  let beat := (← Number.realOfInt tempo) * millionth
  let tick ← Number.divide beat (← Number.realOfInt resolution)
  return (← Number.realOfInt ticks) * tick

end Tempo

/-- The event that states a tempo, if the tempo has three bytes. -/
def TrackEvent.ofTempo? (tempo : Int) : Option TrackEvent :=
  if 0 ≤ tempo ∧ tempo ≤ Tempo.greatest then some (.tempo tempo.toNat) else none

end Monody.Midi
