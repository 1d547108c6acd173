import Monody.Midi.Library

/-!
# Tempo

A file counts time in ticks. Its resolution is the number of ticks in a beat, and a tempo the number
of microseconds that a beat lasts. A tempo map holds the tempi of a file from the ticks where they
set in, each with the milliseconds that have passed until then.

## Main definitions

* `ticksOfMs`, `msOfTicks` — between milliseconds and ticks at one tempo
* `TempoMap` — ticks to milliseconds across changes of tempo
* `TempoMap.bisect` — the search for the stretch of a tick
-/

namespace Monody.Midi

/-- The tempo of a file that states none. -/
def Tempo.default : Int := 500000

/-- One thousand. -/
def thousand : Binary64 := .ofInt 1000

/-- The tick nearest to a time in milliseconds. -/
def ticksOfMs (ms : Binary64) (resolution : Number) (tempo : Int) : Except Number.Fault Int := do
  let scaled := ms * thousand * (← resolution.toReal)
  Number.roundHalfUp (← Number.divide scaled (← Number.realOfInt tempo))

/-- The length of ticks in milliseconds. -/
def msOfTicks (ticks resolution tempo : Int) : Except Number.Fault Binary64 := do
  return (← Tempo.secondsOfTicks ticks resolution tempo) * thousand

/-- A stretch of one tempo. -/
structure Segment where
  /-- The tick where it starts. -/
  start : Int
  tempo : Int
  /-- The milliseconds before it. -/
  elapsed : Binary64
  deriving DecidableEq

/-- The stretches of a file, in order. -/
structure TempoMap where
  resolution : Int
  first : Segment
  rest : List Segment
  deriving DecidableEq

namespace TempoMap

/-- Changes of tempo in the order of their ticks, with the default tempo in front if none of them
holds from the beginning. Of changes at one tick, the order stays. -/
def inOrder (changes : List (Int × Int)) : (Int × Int) × List (Int × Int) :=
  match changes.mergeSort fun a b => a.1 ≤ b.1 with
  | [] => ((0, Tempo.default), [])
  | first :: rest =>
    if 0 < first.1 then ((0, Tempo.default), first :: rest) else (first, rest)

/-- The segment of a change of tempo that follows another segment. -/
def next (resolution : Int) (s : Segment) (change : Int × Int) : Except Number.Fault Segment := do
  let passed ← msOfTicks (change.1 - s.start) resolution s.tempo
  return ⟨change.1, change.2, s.elapsed + passed⟩

/-- The segments of changes of tempo that follow a segment. -/
def segmentsFrom (resolution : Int) (s : Segment) :
    List (Int × Int) → Except Number.Fault (List Segment)
  | [] => .ok []
  | change :: rest => do
    let t ← next resolution s change
    return t :: (← segmentsFrom resolution t rest)

/-- The tempo map of changes of tempo, each a tick and the tempo from there on. -/
def ofChanges (resolution : Int) (changes : List (Int × Int)) : Except Number.Fault TempoMap := do
  let (first, rest) := inOrder changes
  let s ← next resolution ⟨first.1, first.2, 0⟩ first
  return ⟨resolution, s, ← segmentsFrom resolution s rest⟩

/-- The stretches, the first of them in front. -/
def segments (m : TempoMap) : List Segment := m.first :: m.rest

/-- How many of some ticks in order are not after a certain one, found by halving what lies between two
bounds. -/
def bisect (ticks : List Int) (tick : Int) (low high : Nat) (hhigh : high ≤ ticks.length) : Nat :=
  if hlow : low < high then
    have hmiddle : (low + high) / 2 < high := by omega
    if tick < ticks[(low + high) / 2] then bisect ticks tick low ((low + high) / 2) (by omega)
    else bisect ticks tick ((low + high) / 2 + 1) high hhigh
  else low
termination_by high - low

/-- The segment that a tick lies in: the last that starts at or before it, or else the first. -/
def segmentAt (m : TempoMap) (tick : Int) : Segment :=
  let starts := m.segments.map (·.start)
  m.segments.getD (bisect starts tick 0 starts.length (Nat.le_refl _) - 1) m.first

/-- The time of a tick in milliseconds. -/
def toMs (m : TempoMap) (tick : Int) : Except Number.Fault Binary64 := do
  let s := m.segmentAt tick
  return s.elapsed + (← msOfTicks (tick - s.start) m.resolution s.tempo)

end TempoMap

end Monody.Midi
