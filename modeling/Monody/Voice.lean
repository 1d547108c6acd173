import Monody.Instrument
import Monody.Melody.Basic
import Monody.Midi.Channel

/-!
# Voices

A voice is a melody with the settings that it is played with. Its volume lies between 0 and 1 when
it is made; the velocity of its notes is the instrument's, scaled by the volume.
-/

namespace Monody

/-- A melody with the settings that it is played with. -/
structure Voice where
  melody : Melody
  instrument : Instrument
  /-- From 0 for silence to 1 for the full velocity of the instrument. -/
  volume : Number
  /-- Left out when nothing is soloed. -/
  mute : Bool
  /-- Played even if muted, and alone with the other soloed voices. -/
  solo : Bool
  /-- What its track is called. -/
  name : List Char
  deriving DecidableEq

namespace Voice

/-- The volume is not between 0 and 1. -/
inductive Fault where
  | volume (value : Number)
  deriving DecidableEq

/-- The message of a fault, which tells the volume if that can be shown. -/
def Fault.message : Fault → String
  | .volume value =>
    match value.shown? with
    | some cs => "Voice volume must be between 0 and 1, got " ++ String.ofList cs
    | none => Text.unshownMessage

/-- A melody on the piano at full volume. -/
def ofMelody (m : Melody) : Voice := ⟨m, .piano, .real 1, false, false, []⟩

/-- A voice, if its volume is between 0 and 1. -/
def checked (v : Voice) : Except Fault Voice :=
  if 0 ≤ v.volume ∧ v.volume ≤ 1 then .ok v else .error (.volume v.volume)

/-- How hard the notes of a voice are struck: the velocity of its instrument times its volume,
rounded to the nearest value of seven bits. -/
def velocity (v : Voice) : Except Number.Fault Midi.Data := do
  match ← (Number.whole v.instrument.velocity).mul v.volume with
  | .whole n => return .clamp n
  | .real x => return .clamp (← Number.round x)

end Voice

end Monody
