import Monody.Midi.Tempo
import Monody.Voice

/-!
# Voices as files

Every voice with a playable note becomes a track on its own channel: its name, its program and its
notes. Pauses, comments and flawed events make no notes, but the notes after them keep their times.
The first track written also states the tempo.

## Main definitions

* `ExportFault` — why voices have no file
* `trackOfVoice` — the track of one voice
* `encode` — the file of a list of voices
-/

namespace Monody.Midi

/-- Why voices have no file. -/
inductive ExportFault where
  /-- The beats in a minute are zero or negative. -/
  | bpmNotPositive
  /-- The ticks in a beat are zero or negative. -/
  | resolutionNotPositive
  /-- A time or a velocity has no result. -/
  | number (fault : Number.Fault)
  /-- A note is not in the table of pitches. -/
  | pitch (fault : Pitch.Fault)
  /-- A note is out of range. -/
  | range (fault : Message.Fault)
  /-- The tempo is too slow for a file. -/
  | tempoRange
  /-- No voice has a playable note. -/
  | nothing
  /-- The tracks cannot be written. -/
  | write (fault : WriteFault)
  deriving DecidableEq, Repr

/-- The message of a fault. -/
def ExportFault.message : ExportFault → String
  | .bpmNotPositive => "bpm must be positive"
  | .resolutionNotPositive => "ticks_per_beat must be positive"
  | .number fault => fault.message
  | .pitch fault => fault.message
  | .range fault => fault.message
  | .tempoRange => s!"attribute must be in range 0..{Tempo.greatest}"
  | .nothing => "Nothing to export: no voice contains a playable note"
  | .write fault => fault.message

/-- The beats in a minute of a file that is not told otherwise. With `defaultResolution` one tick is
one millisecond. -/
def defaultBpm : Int := 125

/-- The ticks in a beat of a file that is not told otherwise. -/
def defaultResolution : Int := 480

/-- A message at a tick. -/
abbrev PlacedMessage := Int × Message

/-- Of the messages at one tick, those that let go of a note come first, so that a note is let go of
before it is struck again. -/
def rank : Message → Nat
  | .noteOff .. => 0
  | _ => 1

/-- A message comes at an earlier tick, or at the same tick with a lower rank. -/
def PlacedMessage.Before (a b : PlacedMessage) : Prop :=
  a.1 < b.1 ∨ a.1 = b.1 ∧ rank a.2 < rank b.2

instance (a b : PlacedMessage) : Decidable (PlacedMessage.Before a b) :=
  inferInstanceAs (Decidable (_ ∨ _))

/-- The messages of an event at their ticks. Every note lasts at least one tick. -/
def messagesOfEvent (channel : Channel) (velocity : Data) (resolution : Number) (tempo : Int)
    (e : Melody.Event) : Except ExportFault (List PlacedMessage) := do
  match ← e.noteNumber?.mapError .pitch with
  | none => return []
  | some number =>
    let on ← (ticksOfMs e.start resolution tempo).mapError .number
    let off ← (ticksOfMs e.stop resolution tempo).mapError .number
    let note ← (Data.ofInt number).mapError .range
    return [(on, .noteOn channel note velocity),
      (max (on + 1) off, .noteOff channel note Data.zero)]

/-- Placed messages as events of a track, the first of them counted from a tick. -/
def eventsFrom (last : Int) : List PlacedMessage → Track
  | [] => []
  | (tick, m) :: rest => ⟨tick - last, .message m⟩ :: eventsFrom tick rest

/-- The event that states a tempo. -/
def tempoEvent (tempo : Int) : Except ExportFault TimedEvent :=
  match TrackEvent.ofTempo? tempo with
  | some event => .ok ⟨0, event⟩
  | none => .error .tempoRange

/-- The name of the track of a voice: its own, or else its number. -/
def nameOfTrack (v : Voice) (index : Nat) : List Char :=
  if v.name.isEmpty then s!"Voice {index + 1}".toList else v.name

/-- The velocity that the notes of a voice are written with, which is never zero. -/
def writtenVelocity (v : Voice) : Except Number.Fault Data := do
  return (← v.velocity).orOne

/-- The notes of a voice as events of a track. -/
def noteEvents (v : Voice) (index : Nat) (resolution : Number) (tempo : Int) :
    Except ExportFault Track := do
  let velocity ← (writtenVelocity v).mapError .number
  let placed ← v.melody.events.mapM
    (messagesOfEvent (Channel.ofVoice index) velocity resolution tempo)
  return eventsFrom 0 (placed.flatten.mergeSort fun a b => ¬ PlacedMessage.Before b a)

/-- The track of a voice, if it has a playable note. -/
def trackOfVoice (v : Voice) (index : Nat) (resolution : Number) (tempo : Int) (stated : Bool) :
    Except ExportFault (Option Track) := do
  if v.melody.notes.isEmpty then return none
  let notes ← noteEvents v index resolution tempo
  let tempi ← if stated then do pure [← tempoEvent tempo] else pure []
  let program := Message.program (Channel.ofVoice index) v.instrument.program
  return some (⟨0, .name (nameOfTrack v index)⟩ :: tempi ++ ⟨0, .message program⟩ :: notes)

/-- The tracks of voices, the first of which has a given index. The first track states the tempo,
unless one before it has. -/
def tracksFrom (index : Nat) (stated : Bool) (resolution : Number) (tempo : Int) :
    List Voice → Except ExportFault (List Track)
  | [] => .ok []
  | v :: vs => do
    match ← trackOfVoice v index resolution tempo (!stated) with
    | none => tracksFrom (index + 1) stated resolution tempo vs
    | some t => return t :: (← tracksFrom (index + 1) true resolution tempo vs)

/-- The bytes of the file of a list of voices. -/
def encode (voices : List Voice) (bpm resolution : Number) : Except ExportFault (List UInt8) := do
  require (¬ bpm ≤ 0) .bpmNotPositive
  require (¬ resolution ≤ 0) .resolutionNotPositive
  let tempo ← (Tempo.ofBpm bpm).mapError .number
  let tracks ← tracksFrom 0 false resolution tempo voices
  require (tracks ≠ []) .nothing
  (writeFile resolution tracks).mapError .write

end Monody.Midi
