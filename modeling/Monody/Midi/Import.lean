import Monody.Melody.Basic
import Monody.Midi.Pairing
import Monody.Midi.Tempo
import Monody.Midi.Track
import Monody.Performance.Lines
import Monody.Voice

/-!
# Files as voices

Every track is read as a performance, in milliseconds, and split into lines; each line becomes a
voice whose score has pauses for the gaps. A note that rounds to no length, or that no score can
write, is left out. A track whose times have no result is left out as a whole.

## Main definitions

* `ImportFault` — why bytes have no voices
* `performance` — the notes of a track
* `decode` — the voices of a file
-/

namespace Monody.Midi

/-- Why bytes have no voices. -/
inductive ImportFault where
  /-- The bytes are no file. -/
  | unreadable (fault : ReadFault)
  /-- No track has a note that can be used. -/
  | noNotes
  /-- A time has no result. -/
  | number (fault : Number.Fault)
  /-- The score of a voice cannot be read back. -/
  | score (fault : Text.IntegerFault)
  deriving DecidableEq, Repr

/-- The message of a fault. -/
def ImportFault.message : ImportFault → String
  | .unreadable fault => "Could not read MIDI data: " ++ fault.message
  | .noNotes => "The MIDI file contains no usable notes"
  | .number fault => fault.message
  | .score fault => fault.message

/-- A line of a track as a voice. -/
structure DecodedVoice where
  melody : Melody
  /-- The index of its track in the file. -/
  track : Nat
  /-- The name of its track, which may be empty. -/
  name : List Char
  instrument : Instrument
  /-- The notes it was written from. -/
  notes : List Performance.Note
  deriving DecidableEq

/-- The channel of the first note. -/
def DecodedVoice.channel (d : DecodedVoice) : Int := (d.notes.head?.map (·.channel)).getD 0

/-- The voice to play, at full volume. -/
def DecodedVoice.toVoice (d : DecodedVoice) : Voice :=
  { Voice.ofMelody d.melody with instrument := d.instrument, name := d.name }

/-- The name of a track: the first that is not empty. -/
def Track.title (t : Track) : List Char :=
  (t.findSome? fun e => match e.event with
    | .name (c :: cs) => some (c :: cs)
    | _ => none).getD []

/-- The first program of a track. -/
def Track.program? (t : Track) : Option Data :=
  t.findSome? fun e => match e.event with
    | .message (.program _ program) => some program
    | _ => none

/-- The instrument of a track: the one nearest to its first program, or a piano. -/
def Track.instrument (t : Track) : Instrument :=
  match t.program? with
  | some program => .ofProgram program.val
  | none => .piano

/-- A span as a note, if it has a length and can be written. -/
def noteOfSpan (m : TempoMap) (s : Span) : Except Number.Fault (Option Performance.Note) := do
  let start ← m.toMs s.start
  let stop ← m.toMs s.stop
  if (← Number.roundHalfUp (stop - start)) ≤ 0 ∨ ¬ Pitch.Representable s.note.val then return none
  else return some ⟨.real start, .real stop, s.note.val, s.channel.val⟩

/-- The notes of a track. -/
def performance (m : TempoMap) (t : Track) : Except Number.Fault (List Performance.Note) := do
  return (← t.spans.mapM (noteOfSpan m)).filterMap id

/-- The voice of a line. -/
def voiceOfLine (t : Track) (index : Nat) (line : List Performance.Note) :
    Except ImportFault DecodedVoice := do
  let score ← (Performance.score line).mapError .number
  let melody ← (Melody.parse score).mapError .score
  return ⟨melody, index, t.title, t.instrument, line⟩

/-- The voices of a track with its index. -/
def voicesOfTrack (m : TempoMap) (t : Track) (index : Nat) :
    Except ImportFault (List DecodedVoice) :=
  match performance m t with
  | .error _ => .ok []
  | .ok notes => do
    (← (Performance.lines notes).mapError .number).mapM (voiceOfLine t index)

/-- The voices of the tracks of a file. -/
def voicesOfFile (f : File) : Except ImportFault (List DecodedVoice) := do
  let m ← (TempoMap.ofChanges f.resolution (f.tracks.flatMap Track.tempi)).mapError .number
  let voices ← f.tracks.zipIdx.mapM fun p => voicesOfTrack m p.1 p.2
  require (voices.flatten ≠ []) .noNotes
  return voices.flatten

/-- The voices of the bytes of a file. -/
def decode (bytes : List UInt8) : Except ImportFault (List DecodedVoice) := do
  voicesOfFile (← (readFile bytes).mapError .unreadable)

end Monody.Midi
