import Monody.Config.Settings
import Monody.Device
import Monody.Folder
import Monody.Melody.Transform
import Monody.Midi.Import
import Monody.Playback.Run

/-!
# Players

A player has settings, one output and one playback. It makes voices with the defaults of its
settings, plays them, and writes them to files and reads them back.

## Main definitions

* `Player.start` — a player on an output, or on the device of its settings
* `Player.voice`, `Player.transposed`, `Player.scaled` — making voices
* `Player.exported`, `Player.imported` — voices as the bytes of a file and back
-/

namespace Monody

/-- Settings, playback and the folder that files are in. -/
structure Player where
  settings : Config.Settings
  playback : Playback
  folder : Folder

namespace Player

/-- Why a player refuses a call. -/
inductive Fault where
  /-- No instrument has the name. -/
  | instrument (fault : Instrument.Unknown)
  /-- The score cannot be read. -/
  | score (fault : Text.IntegerFault)
  /-- The voice cannot be made. -/
  | voice (fault : Voice.Fault)
  /-- The melody cannot be changed. -/
  | transform (fault : Melody.TransformFault)
  /-- A voice to be exported has flaws: its place, how many there are, and the first. -/
  | flawed (index count : Nat) (first : Melody.Flaw)
  /-- The voices have no file. -/
  | encoding (fault : Midi.ExportFault)
  /-- The bytes have no voices. -/
  | decoding (fault : Midi.ImportFault)
  /-- The file to be read is not there. -/
  | unreadable (fault : Folder.Missing)
  /-- The file cannot be written. -/
  | unwritable (fault : Folder.Missing)

/-- The message of a fault. -/
def Fault.message : Fault → String
  | .instrument fault => fault.message
  | .score fault => fault.message
  | .voice fault => fault.message
  | .transform fault => fault.message
  | .flawed index count first =>
    s!"Cannot export voice {index}: {count} error(s), first: {first.message}"
  | .encoding fault => fault.message
  | .decoding fault => fault.message
  | .unreadable fault => "Could not read " ++ String.ofList fault.path ++ ": " ++ fault.message
  | .unwritable fault => fault.message

/-- The device that settings ask for. A value that is no text names none. -/
def wish (settings : Config.Settings) : Option (List Char) :=
  match settings.device with
  | .text name => some name
  | _ => none

/-- A player on an output. -/
def start (settings : Config.Settings) (output : Output) (listeners : List Playback.Listener)
    (folder : Folder) : Player :=
  ⟨settings, .start output [] listeners (.real settings.speed) true, folder⟩

/-- The voice of a performer. -/
def voiceAt? (p : Player) (performer : Nat) : Option Voice :=
  (p.playback.performers[performer]?).map (·.voice)

/-- The player with more performers. -/
def hire (p : Player) (voices : List Voice) : Player :=
  { p with
    playback := { p.playback with
      performers := p.playback.performers ++ voices.map (⟨·, none⟩) } }

/-- A voice for a score. What is not given comes from the settings. -/
def voice (p : Player) (score : List Char) (instrument : Option (List Char))
    (volume : Option Number) (name : List Char) : Except Fault Voice := do
  let instrument ← match instrument with
    | some name => (Instrument.ofName name).mapError .instrument
    | none => pure p.settings.instrument
  let melody ← (Melody.parse score).mapError .score
  let volume := volume.getD (.real p.settings.volume)
  (Voice.checked ⟨melody, instrument, volume, false, false, name⟩).mapError .voice

/-- A voice with the settings of another and a score of its own. -/
def rewritten (v : Voice) (score : List Char) : Except Fault Voice := do
  let melody ← (Melody.parse score).mapError .score
  (Voice.checked { v with melody }).mapError .voice

/-- A voice moved by semitones. -/
def transposed (v : Voice) (shift : Int) : Except Fault Voice := do
  rewritten v (← (Melody.transpose v.melody.events shift).mapError .transform)

/-- A voice with every duration multiplied. -/
def scaled (v : Voice) (multiplier : Number) : Except Fault Voice := do
  rewritten v (← (Melody.scale v.melody.events multiplier).mapError .transform)

/-- Refuses voices of which any has flaws; the first of them has a given place. -/
def requireSound (index : Nat) : List Voice → Except Fault Unit
  | [] => .ok ()
  | v :: vs =>
    match v.melody.flaws with
    | [] => requireSound (index + 1) vs
    | first :: rest => .error (.flawed index (rest.length + 1) first)

/-- The bytes of a file of voices, with the tempo and resolution of the settings. -/
def exported (p : Player) (voices : List Voice) : Except Fault (List UInt8) := do
  requireSound 0 voices
  (Midi.encode voices (.real p.settings.bpm) (.whole p.settings.resolution)).mapError .encoding

/-- Writes voices to a file. -/
def exportFile (p : Player) (path : List Char) (voices : List Voice) : Except Fault Player := do
  let bytes ← p.exported voices
  return { p with folder := ← (p.folder.write path bytes).mapError .unwritable }

/-- The voices of the bytes of a file. -/
def imported (bytes : List UInt8) : Except Fault (List Voice) := do
  return (← (Midi.decode bytes).mapError .decoding).map (·.toVoice)

/-- The voices of a file. -/
def importFile (p : Player) (path : List Char) : Except Fault (List Voice) := do
  imported (← (p.folder.read path).mapError .unreadable)

/-- The player after a command to its playback. -/
def perform (c : Playback.Command) (p : Player) :
    Except Playback.Refusal Playback.Reply × Player :=
  let (reply, playback) := p.playback.perform c
  (reply, { p with playback })

end Player

end Monody
