import Monody.Config.Document
import Monody.Instrument
import Monody.Midi.Export
import Monody.Text.Uppercase

/-!
# Settings

The settings of an application come from a configuration with three sections, all of whose keys may
be left out. Values are converted leniently: a number may be given as a text or a truth value.

## Main definitions

* `Settings` — device, tempo, resolution, speed, instrument, volume and level of detail of the log
* `Settings.ofValue` — the settings of a configuration
* `Settings.ofDocument` — the settings of the text of a configuration
* `levelNumber` — the number of a level of detail
-/

namespace Monody.Config

/-- The levels of detail of a log. -/
def levels : List (String × Nat) :=
  [("CRITICAL", 50), ("FATAL", 50), ("ERROR", 40), ("WARN", 30), ("WARNING", 30), ("INFO", 20),
    ("DEBUG", 10), ("NOTSET", 0)]

/-- The number of a level that is named in letters of either case. -/
def level? (name : List Char) : Option Nat := levels.lookup (String.ofList (Text.upper name))

/-- Settings of an application. -/
structure Settings where
  /-- The device to play on, if any is named. -/
  device : Value
  bpm : Binary64
  /-- The ticks in a beat of a file. -/
  resolution : Int
  speed : Binary64
  instrument : Instrument
  volume : Binary64
  /-- The level of detail of the log. -/
  level : List Char

/-- A value that cannot be converted. -/
inductive ConversionFault where
  /-- No instrument has the name. -/
  | instrument (fault : Instrument.Unknown)
  /-- The text is no decimal numeral. -/
  | realText (text : List Char)
  /-- A value of this kind is no real. -/
  | realKind (kind : String)
  /-- The text is no integer numeral. -/
  | integerText (fault : Text.IntegerFault)
  /-- A value of this kind is no integer. -/
  | integerKind (kind : String)
  /-- The number has no result. -/
  | number (fault : Number.Fault)
  /-- A whole number has too many digits to be shown. -/
  | notShown
  deriving DecidableEq, Repr

/-- The message of a fault. -/
def ConversionFault.message : ConversionFault → String
  | .instrument fault => fault.message
  | .realText cs => "could not convert string to float: " ++ String.ofList (Text.quote cs)
  | .realKind kind => s!"float() argument must be a string or a real number, not '{kind}'"
  | .integerText fault => fault.message
  | .integerKind kind =>
    s!"int() argument must be a string, a bytes-like object or a real number, not '{kind}'"
  | .number fault => fault.message
  | .notShown => Text.unshownMessage

/-- Why there are no settings. -/
inductive SettingsFault where
  /-- The document of a file cannot be read. -/
  | unreadable (file : String)
  /-- The configuration is no mapping. -/
  | root
  /-- A section is no mapping. -/
  | sectionKind (name : String)
  /-- A value cannot be converted. -/
  | value (fault : ConversionFault)
  /-- A number is beyond the range of what it is converted to. -/
  | range (fault : Number.Fault)
  /-- A setting is zero or negative. -/
  | notPositive (name : String)
  /-- The volume is not between 0 and 1. -/
  | volume
  /-- There is no such level. -/
  | level (name : List Char)
  deriving DecidableEq, Repr

/-- The message of a fault. -/
def SettingsFault.message : SettingsFault → String
  | .unreadable file => "Could not parse " ++ file
  | .root => "Config root must be a mapping"
  | .sectionKind name => s!"Config section '{name}' must be a mapping"
  | .value fault => "Invalid config value: " ++ fault.message
  | .range fault => fault.message
  | .notPositive name => name ++ " must be positive"
  | .volume => "playback.volume must be between 0 and 1"
  | .level name => "Unknown logging.level: " ++ String.ofList (Text.quote name)

/-- The fault of a conversion: a number out of range has one of its own. -/
def SettingsFault.ofConversion : ConversionFault → SettingsFault
  | .number .infinite => .range .infinite
  | .number .tooLarge => .range .tooLarge
  | fault => .value fault

namespace Settings

/-- The settings of an empty configuration. -/
def default : Settings where
  device := .null
  bpm := .ofInt Midi.defaultBpm
  resolution := Midi.defaultResolution
  speed := 1
  instrument := .piano
  volume := 1
  level := "INFO".toList

/-- Settings whose values are in range. -/
def checked (s : Settings) : Except SettingsFault Settings := do
  require (¬ s.bpm ≤ 0) (.notPositive "midi.bpm")
  require (¬ s.resolution ≤ 0) (.notPositive "midi.ticks_per_beat")
  require (¬ s.speed ≤ 0) (.notPositive "playback.speed")
  require (0 ≤ s.volume ∧ s.volume ≤ 1) .volume
  require ((level? s.level).isSome = true) (.level s.level)
  return s

/-- The entries of a section, which are none where its value stands for nothing. -/
def sectionOf (entries : List (List Char × Value)) (name : String) :
    Except SettingsFault (List (List Char × Value)) :=
  match Value.lookup name.toList entries with
  | none => .ok []
  | some v =>
    if v.isVoid then .ok []
    else match v with
      | .mapping entries => .ok entries
      | _ => .error (.sectionKind name)

/-- A value as a real. -/
def toReal : Value → Except ConversionFault Binary64
  | .bool b => .ok (if b then 1 else 0)
  | .number n => n.toReal.mapError .number
  | .text cs =>
    match Text.readReal? cs with
    | some x => .ok x
    | none => .error (.realText cs)
  | v => .error (.realKind v.kind)

/-- A value as an integer. A real is cut at its point. -/
def toInteger : Value → Except ConversionFault Int
  | .bool b => .ok (if b then 1 else 0)
  | .number (.whole n) => .ok n
  | .number (.real x) => (Number.truncate x).mapError .number
  | .text cs => (Text.readInteger cs).mapError .integerText
  | v => .error (.integerKind v.kind)

/-- The value of a key as a real, or a default. -/
def realOf (entries : List (List Char × Value)) (key : String) (default : Binary64) :
    Except ConversionFault Binary64 :=
  match Value.lookup key.toList entries with
  | none => .ok default
  | some v => toReal v

/-- The value of a key as an integer, or a default. -/
def integerOf (entries : List (List Char × Value)) (key : String) (default : Int) :
    Except ConversionFault Int :=
  match Value.lookup key.toList entries with
  | none => .ok default
  | some v => toInteger v

/-- A value as a text. -/
def toText (v : Value) : Except ConversionFault (List Char) :=
  match v.display? with
  | some cs => .ok cs
  | none => .error .notShown

/-- The value of a key as a text, or a default. -/
def textOf (entries : List (List Char × Value)) (key : String) (default : List Char) :
    Except ConversionFault (List Char) :=
  match Value.lookup key.toList entries with
  | none => .ok default
  | some v => toText v

/-- The instrument that the entries name, or the default if they name none. -/
def instrumentOf (entries : List (List Char × Value)) : Except ConversionFault Instrument :=
  match Value.lookup "instrument".toList entries with
  | none | some .null => .ok default.instrument
  | some v => do (Instrument.ofName (← toText v)).mapError .instrument

/-- The settings of the sections, before they are checked. -/
def ofSections (midi playback logging : List (List Char × Value)) :
    Except ConversionFault Settings := do
  let instrument ← instrumentOf playback
  return {
    device := (Value.lookup "output_device".toList midi).getD default.device
    bpm := ← realOf midi "bpm" default.bpm
    resolution := ← integerOf midi "ticks_per_beat" default.resolution
    speed := ← realOf playback "speed" default.speed
    instrument
    volume := ← realOf playback "volume" default.volume
    level := ← textOf logging "level" default.level }

/-- The settings of a configuration. -/
def ofValue : Value → Except SettingsFault Settings
  | .mapping entries => do
    let midi ← sectionOf entries "midi"
    let playback ← sectionOf entries "playback"
    let logging ← sectionOf entries "logging"
    checked (← (ofSections midi playback logging).mapError .ofConversion)
  | _ => .error .root

/-- The settings of the text of a file. A text that stands for nothing has the default settings. -/
def ofDocument (file : String) (cs : List Char) : Except SettingsFault Settings :=
  match readDocument cs with
  | none => .error (.unreadable file)
  | some v => if v.isVoid then ofValue (.mapping []) else ofValue v

/-- The number of the level of detail of settings that name it. -/
def levelNumber (name : List Char) : Except SettingsFault Nat := do
  let s ← checked { default with level := name }
  return (level? s.level).getD 0

end Settings

end Monody.Config
