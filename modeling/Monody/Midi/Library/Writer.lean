import Monody.Midi.Library.Quantity
import Monody.Midi.Library.Track
import Monody.Number
import Monody.Outcome
import Monody.Text.Quoted

/-!
# Writing files

A file of several tracks that run side by side is a header chunk and a chunk for each track. A
message with the status byte of the message before it leaves the byte out. Names are written with
one byte to the character, so a name with any character beyond U+00FF has no written form.

## Main definitions

* `WriteFault` — why tracks cannot be written
* `writeTrack` — the bytes of the events of a track
* `writeFile` — the bytes of a file
-/

namespace Monody.Midi

/-- The numbers that a header states: those of the header of a file have sixteen bits and a sign, and
the length in the header of a chunk has thirty-two bits. -/
inductive HeaderField where
  | number
  | length
  deriving DecidableEq, Repr

/-- Why tracks cannot be written. -/
inductive WriteFault where
  /-- A number of a header has more bits than its field. -/
  | headerRange {field : HeaderField}
  /-- A number of the header has more than sixty-four bits. -/
  | headerWord
  /-- The resolution is not a whole number. -/
  | headerReal
  /-- An event comes before the one it follows. -/
  | negativeDelta
  /-- A name has characters of more than one byte: where the first of them stands, and how many
  of them follow one another from there, of which `first` is one. -/
  | wideName (first : Char) (position count : Nat)
  deriving DecidableEq, Repr

/-- The message of a fault. -/
def WriteFault.message : WriteFault → String
  | @headerRange .number => "'h' format requires -32768 <= number <= 32767"
  | @headerRange .length => "'L' format requires 0 <= number <= 4294967295"
  | .headerWord => "argument out of range"
  | .headerReal => "required argument is not an integer"
  | .negativeDelta => "message time must be non-negative in MIDI file"
  | .wideName first position count =>
    let shown := if count = 1
      then "character '" ++ String.ofList (Text.escapePoint first) ++ s!"' in position {position}"
      else s!"characters in position {position}-{position + count - 1}"
    "'latin-1' codec can't encode " ++ shown ++ ": ordinal not in range(256)"

/-- A character that fits in one byte. -/
def isNarrow (c : Char) : Bool := c.toNat < 256

/-- The bytes of a name, one to the character. -/
def nameBytes (text : List Char) : Except WriteFault (List UInt8) :=
  match text.dropWhile isNarrow with
  | [] => .ok (text.map fun c => .ofNat c.toNat)
  | c :: rest =>
    .error (.wideName c (text.takeWhile isNarrow).length
      (1 + (rest.takeWhile fun d => !isNarrow d).length))

/-- The bytes of a number, the highest first. -/
def bigEndianBytes : Nat → Nat → List UInt8
  | 0, _ => []
  | count + 1, n => bigEndianBytes count (n / 256) ++ [.ofNat n]

/-- The two bytes of a number of the header. -/
def headerNumber : Number → Except WriteFault (List UInt8)
  | .whole n =>
    if -32768 ≤ n ∧ n ≤ 32767 then .ok (bigEndianBytes 2 (n % 65536).toNat)
    else if -9223372036854775808 ≤ n ∧ n ≤ 9223372036854775807 then
      .error (@WriteFault.headerRange .number)
    else .error .headerWord
  | .real _ => .error .headerReal

/-- The bytes of a meta event of a kind with some data. -/
def metaBytes (kind : UInt8) (data : List UInt8) : List UInt8 :=
  0xff :: kind :: (writeQuantity data.length ++ data)

/-- The bytes of an event after its delta time, and the status byte that the next one may leave out;
`status` is the one that this one may leave out. -/
def eventBytes (status : Option UInt8) :
    TrackEvent → Except WriteFault (List UInt8 × Option UInt8)
  | .message m =>
    .ok (if status = some m.status then m.data else m.bytes, some m.status)
  | .name text => (nameBytes text).map fun data => (metaBytes 0x03 data, none)
  | .tempo microseconds => .ok (metaBytes 0x51 (bigEndianBytes 3 microseconds), none)
  | .other => .ok (metaBytes 0x01 [], none)

/-- The event that ends every track. -/
def endOfTrack : List UInt8 := 0 :: metaBytes 0x2f []

/-- The bytes of events after one whose status byte may be left out. -/
def writeEvents (status : Option UInt8) : Track → Except WriteFault (List UInt8)
  | [] => .ok endOfTrack
  | ⟨delta, event⟩ :: rest => do
    require (0 ≤ delta) .negativeDelta
    let (bytes, status) ← eventBytes status event
    return writeQuantity delta.toNat ++ bytes ++ (← writeEvents status rest)

/-- A chunk: its name of four letters, the length of its data, and the data. -/
def chunk (name data : List UInt8) : List UInt8 := name ++ bigEndianBytes 4 data.length ++ data

/-- The length of the data of the longest chunk. -/
def greatestChunk : Nat := 4294967295

/-- The chunk of a track, if its data is not too long. -/
def writeTrack (t : Track) : Except WriteFault (List UInt8) := do
  let data ← writeEvents none t
  require (data.length ≤ greatestChunk) (@WriteFault.headerRange .length)
  return chunk trackName data

/-- The file of tracks that run side by side. -/
def writeFile (resolution : Number) (tracks : List Track) : Except WriteFault (List UInt8) := do
  let count ← headerNumber (.whole tracks.length)
  let header := bigEndianBytes 2 1 ++ count ++ (← headerNumber resolution)
  return chunk headerName header ++ (← tracks.mapM writeTrack).flatten

end Monody.Midi
