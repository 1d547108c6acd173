import Monody.Midi.Library.Meta
import Monody.Midi.Library.Quantity
import Monody.Outcome

/-!
# Reading files

A file is a header chunk and track chunks. A track is read event by event and ends where exactly as
many bytes have been read as its chunk states; a statement that no event ends at is read past.

A status byte is left out where it is the same as the last one, which any status but that of a meta
event can be.

## Main definitions

* `ReadFault` — why bytes are no file
* `readEvent` — one event of a track
* `readFile` — a whole file
-/

namespace Monody.Midi

/-- Why bytes are no file. -/
inductive ReadFault where
  /-- The bytes end too early. -/
  | ended
  /-- The file does not begin with a header chunk. -/
  | noHeader
  /-- A track does not begin with a track chunk. -/
  | noTrack
  /-- A status byte is left out before there was any. -/
  | noStatus
  /-- The data of an event is longer than any is read. -/
  | tooLong (length : Nat)
  /-- No message has the status byte. -/
  | undefinedStatus (status : UInt8)
  /-- A data byte has its high bit set. -/
  | highData
  /-- A message without data follows on a status that is left out. -/
  | strayData (kind : String)
  /-- The data of a meta event is refused. -/
  | content (fault : MetaFault)
  deriving DecidableEq, Repr

/-- The message of a fault. -/
def ReadFault.message : ReadFault → String
  | .ended => ""
  | .noHeader => "MThd not found. Probably not a MIDI file"
  | .noTrack => "no MTrk header at start of track"
  | .noStatus => "running status without last_status"
  | .tooLong length => s!"Message length {length} exceeds maximum length 1000000"
  | .undefinedStatus status =>
    "undefined status byte 0x" ++ String.ofList (Nat.toDigits 16 status.toNat)
  | .highData => "data byte must be in range 0..127"
  | .strayData kind => s!"wrong number of bytes for {kind} message"
  | .content fault => fault.message

/-- The greatest length of data that is read. -/
def greatestLength : Nat := 1000000

/-- A number of bytes from the front, and the bytes after them. -/
def readBytes (count : Nat) (bytes : List UInt8) : Except ReadFault (List UInt8 × List UInt8) :=
  if greatestLength < count then .error (.tooLong count)
  else if bytes.length < count then .error .ended
  else .ok (bytes.splitAt count)

/-- A quantity and as many bytes as it says, and the bytes after them. -/
def readBlock (bytes : List UInt8) : Except ReadFault (List UInt8 × List UInt8) :=
  match readQuantity bytes with
  | none => .error .ended
  | some (length, rest) => readBytes length rest

/-- The data of a system exclusive event without the status bytes that may stand around it. -/
def exclusiveData (data : List UInt8) : List UInt8 :=
  let data := if data.head? = some 0xf0 then data.tail else data
  if data.getLast? = some 0xf7 then data.dropLast else data

/-- All bytes have seven bits. -/
def requireLow (data : List UInt8) : Except ReadFault Unit :=
  require (data.all (· < 128) = true) .highData

/-- The number of data bytes after a status byte. -/
def dataCount (status : UInt8) : Except ReadFault Nat :=
  if status < 0xc0 then .ok 2
  else if status < 0xe0 then .ok 1
  else if status < 0xf0 then .ok 2
  else match status.toNat with
    | 0xf1 | 0xf3 => .ok 1
    | 0xf2 => .ok 2
    | 0xf6 | 0xf8 | 0xfa | 0xfb | 0xfc | 0xfe => .ok 0
    | _ => .error (.undefinedStatus status)

/-- The name of a message without data. -/
def emptyMessageName (status : UInt8) : String :=
  match status.toNat with
  | 0xf6 => "tune_request"
  | 0xf8 => "clock"
  | 0xfa => "start"
  | 0xfb => "continue"
  | 0xfc => "stop"
  | _ => "active_sensing"

/-- The seven low bits of a byte. -/
def lowBits (b : UInt8) : Data := ⟨b.toNat % 128, Nat.mod_lt _ (by decide)⟩

/-- The channel of a status byte. -/
def statusChannel (status : UInt8) : Channel := ⟨status.toNat % 16, Nat.mod_lt _ (by decide)⟩

/-- The event of a status byte with its data bytes. -/
def eventOfData (status : UInt8) (data : List UInt8) : TrackEvent :=
  let channel := statusChannel status
  match status.toNat / 16, data with
  | 8, [note, velocity] => .message (.noteOff channel (lowBits note) (lowBits velocity))
  | 9, [note, velocity] => .message (.noteOn channel (lowBits note) (lowBits velocity))
  | 11, [number, value] => .message (.control channel (lowBits number) (lowBits value))
  | 12, [number] => .message (.program channel (lowBits number))
  | _, _ => .other

/-- A message whose status byte is known, with the data byte that was read in its place, if any. -/
def readMessage (status : UInt8) (first : Option UInt8) (bytes : List UInt8) :
    Except ReadFault (TrackEvent × List UInt8) := do
  let count ← dataCount status
  require (count ≠ 0 ∨ first = none) (.strayData (emptyMessageName status))
  let (data, rest) ← readBytes (count - first.toList.length) bytes
  let data := first.toList ++ data
  requireLow data
  return (eventOfData status data, rest)

/-- An event with the status byte that may be left out after it, and the bytes after it. -/
structure ReadEvent where
  event : TimedEvent
  status : Option UInt8
  rest : List UInt8

/-- A meta event after its status byte. One of no known kind takes no time. -/
def readMeta (delta : Nat) (status : Option UInt8) :
    List UInt8 → Except ReadFault ReadEvent
  | [] => .error .ended
  | kind :: bytes => do
    let (data, rest) ← readBlock bytes
    match metaEvent? kind data with
    | none => return ⟨⟨0, .other⟩, status, rest⟩
    | some event => return ⟨⟨delta, ← event.mapError .content⟩, status, rest⟩

/-- An event after its delta time and its status byte, with the byte read in place of the status, if
it was left out. -/
def readBody (delta : Nat) (status : UInt8) (first : Option UInt8) (bytes : List UInt8) :
    Except ReadFault ReadEvent := do
  if status = 0xf0 ∨ status = 0xf7 then
    let (data, rest) ← readBlock bytes
    requireLow (exclusiveData data)
    return ⟨⟨delta, .other⟩, some status, rest⟩
  else
    let (event, rest) ← readMessage status first bytes
    return ⟨⟨delta, event⟩, some status, rest⟩

/-- One event of a track. -/
def readEvent (status : Option UInt8) (bytes : List UInt8) : Except ReadFault ReadEvent :=
  match readQuantity bytes with
  | none | some (_, []) => .error .ended
  | some (delta, b :: rest) =>
    if b = 0xff then readMeta delta status rest
    else if 128 ≤ b then readBody delta b none rest
    else match status with
      | none => .error .noStatus
      | some status => readBody delta status (some b) rest

theorem length_le_of_readBytes {count : Nat} {bytes : List UInt8} {p : List UInt8 × List UInt8}
    (h : readBytes count bytes = .ok p) : p.2.length ≤ bytes.length := by
  simp only [readBytes] at h
  split at h
  · simp at h
  split at h
  · simp at h
  · cases h; simp [List.splitAt_eq]

theorem length_le_of_readBlock {bytes : List UInt8} {p : List UInt8 × List UInt8}
    (h : readBlock bytes = .ok p) : p.2.length ≤ bytes.length := by
  simp only [readBlock] at h
  split at h
  · simp at h
  · rename_i hq
    exact Nat.le_trans (length_le_of_readBytes h) (Nat.le_of_lt (length_lt_of_readQuantity hq))

theorem length_le_of_readMessage {status : UInt8} {first : Option UInt8} {bytes : List UInt8}
    {p : TrackEvent × List UInt8} (h : readMessage status first bytes = .ok p) :
    p.2.length ≤ bytes.length := by
  obtain ⟨count, _, h⟩ := exists_of_bind_eq_ok h
  obtain ⟨_, _, h⟩ := exists_of_bind_eq_ok h
  obtain ⟨⟨data, rest⟩, hread, h⟩ := exists_of_bind_eq_ok h
  obtain ⟨_, _, h⟩ := exists_of_bind_eq_ok h
  cases h
  exact length_le_of_readBytes hread

theorem length_le_of_readMeta {delta : Nat} {status : Option UInt8} {bytes : List UInt8}
    {e : ReadEvent} (h : readMeta delta status bytes = .ok e) : e.rest.length ≤ bytes.length := by
  cases bytes with
  | nil => cases h
  | cons kind bytes =>
    obtain ⟨⟨data, rest⟩, hread, h⟩ := exists_of_bind_eq_ok h
    have hle := Nat.le_succ_of_le (length_le_of_readBlock hread)
    dsimp only at h
    split at h
    · cases h; exact hle
    · obtain ⟨_, _, h⟩ := exists_of_bind_eq_ok h
      cases h; exact hle

theorem length_le_of_readBody {delta : Nat} {status : UInt8} {first : Option UInt8}
    {bytes : List UInt8} {e : ReadEvent} (h : readBody delta status first bytes = .ok e) :
    e.rest.length ≤ bytes.length := by
  simp only [readBody] at h
  split at h
  · obtain ⟨⟨data, rest⟩, hread, h⟩ := exists_of_bind_eq_ok h
    obtain ⟨_, _, h⟩ := exists_of_bind_eq_ok h
    cases h
    exact length_le_of_readBlock hread
  · obtain ⟨⟨event, rest⟩, hread, h⟩ := exists_of_bind_eq_ok h
    cases h
    exact length_le_of_readMessage hread

/-- An event takes at least one byte. -/
theorem length_lt_of_readEvent {status : Option UInt8} {bytes : List UInt8} {e : ReadEvent}
    (h : readEvent status bytes = .ok e) : e.rest.length < bytes.length := by
  simp only [readEvent] at h
  split at h
  · cases h
  · cases h
  · rename_i delta b rest hq
    have hlt : rest.length + 1 < bytes.length := length_lt_of_readQuantity hq
    have hle : e.rest.length ≤ rest.length := by
      repeat' split at h
      · exact length_le_of_readMeta h
      · exact length_le_of_readBody h
      · cases h
      · exact length_le_of_readBody h
    omega

/-- The events of a track and the bytes after it. The track ends where `stop` bytes are left. -/
def readEvents (stop : Int) (status : Option UInt8) (bytes : List UInt8) :
    Except ReadFault (Track × List UInt8) :=
  if (bytes.length : Int) = stop then .ok ([], bytes)
  else match h : readEvent status bytes with
    | .error fault => .error fault
    | .ok e => do
      have := length_lt_of_readEvent h
      let (track, rest) ← readEvents stop e.status e.rest
      return (e.event :: track, rest)
termination_by bytes.length

/-- The number that bytes stand for, the highest first. -/
def bigEndian (bytes : List UInt8) : Nat := bytes.foldl (fun n b => 256 * n + b.toNat) 0

/-- The signed number of two bytes. -/
def signed16 (bytes : List UInt8) : Int := (bigEndian bytes : Int).bmod 65536

/-- The name of a chunk, its size, and the bytes after its header. -/
def readChunk (bytes : List UInt8) : Except ReadFault (List UInt8 × Nat × List UInt8) :=
  if bytes.length < 8 then .error .ended
  else .ok (bytes.take 4, bigEndian ((bytes.drop 4).take 4), bytes.drop 8)

/-- A track chunk, and the bytes after its last event. -/
def readTrack (bytes : List UInt8) : Except ReadFault (Track × List UInt8) := do
  let (name, size, body) ← readChunk bytes
  require (name = trackName) .noTrack
  readEvents (body.length - size) none body

/-- A number of track chunks one after another. -/
def readTracks : Nat → List UInt8 → Except ReadFault (List Track)
  | 0, _ => .ok []
  | count + 1, bytes => do
    let (track, rest) ← readTrack bytes
    return track :: (← readTracks count rest)

/-- The tracks of a file. The header states their number, and the file's resolution, in its first
six bytes; it may be longer than that. -/
def readFile (bytes : List UInt8) : Except ReadFault File := do
  let (name, size, body) ← readChunk bytes
  require (name = headerName) .noHeader
  let header := body.take size
  require (6 ≤ header.length) .ended
  let count := signed16 ((header.drop 2).take 2)
  let resolution := signed16 ((header.drop 4).take 2)
  return ⟨resolution, ← readTracks count.toNat (body.drop size)⟩

end Monody.Midi
