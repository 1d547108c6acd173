/-!
# MIDI messages

The channel messages that are played and written to files, and the bytes they are sent as. A channel
is one of sixteen and every data byte has seven bits; a message is built from integers only where
they are in range.

## Main definitions

* `Message` — note on, note off, program change and control change
* `Message.ofNoteOn`, `Message.ofNoteOff`, `Message.ofProgram` — messages of integers
* `Message.bytes` — a status byte and the data bytes
-/

namespace Monody.Midi

/-- One of the sixteen channels, counted from zero. -/
abbrev Channel := Fin 16

/-- A value of seven bits. -/
abbrev Data := Fin 128

/-- What is sent on a channel. -/
inductive Message where
  | noteOff (channel : Channel) (note velocity : Data)
  | noteOn (channel : Channel) (note velocity : Data)
  | control (channel : Channel) (controller value : Data)
  | program (channel : Channel) (program : Data)
  deriving DecidableEq, Repr

/-- Why a message cannot be built from integers. -/
inductive Message.Fault where
  /-- There is no such channel. -/
  | channel
  /-- The value has more than seven bits or is negative. -/
  | data
  deriving DecidableEq, Repr

/-- The message of a fault. -/
def Message.Fault.message : Message.Fault → String
  | .channel => "channel must be in range 0..15"
  | .data => "data byte must be in range 0..127"

namespace Channel

/-- The channel of an integer. -/
def ofInt (n : Int) : Except Message.Fault Channel :=
  if h : 0 ≤ n ∧ n < 16 then .ok ⟨n.toNat, by omega⟩ else .error .channel

end Channel

namespace Data

/-- The seven-bit value of an integer. -/
def ofInt (n : Int) : Except Message.Fault Data :=
  if h : 0 ≤ n ∧ n < 128 then .ok ⟨n.toNat, by omega⟩ else .error .data

/-- The value zero. -/
def zero : Data := ⟨0, by decide⟩

end Data

namespace Message

/-- The channel that a message is sent on. -/
def channel : Message → Channel
  | noteOff c .. | noteOn c .. | control c .. | program c _ => c

/-- A status byte: the kind of message in the high half, the channel in the low half. -/
def statusByte (kind : Nat) (c : Channel) : UInt8 := .ofNat (16 * kind + c.val)

/-- A data byte. -/
def dataByte (d : Data) : UInt8 := .ofNat d.val

/-- The status byte of a message. -/
def status : Message → UInt8
  | noteOff c .. => statusByte 8 c
  | noteOn c .. => statusByte 9 c
  | control c .. => statusByte 11 c
  | program c _ => statusByte 12 c

/-- The data bytes of a message. -/
def data : Message → List UInt8
  | noteOff _ n v | noteOn _ n v => [dataByte n, dataByte v]
  | control _ n v => [dataByte n, dataByte v]
  | program _ p => [dataByte p]

/-- The bytes that a message is sent as. -/
def bytes (m : Message) : List UInt8 := m.status :: m.data

/-- The message of a channel and a value given as integers. The channel is checked first. -/
def ofInts (build : Channel → Data → Message) (channel value : Int) : Except Fault Message := do
  let c ← Channel.ofInt channel
  return build c (← Data.ofInt value)

/-- The note off of a channel and note given as integers. -/
def ofNoteOff (channel note : Int) : Except Fault Message := ofInts (noteOff · · Data.zero) channel note

/-- The note on of a channel and note given as integers. -/
def ofNoteOn (channel note : Int) (velocity : Data) : Except Fault Message :=
  ofInts (noteOn · · velocity) channel note

/-- The program change of a channel and program given as integers. -/
def ofProgram (channel number : Int) : Except Fault Message := ofInts program channel number

end Message

end Monody.Midi
