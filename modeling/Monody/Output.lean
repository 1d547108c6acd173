import Monody.Midi.Channel

/-!
# Outputs

An output sends messages over a connection and remembers which notes it has started and not
released, so that exactly those can be silenced. Without a connection nothing is sent. A connection
may fail to deliver; the output takes no notice of that.

A message is built from integers after the output has noted what it is about, so an integer that is
out of range leaves its mark although nothing is sent.

## Main definitions

* `Output` — a connection and the notes that sound
* `Output.Effect` — what a call leads to: an output, what was sent, and possibly a fault
* `programChange`, `noteOn`, `noteOff`, `releaseAll`, `panic`, `close` — the calls
-/

namespace Monody

/-- A way to send messages to a device. -/
structure Connection where
  /-- Whether what is sent gets lost. -/
  failing : Bool
  deriving DecidableEq, Repr

/-- A connection and the notes that sound. -/
structure Output where
  connection : Option Connection
  /-- The name of the device at its other end. -/
  device : Option (List Char)
  /-- The notes that were started and not released, each a channel and a note. -/
  active : List (Int × Int)
  deriving DecidableEq, Repr

namespace Output

/-- What goes over a connection. -/
inductive Signal where
  | message (m : Midi.Message)
  | closed
  deriving DecidableEq, Repr

/-- What a call leads to. -/
structure Effect where
  output : Output
  /-- What was sent, in order. -/
  signals : List Signal
  fault : Option Midi.Message.Fault
  deriving DecidableEq, Repr

/-- An output with a connection, or a silent one. -/
def ofConnection (connection : Option Connection) (device : Option (List Char)) : Output :=
  ⟨connection, device, []⟩

/-- Whether there is a connection. -/
def isOpen (o : Output) : Bool := o.connection.isSome

/-- The output unchanged. -/
def unchanged (o : Output) : Effect := ⟨o, [], none⟩

/-- Sends a message, if it can be built. -/
def send (o : Output) : Except Midi.Message.Fault Midi.Message → Effect
  | .ok m => ⟨o, if o.isOpen then [.message m] else [], none⟩
  | .error fault => ⟨o, [], some fault⟩

/-- One call and then another, unless the first has a fault. -/
def Effect.andThen (e : Effect) (f : Output → Effect) : Effect :=
  match e.fault with
  | some _ => e
  | none =>
    let e' := f e.output
    ⟨e'.output, e.signals ++ e'.signals, e'.fault⟩

/-- Selects the program of a channel. -/
def programChange (o : Output) (channel program : Int) : Effect :=
  o.send (Midi.Message.ofProgram channel program)

/-- Starts a note with a velocity that is brought into range; one of zero starts nothing. -/
def noteOn (o : Output) (channel note velocity : Int) : Effect :=
  let velocity := Midi.Data.clamp velocity
  if velocity = Midi.Data.zero then o.unchanged
  else { o with active := o.active.insert (channel, note) }.send
    (Midi.Message.ofNoteOn channel note velocity)

/-- Releases a note; one that does not sound is left alone. -/
def noteOff (o : Output) (channel note : Int) : Effect :=
  if (channel, note) ∈ o.active then
    { o with active := o.active.erase (channel, note) }.send (Midi.Message.ofNoteOff channel note)
  else o.unchanged

/-- The order of channels and, within a channel, of notes. -/
def pairLe (a b : Int × Int) : Bool := a.1 < b.1 || (a.1 == b.1 && a.2 ≤ b.2)

/-- The notes that sound, in order. -/
def sounding (o : Output) : List (Int × Int) := o.active.mergeSort pairLe

/-- Calls one after another, up to the first fault. -/
def sequence (o : Output) (calls : List (Output → Effect)) : Effect :=
  calls.foldl Effect.andThen o.unchanged

/-- Sends a note off for every note that sounds, and then forgets them all. -/
def releaseAll (o : Output) : Effect :=
  (o.sequence (o.sounding.map fun p o => o.send (Midi.Message.ofNoteOff p.1 p.2))).andThen
    fun o => { o with active := [] }.unchanged

/-- The controllers that silence a channel: all notes off and all sound off. -/
def silencers : List Midi.Data := [⟨123, by decide⟩, ⟨120, by decide⟩]

/-- Silences every channel. -/
def silence (o : Output) : Effect :=
  o.sequence ((List.finRange 16).flatMap fun channel =>
    silencers.map fun controller o => o.send (.ok (.control channel controller Midi.Data.zero)))

/-- Releases the notes that sound and silences every channel. -/
def panic (o : Output) : Effect := o.releaseAll.andThen silence

/-- Silences and closes the connection, if there is one. -/
def close (o : Output) : Effect :=
  if o.isOpen then
    o.panic.andThen fun o => ⟨{ o with connection := none }, [.closed], none⟩
  else o.unchanged

/-- The output whose connection fails from now on, or works again. -/
def setFailing (o : Output) (failing : Bool) : Output :=
  { o with connection := o.connection.map fun _ => ⟨failing⟩ }

end Output

end Monody
