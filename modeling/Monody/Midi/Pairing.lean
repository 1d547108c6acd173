import Monody.Midi.Library

/-!
# Pairing

Striking and letting go of a note are two events of a track. Where one note is struck several times
on one channel, the first stroke is the first to end. A note still held at the end of a track ends
at its last tick.

## Main definitions

* `Span` — a note with the ticks between which it is held
* `Pairing.step` — what one event does to the notes held
* `Track.spans` — the notes of a track
-/

namespace Monody.Midi

/-- A note held from one tick to another. -/
structure Span where
  start : Int
  stop : Int
  channel : Channel
  note : Data
  deriving DecidableEq, Repr

/-- The strokes of one note on one channel that have not ended, the earliest first. -/
structure HeldNote where
  channel : Channel
  note : Data
  strokes : List Int
  deriving DecidableEq, Repr

/-- The strokes held at a tick, and the spans that have ended. A note keeps the place of its first
stroke also while none of its strokes is held. -/
structure Pairing where
  tick : Int
  held : List HeldNote
  spans : List Span
  deriving DecidableEq, Repr

namespace Pairing

/-- The beginning of a track. -/
def empty : Pairing := ⟨0, [], []⟩

/-- The held notes with one more stroke. -/
def strike (channel : Channel) (note : Data) (tick : Int) : List HeldNote → List HeldNote
  | [] => [⟨channel, note, [tick]⟩]
  | h :: hs =>
    if h.channel = channel ∧ h.note = note then { h with strokes := h.strokes ++ [tick] } :: hs
    else h :: strike channel note tick hs

/-- The first stroke of a note that is held. -/
def firstStroke? (channel : Channel) (note : Data) (hs : List HeldNote) : Option Int :=
  (hs.find? fun h => h.channel = channel ∧ h.note = note).bind (·.strokes.head?)

/-- The held notes without the first stroke of one of them. -/
def letGo (channel : Channel) (note : Data) (hs : List HeldNote) : List HeldNote :=
  hs.map fun h =>
    if h.channel = channel ∧ h.note = note then { h with strokes := h.strokes.tail } else h

/-- The end of the first stroke of a note, if it is held. -/
def endStroke (p : Pairing) (channel : Channel) (note : Data) : Pairing :=
  match firstStroke? channel note p.held with
  | none => p
  | some start =>
    { p with
      held := letGo channel note p.held
      spans := p.spans ++ [⟨start, p.tick, channel, note⟩] }

/-- One event of a track. A note struck without force is let go of. -/
def step (p : Pairing) (e : TimedEvent) : Pairing :=
  let p := { p with tick := p.tick + e.delta }
  match e.event with
  | .message (.noteOn channel note velocity) =>
    if velocity = Data.zero then p.endStroke channel note
    else { p with held := strike channel note p.tick p.held }
  | .message (.noteOff channel note _) => p.endStroke channel note
  | _ => p

/-- The spans of the strokes that are still held, which end now. -/
def rest (p : Pairing) : List Span :=
  p.held.flatMap fun h => h.strokes.map fun start => ⟨start, p.tick, h.channel, h.note⟩

end Pairing

/-- The notes of a track: those let go of in the order of their ends, then those held to the end. -/
def Track.spans (t : Track) : List Span :=
  let p := t.foldl Pairing.step .empty
  p.spans ++ p.rest

end Monody.Midi
