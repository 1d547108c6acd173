import Monody.Midi.Library

/-!
# Channels and velocities

Voices take the channels in turn, but never the one that is kept for percussion. A velocity is brought
into the range of a data byte before a message is built with it.

## Main definitions

* `Channel.ofVoice` — the channel of a voice, which is never the percussion channel
* `Data.clamp` — the data byte nearest to an integer
-/

namespace Monody.Midi

namespace Channel

/-- The channel that General MIDI keeps for percussion. -/
def percussion : Channel := ⟨9, by decide⟩

/-- The number of channels for voices. -/
def melodicCount : Nat := 15

/-- The channel of a voice. Voices take the channels in turn, without the percussion channel. -/
def ofVoice (index : Nat) : Channel :=
  have h : index % melodicCount < 15 := Nat.mod_lt _ (by decide)
  if index % melodicCount < percussion then ⟨index % melodicCount, by omega⟩
  else ⟨index % melodicCount + 1, by omega⟩

/-- No voice has a negative index. -/
inductive Fault where
  | negativeIndex
  deriving DecidableEq, Repr

/-- The message of a fault. -/
def Fault.message : Fault → String
  | .negativeIndex => "voice_index cannot be negative"

/-- The channel of a voice of any index. -/
def ofIndex : Int → Except Fault Channel
  | .ofNat index => .ok (ofVoice index)
  | .negSucc _ => .error .negativeIndex

end Channel

namespace Data

/-- The seven-bit value nearest to an integer. -/
def clamp (n : Int) : Data := ⟨min 127 n.toNat, by omega⟩

/-- A value, or one in place of zero. -/
def orOne (d : Data) : Data := if d = zero then ⟨1, by decide⟩ else d

end Data

end Monody.Midi
