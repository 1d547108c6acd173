import Monody.Binary64.Decimal
import Monody.Midi.Library.Track
import Monody.Outcome

/-!
# Meta events

A meta event has a kind and some data. The kinds of the standard are checked as far as their data
says something: enough bytes, and values in range. Of what they say, only names and tempi are kept.

## Main definitions

* `MetaFault` — why the data of a meta event is refused
* `metaEvent?` — the event of a kind and its data
-/

namespace Monody.Midi

/-- Why the data of a meta event is refused. -/
inductive MetaFault where
  /-- There are too few bytes. -/
  | short
  /-- The frame rate has no such code. -/
  | frameRate (code : Nat)
  /-- A value is greater than it can be. -/
  | range (greatest : Nat)
  /-- The denominator of a time signature is not found to be a power of two. -/
  | denominator
  /-- There is no such key. -/
  | key (accidentals : Int) (mode : Nat)
  deriving DecidableEq, Repr

/-- The message of a fault. -/
def MetaFault.message : MetaFault → String
  | .short => "list index out of range"
  | .frameRate code => toString code
  | .range greatest => s!"attribute must be in range 0..{greatest}"
  | .denominator => "denominator must be a power of 2"
  | .key accidentals mode =>
    let sign := if accidentals < 7 then "flats" else "sharps"
    s!"Could not decode key with {accidentals.natAbs} {sign} and mode {mode}"

/-- The byte at an index of the data. -/
def byteAt (data : List UInt8) (i : Nat) : Except MetaFault Nat :=
  match data[i]? with
  | some b => .ok b.toNat
  | none => .error .short

/-- The text of bytes that stand for one character each. -/
def latinText (data : List UInt8) : List Char := data.map fun b => Char.ofNat b.toNat

/-- The natural logarithm of two to forty decimal places. -/
def logTwo : Decimal := ⟨6931471805599453094172321214581765680755, -40⟩

/-- The binary logarithm of `2 ^ n` taken as the quotient of two rounded natural logarithms. -/
def binaryLog (n : Nat) : Binary64 :=
  Binary64.ofDecimal false ⟨n * logTwo.digits, logTwo.exponent⟩ / Binary64.ofDecimal false logTwo

/-- The data of an offset in time code: a frame rate with hours, minutes, seconds, frames and their
hundredths. -/
def checkOffset (data : List UInt8) : Except MetaFault Unit := do
  let code := (← byteAt data 0) / 32
  require (code ≤ 3) (.frameRate code)
  let checkAt (i greatest : Nat) : Except MetaFault Unit := do
    require ((← byteAt data i) ≤ greatest) (.range greatest)
  checkAt 1 59
  checkAt 2 59
  let _ ← byteAt data 3
  checkAt 4 99

/-- The data of a time signature. A denominator counts as a power of two if its computed logarithm
is a whole number. -/
def checkSignature (data : List UInt8) : Except MetaFault Unit := do
  let _ ← byteAt data 0
  require ((binaryLog (← byteAt data 1)).isWhole = true) .denominator
  let _ ← byteAt data 2
  let _ ← byteAt data 3

/-- The data of a key: up to seven flats or sharps, in one of two modes. -/
def checkKey (data : List UInt8) : Except MetaFault Unit := do
  let key := (← byteAt data 0 : Nat)
  let accidentals : Int := if key < 128 then key else key - 256
  let mode ← byteAt data 1
  require (-7 ≤ accidentals ∧ accidentals ≤ 7 ∧ mode ≤ 1) (.key accidentals mode)

/-- The event of a meta event, if its kind is one of the standard's. -/
def metaEvent? (kind : UInt8) (data : List UInt8) : Option (Except MetaFault TrackEvent) :=
  let checked (check : Except MetaFault Unit) : Option (Except MetaFault TrackEvent) :=
    some (check.map fun _ => .other)
  match kind.toNat with
  | 0x00 => checked (if data.length = 1 then .error .short else .ok ())
  | 0x03 => some (.ok (.name (latinText data)))
  | 0x01 | 0x02 | 0x04 | 0x05 | 0x06 | 0x07 | 0x09 | 0x21 | 0x2f | 0x7f => checked (.ok ())
  | 0x20 => checked (if data.isEmpty then .error .short else .ok ())
  | 0x51 => some do
    let high ← byteAt data 0
    let middle ← byteAt data 1
    return .tempo (65536 * high + 256 * middle + (← byteAt data 2))
  | 0x54 => checked (checkOffset data)
  | 0x58 => checked (checkSignature data)
  | 0x59 => checked (checkKey data)
  | _ => none

end Monody.Midi
