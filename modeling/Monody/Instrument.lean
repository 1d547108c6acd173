import Monody.Binary64.Decimal
import Monody.Midi.Library
import Monody.Text.Blank
import Monody.Text.Quoted

/-!
# Instruments

A voice is played by one of eight instruments. Each is a General MIDI program with two parameters of
its own: how hard a note is struck at full volume, and how much of its written duration sounds.

## Main definitions

* `Instrument` — the eight instruments
* `Instrument.ofName` — the instrument that a configuration names
* `Instrument.ofProgram` — the instrument nearest to a program number
-/

namespace Monody

/-- What a voice is played by. -/
inductive Instrument where
  | piano | organ | guitar | bass | violin | flute | trumpet | synthLead
  deriving DecidableEq, Repr, Inhabited

namespace Instrument

/-- The instruments in the order of their table. -/
def all : List Instrument := [piano, organ, guitar, bass, violin, flute, trumpet, synthLead]

/-- The name of an instrument. -/
def name : Instrument → String
  | piano => "piano"
  | organ => "organ"
  | guitar => "guitar"
  | bass => "bass"
  | violin => "violin"
  | flute => "flute"
  | trumpet => "trumpet"
  | synthLead => "synth_lead"

/-- The General MIDI program of an instrument. -/
def program : Instrument → Midi.Data
  | piano => .zero
  | organ => ⟨19, by decide⟩
  | guitar => ⟨24, by decide⟩
  | bass => ⟨33, by decide⟩
  | violin => ⟨40, by decide⟩
  | flute => ⟨73, by decide⟩
  | trumpet => ⟨56, by decide⟩
  | synthLead => ⟨80, by decide⟩

/-- How hard a note is struck at full volume. -/
def velocity : Instrument → Nat
  | piano => 100
  | organ => 90
  | guitar => 96
  | bass => 110
  | violin => 88
  | flute => 84
  | trumpet => 104
  | synthLead => 100

/-- The part of a written duration that sounds, so that repeated notes stay apart. -/
def gate : Instrument → Binary64
  | piano | flute => .ofDecimal false ⟨95, -2⟩
  | organ | violin => 1
  | guitar | bass | trumpet => .ofDecimal false ⟨9, -1⟩
  | synthLead => .ofDecimal false ⟨85, -2⟩

/-- No instrument has the name. -/
structure Unknown where
  name : List Char
  deriving DecidableEq, Repr

/-- The message of an unknown name. -/
def Unknown.message (u : Unknown) : String :=
  "Unknown instrument: " ++ String.ofList (Text.quote u.name) ++ ". Expected one of "
    ++ String.ofList (Text.quoteList (all.map (·.name.toList)))

/-- A name without the white space around it, in lower case, and with underscores for spaces and
hyphens. Only ASCII letters change case, for no other character has an instrument letter as its
lower case. -/
def key (cs : List Char) : List Char :=
  let core := ((cs.dropWhile Text.isBlank).reverse.dropWhile Text.isBlank).reverse
  core.map fun c => if c = ' ' ∨ c = '-' then '_' else c.toLower

/-- The instrument of a name. -/
def ofName (cs : List Char) : Except Unknown Instrument :=
  match all.find? fun i => i.name.toList == key cs with
  | some i => .ok i
  | none => .error ⟨cs⟩

/-- The instrument for a family of eight programs; a piano stands in for families without one. -/
def ofFamily : Int → Instrument
  | 2 => organ
  | 3 => guitar
  | 4 => bass
  | 5 => violin
  | 7 => trumpet
  | 9 => flute
  | 10 => synthLead
  | _ => piano

/-- The instrument nearest to a program number: the one with that program, or else the one for its
family. -/
def ofProgram (n : Int) : Instrument :=
  (all.find? fun i => (i.program.val : Int) = n).getD (ofFamily (n.fdiv 8))

end Instrument

end Monody
