import Monody.Binary64.Decimal
import Monody.Text.Blank
import Monody.Text.DecimalDigit
import Monody.Text.Quoted

/-!
# Numerals in configuration values

A value given as text is read as a number with some leniency: white space around it, a sign, single
underscores between digits, and decimal digits of any script.

## Main definitions

* `isShown` — an integer of at most `integerPlaces` digits
* `readInteger` — a whole number of at most `integerPlaces` digits
* `readReal?` — a decimal with an optional exponent, or the name of a number that is not finite
-/

namespace Monody.Text

/-- The longest integer numeral that is read or shown, in digits. -/
def integerPlaces : Nat := 4300

/-- Whether an integer has few enough digits to be shown in a text. -/
def isShown (n : Int) : Bool := (toString n.natAbs).length ≤ integerPlaces

/-- The message for an integer that has too many digits to be shown. -/
def unshownMessage : String :=
  s!"Exceeds the limit ({integerPlaces} digits) for integer string conversion; "
    ++ "use sys.set_int_max_str_digits() to increase the limit"

/-- Why an integer numeral is refused. -/
inductive IntegerFault where
  /-- The text is no integer numeral. -/
  | malformed (text : List Char)
  /-- The numeral has more digits than are read. -/
  | tooLong (digits : Nat)
  deriving DecidableEq, Repr

/-- The message of a refusal. The offending text is shown quoted, up to 200 characters. -/
def IntegerFault.message : IntegerFault → String
  | .malformed cs =>
    "invalid literal for int() with base 10: " ++ String.ofList ((quote cs).take 200)
  | .tooLong n =>
    s!"Exceeds the limit ({integerPlaces} digits) for integer string conversion: value has {n} "
      ++ "digits; use sys.set_int_max_str_digits() to increase the limit"

/-- White space that may stand around a numeral: the blanks except the information separators. -/
def isMargin (c : Char) : Bool := isBlank c && !(0x1c ≤ c.toNat && c.toNat ≤ 0x1f)

/-- A text without the white space around it. -/
def trimMargin (cs : List Char) : List Char :=
  ((cs.dropWhile isMargin).reverse.dropWhile isMargin).reverse

/-- An optional sign: whether it is a minus, and what follows. -/
def splitSign : List Char → Bool × List Char
  | '-' :: cs => (true, cs)
  | '+' :: cs => (false, cs)
  | cs => (false, cs)

/-- The leading run of digits with underscores between them: the digits, whether every underscore
stands between two digits, and what follows. -/
def digitRun (cs : List Char) : List Char × Bool × List Char :=
  let run := cs.takeWhile fun c => isDigit c || c == '_'
  let rest := cs.dropWhile fun c => isDigit c || c == '_'
  let wellPlaced := run.head? != some '_' && run.getLast? != some '_' &&
    !(run.zip run.tail).any fun p => p.1 == '_' && p.2 == '_'
  (run.filter isDigit, wellPlaced, rest)

/-- The integer that a text writes. -/
def readInteger (cs : List Char) : Except IntegerFault Int :=
  let (negative, body) := splitSign (trimMargin cs)
  let (digits, wellPlaced, rest) := digitRun body
  if digits.isEmpty || !wellPlaced then .error (.malformed cs)
  else if integerPlaces < digits.length then .error (.tooLong digits.length)
  else if !rest.isEmpty then .error (.malformed cs)
  else .ok (if negative then -(digitsValue digits : Int) else digitsValue digits)

/-- An optional exponent at the end of a numeral. -/
def readExponent? : List Char → Option Int
  | [] => some 0
  | c :: cs =>
    if c = 'e' ∨ c = 'E' then
      let (negative, body) := splitSign cs
      match digitRun body with
      | (digits, true, []) =>
        if digits.isEmpty then none
        else some (if negative then -(digitsValue digits : Int) else digitsValue digits)
      | _ => none
    else none

/-- A decimal numeral without its sign: digits with an optional point, then an optional exponent.
At least one digit stands before or after the point. -/
def readMagnitude? (cs : List Char) : Option Decimal :=
  let (whole, wholePlaced, rest) := digitRun cs
  let (part, partPlaced, rest) := match rest with
    | '.' :: rest => digitRun rest
    | _ => ([], true, rest)
  if (whole.isEmpty && part.isEmpty) || !wholePlaced || !partPlaced then none
  else (readExponent? rest).map fun e => ⟨digitsValue (whole ++ part), e - part.length⟩

/-- The binary64 number nearest to the decimal that a text writes. -/
def readReal? (cs : List Char) : Option Binary64 :=
  let (negative, body) := splitSign (trimMargin cs)
  let word := String.ofList (body.map Char.toLower)
  if word = "inf" ∨ word = "infinity" then some (.infinite negative)
  else if word = "nan" then some .nan
  else (readMagnitude? body).map (Binary64.ofDecimal negative)

end Monody.Text
