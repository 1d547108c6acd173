import Monody.Text.Numeral

/-!
# Numbers

Speeds, volumes, tempi, times and multipliers are given as whole numbers of any size or as binary64
reals. Whole numbers are multiplied and subtracted exactly; where one meets a real it is taken to
the nearest real first, which fails beyond the range. Comparison is exact in every case.

## Main definitions

* `Number` — a whole number or a real
* `Number.Fault` — why a calculation has no result
* `Number.toReal`, `Number.mul`, `Number.sub`, `Number.order` — conversion, product, difference and
  comparison
* `floor`, `ceil`, `round`, `truncate` — reals to integers, with a fault where there is none
* `roundHalfUp`, `nearest` — the nearest integer of a real or a number, a half going up
-/

namespace Monody

/-- A whole number or a binary64 real. -/
inductive Number where
  | whole (n : Int)
  | real (x : Binary64)
  deriving DecidableEq

namespace Number

/-- Why a calculation has no result. -/
inductive Fault where
  /-- The divisor is zero. -/
  | divisionByZero
  /-- An infinite real has no nearby integer. -/
  | infinite
  /-- What is not a number has no nearby integer. -/
  | notANumber
  /-- The whole number is beyond the reals. -/
  | tooLarge
  deriving DecidableEq, Repr

/-- The message of a fault. -/
def Fault.message : Fault → String
  | .divisionByZero => "float division by zero"
  | .infinite => "cannot convert float infinity to integer"
  | .notANumber => "cannot convert float NaN to integer"
  | .tooLarge => "int too large to convert to float"

instance (n : Nat) : OfNat Number n := ⟨.whole n⟩

/-- The real nearest to a whole number. -/
def realOfInt (n : Int) : Except Fault Binary64 :=
  let x := Binary64.ofInt n
  if x.isFinite then .ok x else .error .tooLarge

/-- The real nearest to a number. -/
def toReal : Number → Except Fault Binary64
  | whole n => realOfInt n
  | real x => .ok x

/-- A real as a number: a whole one if it has no fractional part. -/
def ofReal (x : Binary64) : Number :=
  match x.isWhole, x.truncate? with
  | true, some n => whole n
  | _, _ => real x

/-- The product: exact for whole numbers, rounded otherwise. -/
def mul : Number → Number → Except Fault Number
  | whole m, whole n => .ok (whole (m * n))
  | x, y => do return real ((← x.toReal) * (← y.toReal))

/-- The difference: exact for whole numbers, rounded otherwise. -/
def sub : Number → Number → Except Fault Number
  | whole m, whole n => .ok (whole (m - n))
  | x, y => do return real ((← x.toReal) - (← y.toReal))

/-- How two numbers compare, without rounding either of them. -/
def order : Number → Number → Option Ordering
  | whole m, whole n => some (compare m n)
  | real x, real y => x.order y
  | whole m, real y =>
    match y with
    | .nan => none
    | .infinite s => some (if s then .gt else .lt)
    | .finite s n _ => some (compare (m * Binary64.one) (Binary64.signedUnits s n))
  | real x, whole n =>
    match x with
    | .nan => none
    | .infinite s => some (if s then .lt else .gt)
    | .finite s m _ => some (compare (Binary64.signedUnits s m) (n * Binary64.one))

instance : LT Number := ⟨fun x y => order x y = some .lt⟩

instance : LE Number := ⟨fun x y => order x y = some .lt ∨ order x y = some .eq⟩

instance (x y : Number) : Decidable (x < y) := inferInstanceAs (Decidable (_ = _))

instance (x y : Number) : Decidable (x ≤ y) := inferInstanceAs (Decidable (_ ∨ _))

/-- Two numbers have the same value, whatever they are given as. -/
def Same (x y : Number) : Prop := order x y = some .eq

instance (x y : Number) : Decidable (Same x y) := inferInstanceAs (Decidable (_ = _))

/-- The text of a number. -/
def text : Number → String
  | whole n => toString n
  | real x => x.text

/-- Whether a number is shown in a text: a whole number of too many digits is not. -/
def isShown : Number → Bool
  | whole n => Text.isShown n
  | real _ => true

/-- A number as it is shown. -/
def shown? (x : Number) : Option (List Char) := if x.isShown then some x.text.toList else none

/-- The fault of taking a real to an integer, if it has none nearby. -/
def integerOf (x : Binary64) (n : Option Int) : Except Fault Int :=
  match n with
  | some n => .ok n
  | none => .error (if x.isNaN then .notANumber else .infinite)

/-- The greatest integer that is at most `x`. -/
def floor (x : Binary64) : Except Fault Int := integerOf x x.floor?

/-- The least integer that is at least `x`. -/
def ceil (x : Binary64) : Except Fault Int := integerOf x x.ceil?

/-- The integer nearest to `x`, a tie to the even one. -/
def round (x : Binary64) : Except Fault Int := integerOf x x.round?

/-- The integer part of `x`. -/
def truncate (x : Binary64) : Except Fault Int := integerOf x x.truncate?

/-- The quotient of reals, with a fault for a zero divisor. -/
def divide (x y : Binary64) : Except Fault Binary64 :=
  if y.isZero then .error .divisionByZero else .ok (x / y)

/-- One half. -/
def half : Binary64 := .ofRatio false Binary64.one 2

/-- The integer nearest to `x`, a half going up: the floor of the rounded sum `x + 1/2`. -/
def roundHalfUp (x : Binary64) : Except Fault Int := floor (x + half)

/-- The integer nearest to a number taken to a real, a half going up. -/
def nearest (n : Number) : Except Fault Int := do roundHalfUp (← n.toReal)

end Number

end Monody
