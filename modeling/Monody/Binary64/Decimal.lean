import Monody.Binary64.Arithmetic

/-!
# Decimal numerals of binary64 numbers

Reading takes a decimal to the nearest number; writing looks for the fewest digits that read back.
The two belong together: a candidate is accepted exactly when `ofDecimal` returns the number it
stands for, so what is written always reads back, by the way it is found.

## Main definitions

* `Decimal` — a natural number times a power of ten
* `ofDecimal` — the number nearest to a signed decimal
* `shortest` — the fewest digits that read back, nearest to the exact value
* `Style` — where a decimal is written positionally and where with an exponent
-/

namespace Monody

/-- The decimal `digits * 10 ^ exponent`. -/
structure Decimal where
  digits : Nat
  exponent : Int
  deriving DecidableEq

namespace Decimal

/-- The decimal digits of a natural number, most significant first. -/
def digitList (n : Nat) : List Char := Nat.toDigits 10 n

/-- The exponent of the leading digit; of no use for zero. -/
def leading (d : Decimal) : Int := (digitList d.digits).length - 1 + d.exponent

/-- The same decimal without zeros at the end of its digits; `fuel` bounds the number of zeros. -/
def strip : Nat → Decimal → Decimal
  | 0, d => d
  | fuel + 1, d =>
    if d.digits ≠ 0 ∧ d.digits % 10 = 0 then strip fuel ⟨d.digits / 10, d.exponent + 1⟩ else d

/-- The digits with the point in its place and at least one digit on either side of it. -/
def positional (d : Decimal) : List Char :=
  let ds := digitList d.digits
  match d.exponent with
  | .ofNat e => ds ++ List.replicate e '0' ++ ['.', '0']
  | .negSucc e =>
    let places := e + 1
    let ds := List.replicate (places + 1 - ds.length) '0' ++ ds
    ds.take (ds.length - places) ++ '.' :: ds.drop (ds.length - places)

/-- One digit before the point, and the exponent with its sign and at least two digits. -/
def scientific (d : Decimal) : List Char :=
  let e := d.leading
  let written := digitList e.natAbs
  let mantissa := match digitList d.digits with
    | [] => []
    | [c] => [c]
    | c :: cs => c :: '.' :: cs
  let sign := if e < 0 then '-' else '+'
  mantissa ++ 'e' :: sign :: (List.replicate (2 - written.length) '0' ++ written)

end Decimal

namespace Binary64

/-- The leading exponent from which a decimal is out of range. -/
def decimalTop : Int := 310

/-- The leading exponent below which a decimal rounds to zero. -/
def decimalBottom : Int := -330

/-- The number nearest to a signed decimal. The two guards keep the powers of ten small: beyond
them the answer is infinite or zero. -/
def ofDecimal (negative : Bool) (d : Decimal) : Binary64 :=
  if d.digits = 0 then finite negative 0 fits_zero
  else if decimalTop < d.leading then infinite negative
  else if d.leading < decimalBottom then finite negative 0 fits_zero
  else match d.exponent with
    | .ofNat e => ofRatio negative (d.digits * Nat.pow 10 e * one) 1
    | .negSucc e => ofRatio negative (d.digits * one) (Nat.pow 10 (e + 1))

/-- Whether `10 ^ e` is at most `n` units. -/
def tenPowLe (e : Int) (n : Nat) : Bool :=
  match e with
  | .ofNat e => Nat.pow 10 e * one ≤ n
  | .negSucc e => one ≤ n * Nat.pow 10 (e + 1)

/-- The exponent of the leading decimal digit of `n` units: an estimate from the binary logarithm,
then the largest of its neighbours that is small enough. -/
def leadingExponent (n : Nat) : Int :=
  let estimate := (((n.log2 : Int) - unitPlaces) * 1233).fdiv 4096
  ([2, 1, 0, -1].map (estimate + ·)).find? (tenPowLe · n) |>.getD (estimate - 2)

/-- The whole number of steps `10 ^ e` in `n` units, and what is left over as `(rest, step)` on a
common scale. -/
def onGrid (n : Nat) (e : Int) : Nat × Nat × Nat :=
  match e with
  | .ofNat e =>
    let step := Nat.pow 10 e * one
    (n / step, n % step, step)
  | .negSucc e =>
    let scaled := n * Nat.pow 10 (e + 1)
    (scaled / one, scaled % one, one)

/-- The decimal reads back to `n` units. -/
def ReadsBack (n : Nat) (d : Decimal) : Prop := (ofDecimal false d).units? = some (n : Int)

instance (n : Nat) (d : Decimal) : Decidable (ReadsBack n d) := inferInstanceAs (Decidable (_ = _))

/-- The nearest decimal on the grid of step `10 ^ e` that reads back to `n` units. Only the two
neighbours of the value can; of two that do, the nearer is taken, or the even one on a tie. -/
def candidate (n : Nat) (e : Int) : Option Decimal :=
  let (q, rest, step) := onGrid n e
  let low : Decimal := ⟨q, e⟩
  let high : Decimal := ⟨q + 1, e⟩
  let preferLow := 2 * rest < step || (2 * rest == step && q % 2 == 0)
  if ReadsBack n low ∧ (preferLow = true ∨ ¬ ReadsBack n high) then some low
  else if ReadsBack n high then some high
  else none

/-- The exact decimal value of `n` units. -/
def exactDecimal (n : Nat) : Decimal := ⟨n * Nat.pow 5 unitPlaces, -unitPlaces⟩

/-- The decimal of fewest digits that reads back to `n` units, nearest to the exact value. -/
def shortest (n : Nat) : Decimal :=
  if n = 0 then ⟨0, 0⟩
  else
    let e := leadingExponent n
    let found := (List.range 17).findSome? fun (i : Nat) => candidate n (e - i)
    Decimal.strip 1100 (found.getD (exactDecimal n))

/-- How a number is written: the exponents of the leading digit that are written positionally, and
the words for the numbers that are not finite. -/
structure Style where
  /-- The least exponent written positionally, or none if every one is. -/
  positional : Option (Int × Int)
  nan : String
  infinite : String

/-- Times and settings: positionally from `10 ^ -4` up to `10 ^ 16`. -/
def plain : Style := ⟨some (-4, 16), "nan", "inf"⟩

/-- Durations in a score have no exponents, so every number there is written positionally. -/
def pointed : Style := ⟨none, "NaN", "Infinity"⟩

/-- The digits of a magnitude. -/
def Style.magnitude (f : Style) (n : Nat) : List Char :=
  let d := shortest n
  match f.positional with
  | some (low, high) =>
    if d.digits = 0 ∨ low ≤ d.leading ∧ d.leading < high then d.positional else d.scientific
  | none => d.positional

/-- The text of a number. -/
def Style.write (f : Style) (x : Binary64) : List Char :=
  let sign (negative : Bool) : List Char := if negative then ['-'] else []
  match x with
  | .nan => f.nan.toList
  | .infinite s => sign s ++ f.infinite.toList
  | .finite s n _ => sign s ++ f.magnitude n

/-- The text of a number with the fewest digits that identify it. -/
def text (x : Binary64) : String := String.ofList (plain.write x)

end Binary64

end Monody
