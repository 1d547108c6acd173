import Monody.Binary64.Basic

/-!
# Arithmetic on binary64 numbers

Each operation on finite numbers is the exact operation on their values followed by one rounding.
The other cases are the usual ones: a difference of infinities, zero times infinity, and the
quotients `0 / 0` and `∞ / ∞` have no answer, and a nonzero number over zero is infinite.

## Main definitions

* `add`, `sub`, `mul`, `div` — the rounded operations, available as `+ - * /`
* `floor?`, `ceil?`, `round?`, `truncate?` — the integers next to a finite number
* `roundPlaces` — the nearest number with a given count of decimal places
-/

namespace Monody.Binary64

/-- The number with the opposite sign. -/
def neg : Binary64 → Binary64
  | nan => nan
  | infinite s => infinite (!s)
  | finite s n h => finite (!s) n h

/-- The rounded sum. An exact zero is negative only as the sum of two negative zeros. -/
def add : Binary64 → Binary64 → Binary64
  | nan, _ => nan
  | _, nan => nan
  | infinite s, infinite t => if s = t then infinite s else nan
  | infinite s, finite .. => infinite s
  | finite .., infinite t => infinite t
  | finite s m _, finite t n _ => ofUnits (s && t) (signedUnits s m + signedUnits t n)

/-- The rounded difference. -/
def sub (x y : Binary64) : Binary64 := add x (neg y)

/-- The rounded product. -/
def mul : Binary64 → Binary64 → Binary64
  | nan, _ => nan
  | _, nan => nan
  | infinite s, infinite t => infinite (s != t)
  | infinite s, finite t n _ => if n = 0 then nan else infinite (s != t)
  | finite s m _, infinite t => if m = 0 then nan else infinite (s != t)
  | finite s m _, finite t n _ => ofRatio (s != t) (m * n) one

/-- The rounded quotient. -/
def div : Binary64 → Binary64 → Binary64
  | nan, _ => nan
  | _, nan => nan
  | infinite _, infinite _ => nan
  | infinite s, finite t _ _ => infinite (s != t)
  | finite s _ _, infinite t => finite (s != t) 0 fits_zero
  | finite s m _, finite t n _ =>
    if n = 0 then if m = 0 then nan else infinite (s != t)
    else ofRatio (s != t) (m * one) n

instance : Neg Binary64 := ⟨neg⟩
instance : Add Binary64 := ⟨add⟩
instance : Sub Binary64 := ⟨sub⟩
instance : Mul Binary64 := ⟨mul⟩
instance : Div Binary64 := ⟨div⟩

/-- Whether the number is a zero of either sign. -/
def isZero : Binary64 → Bool
  | finite _ n _ => n == 0
  | _ => false

/-- The greatest integer that is at most a finite number. -/
def floor? (x : Binary64) : Option Int := x.units?.map fun z => z.fdiv one

/-- The least integer that is at least a finite number. -/
def ceil? (x : Binary64) : Option Int := x.units?.map fun z => -(-z).fdiv one

/-- The integer part of a finite number, towards zero. -/
def truncate? (x : Binary64) : Option Int := x.units?.map fun z => z.tdiv one

/-- The integer nearest to a finite number, a tie to the even one. -/
def round? : Binary64 → Option Int
  | finite s n _ => some (signedUnits s (roundHalfEven n one))
  | _ => none

/-- Whether the number is finite and has no fractional part. -/
def isWhole : Binary64 → Bool
  | finite _ n _ => n % one == 0
  | _ => false

/-- The number nearest to the decimal of `places` places that is nearest to `x`, with ties to even
in both steps; a number that is not finite stays as it is. -/
def roundPlaces (places : Nat) : Binary64 → Binary64
  | finite s n _ =>
    ofRatio s (roundHalfEven (n * Nat.pow 10 places) one * one) (Nat.pow 10 places)
  | x => x

end Monody.Binary64
