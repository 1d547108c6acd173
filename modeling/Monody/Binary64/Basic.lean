/-!
# Binary64 numbers

A finite binary64 number is a sign and a magnitude, and every magnitude is a whole number of
*units* of `2 ^ -1074`. The units are stored, so the exact value of a number is its data: there is
no exponent to align. A count of units fits the format when all its binary digits beyond the
leading 53 are zero and it lies below `2 ^ 2098`.

Rounding is done in one place, `ofRatio`: an exact quotient goes to the nearest count of units that
fits, a tie to the even one, and what lies beyond the range becomes infinite.

## Main definitions

* `roundHalfEven` — a quotient of naturals rounded to the nearest natural
* `Binary64` — finite numbers with their sign, the two infinities, and `nan`
* `Binary64.ofRatio` — the binary64 number nearest to a quotient of units
* `Binary64.order` — how two numbers compare; nothing compares with `nan`
-/

namespace Monody

/-- The natural number nearest to `num / den`; of two equally near ones, the even one. -/
def roundHalfEven (num den : Nat) : Nat :=
  let q := num / den
  let r := num % den
  if 2 * r < den then q
  else if den < 2 * r then q + 1
  else if q % 2 = 0 then q else q + 1

theorem div_le_roundHalfEven (num den : Nat) : num / den ≤ roundHalfEven num den := by
  simp only [roundHalfEven]
  repeat' split
  all_goals omega

theorem roundHalfEven_le_div_succ (num den : Nat) : roundHalfEven num den ≤ num / den + 1 := by
  simp only [roundHalfEven]
  repeat' split
  all_goals omega

namespace Binary64

/-- The number of units in `1`, as a power of two. -/
def unitPlaces : Nat := 1074

/-- The number of units in `1`. -/
def one : Nat := Nat.pow 2 unitPlaces

/-- The number of binary digits in the largest count of units. -/
def rangePlaces : Nat := 2098

/-- The least power of two above every finite number, in units. -/
def bound : Nat := Nat.pow 2 rangePlaces

/-- A count of units is a finite magnitude: it is in range, and every digit below its leading 53
binary digits is zero. -/
def Fits (n : Nat) : Prop := n < bound ∧ Nat.pow 2 (n.log2 - 52) ∣ n

instance (n : Nat) : Decidable (Fits n) := inferInstanceAs (Decidable (_ ∧ _))

/-- The place of the last digit that survives rounding `num / den` units to 53 digits. -/
def lastPlace (num den : Nat) : Nat := (num / den).log2 - 52

/-- The quotient `num / den` rounded to 53 binary digits, and never below whole units. -/
def roundUnits (num den : Nat) : Nat :=
  let k := lastPlace num den
  roundHalfEven num (den * Nat.pow 2 k) * Nat.pow 2 k

/-- The 53 digits kept by rounding are at most `2 ^ 53`, which carries into the next place. -/
theorem roundHalfEven_le_of_lastPlace (num den : Nat) :
    roundHalfEven num (den * Nat.pow 2 (lastPlace num den)) ≤ Nat.pow 2 53 := by
  have h := roundHalfEven_le_div_succ num (den * Nat.pow 2 (lastPlace num den))
  rw [← Nat.div_div_eq_div_mul] at h
  have hlt : num / den / Nat.pow 2 (lastPlace num den) < Nat.pow 2 53 := by
    rw [Nat.pow_eq, Nat.pow_eq, Nat.div_lt_iff_lt_mul (Nat.two_pow_pos _), ← Nat.pow_add]
    refine Nat.lt_of_lt_of_le Nat.lt_log2_self (Nat.pow_le_pow_right (by decide) ?_)
    simp only [lastPlace]; omega
  omega

theorem two_pow_pos (k : Nat) : 0 < Nat.pow 2 k := Nat.two_pow_pos k

/-- At most 53 significant digits, or a power of two: such a multiple of `2 ^ k` fits. -/
theorem two_pow_dvd_of_le {q k : Nat} (hq : q ≤ Nat.pow 2 53) :
    Nat.pow 2 ((q * Nat.pow 2 k).log2 - 52) ∣ q * Nat.pow 2 k := by
  by_cases hzero : q = 0
  · simp [hzero]
  have hne : q * Nat.pow 2 k ≠ 0 := Nat.mul_ne_zero hzero (Nat.ne_of_gt (two_pow_pos k))
  rcases Nat.lt_or_eq_of_le hq with hlt | rfl
  · have hlog : (q * Nat.pow 2 k).log2 < 53 + k := by
      rw [Nat.log2_lt hne, Nat.pow_add]
      exact Nat.mul_lt_mul_of_pos_right hlt (two_pow_pos k)
    exact Nat.dvd_trans (Nat.pow_dvd_pow 2 (by omega)) (Nat.dvd_mul_left ..)
  · rw [Nat.pow_eq, Nat.pow_eq, Nat.pow_eq, ← Nat.pow_add, Nat.log2_two_pow]
    exact Nat.pow_dvd_pow 2 (by omega)

theorem fits_roundUnits {num den : Nat} (h : roundUnits num den < bound) :
    Fits (roundUnits num den) :=
  ⟨h, two_pow_dvd_of_le (roundHalfEven_le_of_lastPlace num den)⟩

theorem bound_pos : 0 < bound := by
  unfold bound
  exact two_pow_pos _

theorem fits_zero : Fits 0 := ⟨bound_pos, Nat.dvd_zero _⟩

end Binary64

/-- A number of the 64-bit binary format. -/
inductive Binary64 where
  /-- The result of an operation that has no answer. -/
  | nan
  /-- Beyond every finite number. -/
  | infinite (negative : Bool)
  /-- A whole number of units of `2 ^ -1074`; zero has a sign of its own. -/
  | finite (negative : Bool) (units : Nat) (fits : Binary64.Fits units)
  deriving DecidableEq

namespace Binary64

/-- The number nearest to `num / den` units, a tie to the even last digit; infinite when that is
out of range. -/
def ofRatio (negative : Bool) (num den : Nat) : Binary64 :=
  if h : roundUnits num den < bound then .finite negative (roundUnits num den) (fits_roundUnits h)
  else .infinite negative

/-- The number nearest to a whole number of units; `zeroNegative` is the sign of a zero. -/
def ofUnits (zeroNegative : Bool) (z : Int) : Binary64 :=
  ofRatio (if z = 0 then zeroNegative else decide (z < 0)) z.natAbs 1

/-- The positive zero. -/
def zero : Binary64 := .finite false 0 fits_zero

instance : Inhabited Binary64 := ⟨zero⟩

/-- The number nearest to an integer, infinite beyond the range. -/
def ofInt (z : Int) : Binary64 := ofUnits false (z * one)

instance (n : Nat) : OfNat Binary64 n := ⟨ofInt n⟩

/-- Neither infinite nor `nan`. -/
def isFinite : Binary64 → Bool
  | .finite .. => true
  | _ => false

/-- Whether the number is `nan`. -/
def isNaN : Binary64 → Bool
  | .nan => true
  | _ => false

/-- The signed count of units of a finite number. -/
def signedUnits (negative : Bool) (units : Nat) : Int := if negative then -units else units

/-- The exact value of a finite number, in units. -/
def units? : Binary64 → Option Int
  | .finite s n _ => some (signedUnits s n)
  | _ => none

/-- How two numbers compare. The two zeros are equal; `nan` compares with nothing. -/
def order : Binary64 → Binary64 → Option Ordering
  | .nan, _ => none
  | _, .nan => none
  | .infinite s, .infinite t => some (compare (!s) (!t))
  | .infinite s, .finite .. => some (if s then .lt else .gt)
  | .finite .., .infinite t => some (if t then .gt else .lt)
  | .finite s m _, .finite t n _ => some (compare (signedUnits s m) (signedUnits t n))

instance : LT Binary64 := ⟨fun x y => order x y = some .lt⟩

instance : LE Binary64 := ⟨fun x y => order x y = some .lt ∨ order x y = some .eq⟩

instance (x y : Binary64) : Decidable (x < y) := inferInstanceAs (Decidable (_ = _))

instance (x y : Binary64) : Decidable (x ≤ y) := inferInstanceAs (Decidable (_ ∨ _))

/-- Equal in value: the zeros of both signs agree, and `nan` equals nothing. -/
def Same (x y : Binary64) : Prop := order x y = some .eq

instance (x y : Binary64) : Decidable (Same x y) := inferInstanceAs (Decidable (_ = _))

/-- The larger of two numbers, the first when the second is not larger. -/
def max (x y : Binary64) : Binary64 := if x < y then y else x

end Binary64

end Monody
