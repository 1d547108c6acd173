import Mathlib.Algebra.Order.Field.Rat
import Mathlib.Data.Nat.Cast.Order.Field
import Mathlib.Tactic.FieldSimp
import Mathlib.Tactic.Linarith
import Mathlib.Tactic.Positivity
import Mathlib.Tactic.Ring
import Monody.Binary64.Arithmetic

/-!
# Rounding to 53 digits

What is known of the one place where numbers are rounded. A count of units that fits is not changed,
and rounding never passes over one: a quotient on one side of a count that fits is rounded to the
same side or to that count itself. The error is at most half a unit of the last place that is kept,
which is `2 ^ -53` of the value.

## Main results

* `roundUnits_mul_self` — what fits is not changed
* `le_roundUnits`, `roundUnits_le` — rounding passes over no count that fits
* `roundUnits_mono` — rounding keeps the order of quotients
* `abs_roundUnits_sub_le` — the error of rounding
* `roundUnits_mul_right` — only the value of a quotient matters
-/

namespace Monody

/-! ## The nearest natural number -/

theorem roundHalfEven_mul_self (n : Nat) {den : Nat} (hden : 0 < den) :
    roundHalfEven (n * den) den = n := by
  simp [roundHalfEven, hden]

theorem roundHalfEven_mul_right (num den : Nat) {c : Nat} (hc : 0 < c) :
    roundHalfEven (num * c) (den * c) = roundHalfEven num den := by
  have hlow : 2 * (num % den * c) < den * c ↔ 2 * (num % den) < den := by
    rw [← Nat.mul_assoc, Nat.mul_lt_mul_right hc]
  have hhigh : den * c < 2 * (num % den * c) ↔ den < 2 * (num % den) := by
    rw [← Nat.mul_assoc, Nat.mul_lt_mul_right hc]
  simp only [roundHalfEven, Nat.mul_div_mul_right _ _ hc, Nat.mul_mod_mul_right, hlow, hhigh]

theorem roundHalfEven_mono {a b : Nat} (den : Nat) (h : a ≤ b) :
    roundHalfEven a den ≤ roundHalfEven b den := by
  rcases (Nat.div_le_div_right h : a / den ≤ b / den).lt_or_eq with hlt | heq
  · calc roundHalfEven a den ≤ a / den + 1 := roundHalfEven_le_div_succ a den
      _ ≤ b / den := hlt
      _ ≤ roundHalfEven b den := div_le_roundHalfEven b den
  · -- with equal quotients the remainders are in order
    have ha := Nat.div_add_mod a den
    have hb := Nat.div_add_mod b den
    rw [heq] at ha
    have hrem : a % den ≤ b % den := by omega
    simp only [roundHalfEven, heq]
    repeat' split
    all_goals omega

/-- The nearest natural number is at most one half away. -/
theorem two_mul_abs_roundHalfEven_sub_le (num : Nat) {den : Nat} (hden : 0 < den) :
    2 * |(roundHalfEven num den : ℤ) * den - num| ≤ den := by
  have hdiv : (num : ℤ) = den * (num / den : ℕ) + (num % den : ℕ) := by
    exact_mod_cast (Nat.div_add_mod num den).symm
  have hlt : num % den < den := Nat.mod_lt num hden
  simp only [roundHalfEven]
  generalize num / den = q at hdiv
  generalize num % den = r at hdiv hlt
  -- going down loses the remainder, going up adds what it lacks to the denominator
  have hdown : (q : ℤ) * den - num = -r := by rw [hdiv]; ring
  have hup : ((q + 1 : ℕ) : ℤ) * den - num = den - r := by rw [hdiv]; push_cast; ring
  have hdown' : 2 * r ≤ den → 2 * |(q : ℤ) * den - num| ≤ den := by
    intro h
    rw [hdown, abs_neg, abs_of_nonneg (by positivity)]
    exact_mod_cast h
  have hup' : den ≤ 2 * r → 2 * |((q + 1 : ℕ) : ℤ) * den - num| ≤ den := by
    intro h
    rw [hup, abs_of_nonneg (by omega)]
    omega
  split
  · exact hdown' (by omega)
  split
  · exact hup' (by omega)
  split
  · exact hdown' (by omega)
  · exact hup' (by omega)

namespace Binary64

/-! ## Counts of units -/

theorem lastPlace_mul_right (num den : Nat) {c : Nat} (hc : 0 < c) :
    lastPlace (num * c) (den * c) = lastPlace num den := by
  rw [lastPlace, Nat.mul_div_mul_right _ _ hc, lastPlace]

/-- Only the value of a quotient matters to rounding. -/
theorem roundUnits_mul_right (num den : Nat) {c : Nat} (hc : 0 < c) :
    roundUnits (num * c) (den * c) = roundUnits num den := by
  simp only [roundUnits, lastPlace_mul_right num den hc]
  rw [Nat.mul_right_comm den, roundHalfEven_mul_right _ _ hc]

/-- Where digits are lost, the quotient has at least 53 of them and reaches into the place above. -/
theorem two_pow_le_of_lastPlace {num den : Nat} (h : 0 < lastPlace num den) :
    2 ^ (lastPlace num den + 52) ≤ num / den := by
  have hne : num / den ≠ 0 := by
    intro hzero
    rw [lastPlace, hzero] at h
    simp at h
  have hlog : lastPlace num den + 52 = (num / den).log2 := by
    rw [lastPlace] at h ⊢
    omega
  rw [hlog]
  exact Nat.log2_self_le hne

/-- All binary digits beyond the leading 53 are zero. -/
def IsShort (n : Nat) : Prop := 2 ^ (n.log2 - 52) ∣ n

theorem Fits.isShort {n : Nat} (hn : Fits n) : IsShort n := hn.2

theorem isShort_two_pow (p : Nat) : IsShort (2 ^ p) := by
  rw [IsShort, Nat.log2_two_pow]
  exact Nat.pow_dvd_pow 2 (Nat.sub_le ..)

/-- The digits that are kept, in the place of the last of them, are at most the quotient. -/
theorem roundUnits_eq (num den : Nat) :
    roundUnits num den =
      roundHalfEven num (den * 2 ^ lastPlace num den) * 2 ^ lastPlace num den := rfl

namespace IsShort

variable {n num den : Nat}

/-- A count of few digits is a multiple of the last place of a larger quotient, or lies below all the
quotients with that last place. -/
theorem dvd_or_lt (hn : IsShort n) (num den : Nat) :
    2 ^ lastPlace num den ∣ n ∨
      0 < lastPlace num den ∧ n < 2 ^ (lastPlace num den + 52) := by
  by_cases hdvd : lastPlace num den ≤ n.log2 - 52
  · exact .inl (Nat.dvd_trans (Nat.pow_dvd_pow 2 hdvd) hn)
  · refine .inr ⟨by omega, Nat.lt_of_lt_of_le Nat.lt_log2_self ?_⟩
    exact Nat.pow_le_pow_right (by decide) (by omega)

/-- What has few digits and is at most a quotient is at most the rounded quotient. -/
theorem le_roundUnits (hden : 0 < den) (hn : IsShort n) (h : n * den ≤ num) :
    n ≤ roundUnits num den := by
  rw [roundUnits_eq]
  have hfloor := div_le_roundHalfEven num (den * 2 ^ lastPlace num den)
  rw [← Nat.div_div_eq_div_mul] at hfloor
  have hle : n ≤ num / den := (Nat.le_div_iff_mul_le hden).mpr h
  -- what the last place divides survives the rounding; anything else is below all that does
  rcases hn.dvd_or_lt num den with ⟨m, rfl⟩ | ⟨hplace, hlt⟩
  · have hm : m ≤ num / den / 2 ^ lastPlace num den := by
      rw [Nat.le_div_iff_mul_le (Nat.two_pow_pos _), Nat.mul_comm]
      exact hle
    rw [Nat.mul_comm]
    exact Nat.mul_le_mul_right _ (hm.trans hfloor)
  · have hlarge : 2 ^ 52 ≤ num / den / 2 ^ lastPlace num den := by
      rw [Nat.le_div_iff_mul_le (Nat.two_pow_pos _), ← Nat.pow_add, Nat.add_comm]
      exact two_pow_le_of_lastPlace hplace
    calc n ≤ 2 ^ (lastPlace num den + 52) := hlt.le
      _ = 2 ^ 52 * 2 ^ lastPlace num den := by rw [← Nat.pow_add, Nat.add_comm]
      _ ≤ _ := Nat.mul_le_mul_right _ (hlarge.trans hfloor)

/-- What has few digits and is at least a quotient is at least the rounded quotient. -/
theorem roundUnits_le (hden : 0 < den) (hn : IsShort n) (h : num ≤ n * den) :
    roundUnits num den ≤ n := by
  rw [roundUnits_eq]
  rcases hn.dvd_or_lt num den with ⟨m, rfl⟩ | ⟨hplace, hlt⟩
  · have hscale : 2 ^ lastPlace num den * m * den = m * (den * 2 ^ lastPlace num den) := by ring
    rw [hscale] at h
    rw [Nat.mul_comm (2 ^ _) m]
    refine Nat.mul_le_mul_right _ ?_
    have hpos : 0 < den * 2 ^ lastPlace num den := Nat.mul_pos hden (Nat.two_pow_pos _)
    rcases h.eq_or_lt with heq | hlt
    · have hexact := roundHalfEven_mul_self m hpos
      rw [← heq] at hexact
      exact hexact.le
    · have hdiv : num / (den * 2 ^ lastPlace num den) < m := (Nat.div_lt_iff_lt_mul hpos).mpr hlt
      exact (roundHalfEven_le_div_succ _ _).trans hdiv
  · -- a quotient with this last place lies above `n`
    have hle : n < num / den := hlt.trans_le (two_pow_le_of_lastPlace hplace)
    have := (Nat.lt_div_iff_mul_lt hden).mp hle
    omega

end IsShort

/-- What fits and is at most a quotient is at most the rounded quotient. -/
theorem le_roundUnits {n num den : Nat} (hden : 0 < den) (hn : Fits n) (h : n * den ≤ num) :
    n ≤ roundUnits num den := hn.isShort.le_roundUnits hden h

/-- What fits and is at least a quotient is at least the rounded quotient. -/
theorem roundUnits_le {n num den : Nat} (hden : 0 < den) (hn : Fits n) (h : num ≤ n * den) :
    roundUnits num den ≤ n := hn.isShort.roundUnits_le hden h

/-- Rounding keeps the order of quotients. -/
theorem roundUnits_mono {a b den : Nat} (hden : 0 < den) (h : a ≤ b) :
    roundUnits a den ≤ roundUnits b den := by
  have hquotient : a / den ≤ b / den := Nat.div_le_div_right h
  have hlog : (a / den).log2 ≤ (b / den).log2 := by
    rcases Nat.eq_zero_or_pos (a / den) with hzero | hpos
    · rw [hzero]
      exact Nat.zero_le _
    · exact (Nat.le_log2 (by omega)).mpr ((Nat.log2_self_le hpos.ne').trans hquotient)
  have hplace : lastPlace a den ≤ lastPlace b den := Nat.sub_le_sub_right hlog 52
  rcases hplace.lt_or_eq with hlt | heq
  · -- a power of two lies between the quotients
    have hbelow : a ≤ 2 ^ (lastPlace b den + 52) * den := by
      have hlt' : a / den < 2 ^ (lastPlace b den + 52) := by
        refine Nat.lt_of_lt_of_le Nat.lt_log2_self (Nat.pow_le_pow_right (by decide) ?_)
        simp only [lastPlace] at hlt ⊢
        omega
      exact ((Nat.div_lt_iff_lt_mul hden).mp hlt').le
    have habove : 2 ^ (lastPlace b den + 52) * den ≤ b :=
      (Nat.le_div_iff_mul_le hden).mp (two_pow_le_of_lastPlace (by omega))
    exact ((isShort_two_pow _).roundUnits_le hden hbelow).trans
      ((isShort_two_pow _).le_roundUnits hden habove)
  · rw [roundUnits_eq, roundUnits_eq, heq]
    exact Nat.mul_le_mul_right _ (roundHalfEven_mono _ h)

/-- What fits is not changed by rounding. -/
theorem roundUnits_mul_self {n den : Nat} (hden : 0 < den) (hn : Fits n) :
    roundUnits (n * den) den = n :=
  Nat.le_antisymm (roundUnits_le hden hn le_rfl) (le_roundUnits hden hn le_rfl)

/-- The error of rounding is at most one part in `2 ^ 53` of the value and half a unit. -/
theorem abs_roundUnits_sub_le (num : Nat) {den : Nat} (hden : 0 < den) :
    |(roundUnits num den : ℚ) - num / den| ≤ (num / den + 2 ^ 52) / 2 ^ 53 := by
  have hdenℚ : (0 : ℚ) < den := by exact_mod_cast hden
  -- the last place is worth one part in `2 ^ 52`, or one unit where there are no more bits
  have hplace : (2 : ℚ) ^ lastPlace num den * 2 ^ 52 ≤ num / den + 2 ^ 52 := by
    rcases Nat.eq_zero_or_pos (lastPlace num den) with hzero | hpos
    · rw [hzero, pow_zero, one_mul]
      exact le_add_of_nonneg_left (by positivity)
    · have hdiv : ((num / den : ℕ) : ℚ) ≤ num / den := Nat.cast_div_le
      have hlarge : (2 : ℚ) ^ lastPlace num den * 2 ^ 52 ≤ (num / den : ℕ) := by
        rw [← pow_add]
        exact_mod_cast two_pow_le_of_lastPlace hpos
      linarith
  have hnear : 2 * |(roundUnits num den : ℤ) * den - num| ≤ den * 2 ^ lastPlace num den := by
    have h := two_mul_abs_roundHalfEven_sub_le num
      (Nat.mul_pos hden (Nat.two_pow_pos (lastPlace num den)))
    rw [roundUnits_eq]
    push_cast at h ⊢
    convert h using 4
    ring
  have hnearℚ : 2 * |(roundUnits num den : ℚ) * den - num| ≤ den * 2 ^ lastPlace num den := by
    exact_mod_cast hnear
  -- the same of the quotient, divided by the denominator
  have hscale : |(roundUnits num den : ℚ) - num / den| * den =
      |(roundUnits num den : ℚ) * den - num| := by
    rw [← abs_of_pos hdenℚ, ← abs_mul, abs_of_pos hdenℚ, sub_mul, div_mul_cancel₀ _ hdenℚ.ne']
  have hhalf : |(roundUnits num den : ℚ) - num / den| ≤ 2 ^ lastPlace num den / 2 := by
    rw [le_div_iff₀ two_pos]
    refine le_of_mul_le_mul_right ?_ hdenℚ
    linarith
  refine hhalf.trans ?_
  rw [le_div_iff₀ (by positivity)]
  calc (2 : ℚ) ^ lastPlace num den / 2 * 2 ^ 53 = 2 ^ lastPlace num den * 2 ^ 52 := by ring
    _ ≤ _ := hplace

end Binary64

end Monody
