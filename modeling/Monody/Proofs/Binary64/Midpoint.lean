import Monody.Proofs.Binary64.Decimal
import Monody.Proofs.Binary64.Error

/-!
# Where rounding turns

A quotient is rounded past a number exactly if it lies beyond the midpoint to the next one; the midpoint
itself goes to the number whose last digit is even. So the ends of the range can be told from exact
values: a decimal is read as zero up to half of the least positive number, and as infinite from halfway
between the greatest number and the power of two after it.

## Main definitions

* `Decimal.value` — the exact value of a decimal
* `vanishing`, `overflowing` — the two midpoints at the ends of the range

## Main results

* `lt_roundHalfEven_iff` — when the nearest natural number is beyond a given one
* `lt_roundUnits_iff` — when a quotient is rounded past a number of 53 digits
* `pos_ofDecimal_iff`, `isFinite_ofDecimal_iff` — which decimals are read as zero or infinite
-/

namespace Monody

/-! ## The nearest natural number -/

section Nearest

variable {q num den : ℕ}

/-- The nearest natural number is beyond `q` if the quotient is beyond `q + 1/2`, or is `q + 1/2` while
`q` is odd. -/
theorem lt_roundHalfEven_iff (hden : 0 < den) : q < roundHalfEven num den ↔
    (2 * q + 1) * den < 2 * num ∨ ((2 * q + 1) * den = 2 * num ∧ q % 2 = 1) := by
  have hdiv := Nat.div_add_mod num den
  have hmod := Nat.mod_lt num hden
  simp only [roundHalfEven]
  generalize num / den = p at hdiv
  generalize num % den = r at hdiv hmod
  have htwice : 2 * num = 2 * (den * p) + 2 * r := by omega
  have hmiddle : (2 * q + 1) * den = 2 * (den * q) + den := by ring
  rw [htwice, hmiddle]
  -- away from the quotient's own floor the remainder makes no difference
  rcases Nat.lt_trichotomy p q with hlt | rfl | hgt
  · have hstep : den * (p + 1) ≤ den * q := Nat.mul_le_mul_left den hlt
    rw [Nat.mul_succ] at hstep
    split_ifs <;> omega
  · split_ifs <;> omega
  · have hstep : den * (q + 1) ≤ den * p := Nat.mul_le_mul_left den hgt
    rw [Nat.mul_succ] at hstep
    split_ifs <;> omega

/-- Past an even number only what is beyond the midpoint is rounded. -/
theorem lt_roundHalfEven_iff_of_even (hden : 0 < den) (hq : q % 2 = 0) :
    q < roundHalfEven num den ↔ (2 * q + 1) * den < 2 * num := by
  rw [lt_roundHalfEven_iff hden]
  simp [hq]

/-- Past an odd number the midpoint is rounded as well. -/
theorem lt_roundHalfEven_iff_of_odd (hden : 0 < den) (hq : q % 2 = 1) :
    q < roundHalfEven num den ↔ (2 * q + 1) * den ≤ 2 * num := by
  rw [lt_roundHalfEven_iff hden]
  simp only [hq, and_true]
  exact Nat.le_iff_lt_or_eq.symm

end Nearest

namespace Binary64

variable {q place num den : ℕ} {s : Bool} {d : Decimal}

/-! ## 53 digits -/

/-- A quotient whose last place comes before another one has less than 53 digits from there on. -/
theorem le_of_lastPlace_lt (hden : 0 < den) (h : lastPlace num den < place) :
    num ≤ 2 ^ 52 * (den * 2 ^ place) := by
  have hdiv : num / den < 2 ^ 52 * 2 ^ place := by
    rw [← Nat.pow_add]
    apply Nat.lt_of_lt_of_le Nat.lt_log2_self
    apply Nat.pow_le_pow_right (by decide)
    simp only [lastPlace] at h
    omega
  have hlt := (Nat.div_lt_iff_lt_mul hden).mp hdiv
  rw [Nat.mul_assoc, Nat.mul_comm (2 ^ place)] at hlt
  exact hlt.le

/-- A quotient whose last place comes after another one has more than 53 digits from there on. -/
theorem le_of_lt_lastPlace (hden : 0 < den) (h : place < lastPlace num den) :
    2 ^ 53 * (den * 2 ^ place) ≤ num := by
  have hdiv : 2 ^ 53 * 2 ^ place ≤ num / den := by
    have hlarge := two_pow_le_of_lastPlace (Nat.zero_lt_of_lt h)
    rw [← Nat.pow_add]
    exact (Nat.pow_le_pow_right (by decide) (by omega)).trans hlarge
  rw [Nat.mul_comm den, ← Nat.mul_assoc]
  exact (Nat.le_div_iff_mul_le hden).mp hdiv

/-- A number that keeps all its places, or has as many digits as are kept, is compared with a rounded
quotient in its own last place. -/
theorem lt_roundUnits_iff (hden : 0 < den) (hq : q < 2 ^ 53) (hplace : place = 0 ∨ 2 ^ 52 ≤ q) :
    q * 2 ^ place < roundUnits num den ↔ q < roundHalfEven num (den * 2 ^ place) := by
  have hpow : 0 < den * 2 ^ place := Nat.mul_pos hden (Nat.two_pow_pos place)
  rcases Nat.lt_trichotomy (lastPlace num den) place with hlt | rfl | hgt
  · -- the quotient has fewer digits, and so it is less than the number
    have hlow : 2 ^ 52 ≤ q := by omega
    have hnum := le_of_lastPlace_lt hden hlt
    apply iff_of_false
    · have hround : roundUnits num den ≤ 2 ^ 52 * 2 ^ place := by
        rw [← Nat.pow_add]
        apply (isShort_two_pow _).roundUnits_le hden
        rw [Nat.pow_add, Nat.mul_assoc, Nat.mul_comm (2 ^ place)]
        exact hnum
      have hmul := Nat.mul_le_mul_right (2 ^ place) hlow
      omega
    · have hself := roundHalfEven_mul_self (2 ^ 52) hpow
      have hround := roundHalfEven_mono (den * 2 ^ place) hnum
      omega
  · rw [roundUnits_eq]
    exact Nat.mul_lt_mul_right (Nat.two_pow_pos _)
  · -- the quotient has more digits, and so it is greater
    have hnum := le_of_lt_lastPlace hden hgt
    apply iff_of_true
    · have hround : 2 ^ 53 * 2 ^ place ≤ roundUnits num den := by
        rw [← Nat.pow_add]
        apply (isShort_two_pow _).le_roundUnits hden
        rw [Nat.pow_add, Nat.mul_assoc, Nat.mul_comm (2 ^ place)]
        exact hnum
      have hmul := Nat.mul_lt_mul_of_pos_right hq (Nat.two_pow_pos place)
      omega
    · have hself := roundHalfEven_mul_self (2 ^ 53) hpow
      have hround := roundHalfEven_mono (den * 2 ^ place) hnum
      omega

/-! ## The ends of the range -/

-- evaluated, the numbers of units are too long to be looked at
attribute [local irreducible] one bound greatest

/-- Rounded to zero is what is at most one half of a unit. -/
theorem roundUnits_pos_iff (hden : 0 < den) : 0 < roundUnits num den ↔ den < 2 * num := by
  have hround : 0 * 2 ^ 0 < roundUnits num den ↔ 0 < roundHalfEven num (den * 2 ^ 0) :=
    lt_roundUnits_iff hden (Nat.two_pow_pos 53) (.inl rfl)
  rw [Nat.zero_mul] at hround
  rw [hround, lt_roundHalfEven_iff_of_even (by simpa using hden) rfl]
  simp

/-- In range is what lies below the midpoint after the greatest number. -/
theorem roundUnits_lt_bound_iff (hden : 0 < den) :
    roundUnits num den < bound ↔ 2 * num < (2 ^ 54 - 1) * (den * 2 ^ (rangePlaces - 53)) := by
  obtain ⟨place, hplace⟩ : ∃ place, rangePlaces = 53 + place := ⟨rangePlaces - 53, rfl⟩
  have hgreatest : greatest = (2 ^ 53 - 1) * 2 ^ place := by
    unfold greatest
    rw [hplace, Nat.add_sub_cancel_left]
  -- the greatest number is odd in its last place, so that a tie goes beyond it
  have hpast : greatest < roundUnits num den ↔ (2 ^ 54 - 1) * (den * 2 ^ place) ≤ 2 * num := by
    rw [hgreatest, lt_roundUnits_iff hden (by decide) (.inr (by decide)),
      lt_roundHalfEven_iff_of_odd (Nat.mul_pos hden (Nat.two_pow_pos _)) (by decide)]
    rfl
  have hrange : roundUnits num den < bound ↔ ¬ greatest < roundUnits num den := by
    constructor
    · intro h
      exact not_lt.mpr (le_greatest (fits_roundUnits h))
    · intro h
      apply (not_lt.mp h).trans_lt
      rw [hgreatest, bound_eq, hplace, Nat.pow_add]
      exact Nat.mul_lt_mul_of_pos_right (by decide) (Nat.two_pow_pos place)
  rw [hrange, hpast, hplace, Nat.add_sub_cancel_left, Nat.not_le]

/-- The midpoint between zero and the least positive number. -/
def vanishing : ℚ := 1 / 2 ^ 1075

/-- The midpoint between the greatest number and the power of two after it. -/
def overflowing : ℚ := 2 ^ 1024 - 2 ^ 970

theorem vanishing_mul_one : vanishing * one = 1 / 2 := by
  rw [vanishing, one_eq, unitPlaces, Nat.cast_pow, Nat.cast_ofNat, pow_succ]
  field_simp

theorem overflowing_eq : overflowing = (2 ^ 54 - 1) * 2 ^ 970 := by
  have hfactor (i : ℕ) : (2 : ℚ) ^ (i + 54) - 2 ^ i = (2 ^ 54 - 1) * 2 ^ i := by ring
  exact hfactor 970

theorem overflowing_mul_one :
    2 * (overflowing * one) = (2 ^ 54 - 1) * 2 ^ (rangePlaces - 53) := by
  have hpowers (i j : ℕ) :
      (2 : ℚ) * ((2 ^ 54 - 1) * 2 ^ i * 2 ^ j) = (2 ^ 54 - 1) * 2 ^ (i + j + 1) := by ring
  rw [overflowing_eq, one_eq, unitPlaces, Nat.cast_pow, Nat.cast_ofNat]
  exact hpowers 970 1074

section Quotients

variable {v : ℚ}

/-- A quotient is rounded to a positive number if it is beyond the first midpoint. -/
theorem pos_ofRatio_iff (hden : 0 < den) (hv : (num : ℚ) = v * one * den) :
    0 < ofRatio false num den ↔ vanishing < v := by
  have hdenℚ : (0 : ℚ) < den := by exact_mod_cast hden
  -- half of the least number is a tie and goes to zero
  have hround : 0 < ofRatio false num den ↔ den < 2 * num := by
    rw [← roundUnits_pos_iff hden, ofRatio, zero_eq]
    split
    · next hlt =>
      rw [lt_iff_rank (by simp) (by simp)]
      exact Int.natCast_pos
    · next hlt =>
      apply iff_of_true rfl
      exact bound_pos.trans_le (not_lt.mp hlt)
  have hvalue : den < 2 * num ↔ (1 : ℚ) * den < 2 * (v * one) * den := by
    rw [mul_assoc 2, ← hv, one_mul]
    norm_cast
  rw [hround, hvalue, mul_lt_mul_iff_left₀ hdenℚ, ← div_lt_iff₀' two_pos, ← vanishing_mul_one]
  exact mul_lt_mul_iff_left₀ one_posℚ

/-- A quotient is rounded to a finite number if it lies before the last midpoint. -/
theorem isFinite_ofRatio_iff (hden : 0 < den) (hv : (num : ℚ) = v * one * den) :
    (ofRatio s num den).isFinite ↔ v < overflowing := by
  have hdenℚ : (0 : ℚ) < den := by exact_mod_cast hden
  have hround : (ofRatio s num den).isFinite ↔ roundUnits num den < bound := by
    rw [ofRatio]
    split
    · next hlt => exact iff_of_true rfl hlt
    · next hlt => exact iff_of_false Bool.false_ne_true hlt
  have hvalue : 2 * num < (2 ^ 54 - 1) * (den * 2 ^ (rangePlaces - 53)) ↔
      2 * (v * one) * den < 2 * (overflowing * one) * den := by
    have hdigits : ((2 ^ 54 - 1 : ℕ) : ℚ) = 2 ^ 54 - 1 := by norm_num
    rw [mul_assoc 2 (v * one), ← hv, overflowing_mul_one, mul_assoc, mul_comm (2 ^ _) (den : ℚ),
      ← hdigits]
    norm_cast
  rw [hround, roundUnits_lt_bound_iff hden, hvalue, mul_lt_mul_iff_left₀ hdenℚ,
    mul_lt_mul_iff_right₀ two_pos]
  exact mul_lt_mul_iff_left₀ one_posℚ

end Quotients

/-- An integer is taken to a finite number if it lies before the last midpoint. -/
theorem isFinite_ofInt_iff {n : ℤ} : (ofInt n).isFinite ↔ |(n : ℚ)| < overflowing := by
  rw [ofInt, ofUnits]
  refine isFinite_ofRatio_iff Nat.one_pos ?_
  rw [Int.natAbs_mul, Int.natAbs_natCast, Nat.cast_mul, Nat.cast_natAbs, Int.cast_abs, Nat.cast_one,
    mul_one]

end Binary64

/-! ## Decimals -/

namespace Decimal

variable {d : Decimal}

/-- The exact value of a decimal. -/
def value (d : Decimal) : ℚ := d.digits * 10 ^ d.exponent

theorem value_zero (h : d.digits = 0) : d.value = 0 := by
  rw [value, h, Nat.cast_zero, zero_mul]

/-- The exponent of the leading digit is that of the power of ten up to the value. -/
theorem le_value (h : d.digits ≠ 0) : (10 : ℚ) ^ d.leading ≤ d.value := by
  have hlength : 0 < (digitList d.digits).length := List.length_pos_iff.mpr Nat.toDigits_ne_nil
  obtain ⟨k, hk⟩ : ∃ k, (digitList d.digits).length = k + 1 := ⟨_, (Nat.succ_pred_eq_of_pos hlength).symm⟩
  have hdigits : 10 ^ k ≤ d.digits := by
    by_contra hlt
    rcases Nat.eq_zero_or_pos k with rfl | hpos
    · omega
    · have hshort := (Nat.length_toDigits_le_iff (by decide) hpos).mpr (not_le.mp hlt)
      rw [digitList] at hk
      omega
  have hleading : d.leading = k + d.exponent := by
    rw [leading, hk]
    push_cast
    ring
  rw [hleading, zpow_add₀ (by norm_num), zpow_natCast, value]
  apply mul_le_mul_of_nonneg_right _ (zpow_nonneg (by norm_num) _)
  exact_mod_cast hdigits

theorem value_lt (d : Decimal) : d.value < (10 : ℚ) ^ (d.leading + 1) := by
  have hdigits : d.digits < 10 ^ (digitList d.digits).length :=
    (Nat.length_toDigits_le_iff (by decide) (List.length_pos_iff.mpr Nat.toDigits_ne_nil)).mp le_rfl
  have hleading : d.leading + 1 = (digitList d.digits).length + d.exponent := by
    rw [leading]
    ring
  rw [hleading, zpow_add₀ (by norm_num), zpow_natCast, value]
  apply mul_lt_mul_of_pos_right _ (zpow_pos (by norm_num) _)
  exact_mod_cast hdigits

end Decimal

namespace Binary64

theorem overflowing_lt : overflowing < 10 ^ (311 : ℤ) := by
  have hrange : (2 : ℚ) ^ (rangePlaces - unitPlaces) < 10 ^ 311 := by
    exact_mod_cast two_pow_lt_ten_pow
  have hpos : (0 : ℚ) < 2 ^ 970 := by positivity
  rw [overflowing, show (311 : ℤ) = (311 : ℕ) from rfl, zpow_natCast]
  exact (sub_lt_self _ hpos).trans hrange

theorem le_vanishing : (10 : ℚ) ^ (-330 : ℤ) ≤ vanishing := by
  have hpowers : 2 ^ 1075 ≤ 10 ^ 330 := by decide +kernel
  rw [vanishing, zpow_neg, show (330 : ℤ) = (330 : ℕ) from rfl, zpow_natCast, ← one_div]
  apply one_div_le_one_div_of_le (by positivity)
  exact_mod_cast hpowers

/-- A decimal is read as a quotient, or its leading digit tells that it is beyond one of the ends. -/
theorem ofDecimal_cases (s : Bool) (d : Decimal) :
    (d.value < vanishing ∧ ofDecimal s d = .finite s 0 fits_zero) ∨
    (overflowing < d.value ∧ ofDecimal s d = .infinite s) ∨
    ∃ num den : ℕ, 0 < den ∧ (num : ℚ) = d.value * one * den ∧ ofDecimal s d = ofRatio s num den := by
  -- the tests come in order: no digits, a leading digit beyond the top, and one below the bottom
  rw [ofDecimal]
  split
  · next hzero =>
    left
    rw [Decimal.value_zero hzero]
    exact ⟨by rw [vanishing]; positivity, rfl⟩
  split
  · next hne htop =>
    right; left
    have hpow : (10 : ℚ) ^ (311 : ℤ) ≤ 10 ^ d.leading := by
      apply zpow_le_zpow_right₀ (by norm_num)
      rw [decimalTop] at htop
      omega
    exact ⟨overflowing_lt.trans_le (hpow.trans (Decimal.le_value hne)), rfl⟩
  split
  · next hbottom =>
    left
    have hpow : (10 : ℚ) ^ (d.leading + 1) ≤ 10 ^ (-330 : ℤ) := by
      apply zpow_le_zpow_right₀ (by norm_num)
      rw [decimalBottom] at hbottom
      omega
    exact ⟨(Decimal.value_lt d).trans_le (hpow.trans le_vanishing), rfl⟩
  · right; right
    -- positive exponents are in the numerator, negative ones in the denominator
    rcases hexponent : d.exponent with e | e
    · refine ⟨d.digits * 10 ^ e * one, 1, Nat.one_pos, ?_, rfl⟩
      rw [Decimal.value, hexponent]
      push_cast
      rw [Int.ofNat_eq_natCast, zpow_natCast]
      ring
    · refine ⟨d.digits * one, 10 ^ (e + 1), Nat.pow_pos (by decide), ?_, rfl⟩
      have hten : (10 : ℚ) ^ (e + 1) ≠ 0 := pow_ne_zero _ (by norm_num)
      rw [Decimal.value, hexponent, zpow_negSucc, mul_right_comm]
      push_cast
      rw [inv_mul_cancel_right₀ hten]

theorem vanishing_lt_overflowing : vanishing < overflowing := by
  calc vanishing < 1 := by
        rw [vanishing, div_lt_one (by positivity)]
        exact one_lt_pow₀ one_lt_two (by decide)
    _ ≤ 2 ^ 970 := one_le_pow₀ one_le_two
    _ ≤ (2 ^ 54 - 1) * 2 ^ 970 := le_mul_of_one_le_left (by positivity) (by norm_num)
    _ = overflowing := overflowing_eq.symm

/-- A decimal is read as a positive number if it is more than half of the least one. -/
theorem pos_ofDecimal_iff : 0 < ofDecimal false d ↔ vanishing < d.value := by
  rcases ofDecimal_cases false d with ⟨hlt, heq⟩ | ⟨hlt, heq⟩ | ⟨num, den, hden, hvalue, heq⟩
  · rw [heq, ← zero_eq]
    exact iff_of_false (Binary64.lt_irrefl 0) hlt.not_gt
  · rw [heq, zero_eq]
    exact iff_of_true rfl (vanishing_lt_overflowing.trans hlt)
  · rw [heq]
    exact pos_ofRatio_iff hden hvalue

/-- A decimal is read as a finite number if it lies before the middle between the greatest one and the
power of two after it. -/
theorem isFinite_ofDecimal_iff : (ofDecimal s d).isFinite ↔ d.value < overflowing := by
  rcases ofDecimal_cases s d with ⟨hlt, heq⟩ | ⟨hlt, heq⟩ | ⟨num, den, hden, hvalue, heq⟩
  · rw [heq]
    exact iff_of_true rfl (hlt.trans vanishing_lt_overflowing)
  · rw [heq]
    exact iff_of_false Bool.false_ne_true hlt.not_gt
  · rw [heq]
    exact isFinite_ofRatio_iff hden hvalue

end Binary64

end Monody
