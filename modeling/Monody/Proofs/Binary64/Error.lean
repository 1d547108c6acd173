import Mathlib.Algebra.Order.BigOperators.Ring.Finset
import Monody.Proofs.Binary64.Near

/-!
# Errors of calculations

A product and a quotient are rounded once each. Away from the ends of the range a rounding changes a
number by less than a fixed factor, so that numbers which are only multiplied and divided are off by a
power of that factor, and the roundings need only be counted. Sums and differences are off by the
errors of their terms and a little more.

## Main definitions

* `IsOff` — a number that is off a value by at most some roundings
* `IsWithin` — a number that is off a value by at most a tolerance

## Main results

* `IsOff.mul`, `IsOff.divide` — the roundings of products and quotients add up
* `IsOff.isWithin` — up to `2 ^ 34`, sixteen roundings change less than a thousandth
* `IsWithin.add_half`, `IsWithin.sub` — what a sum and a difference add to the tolerances
* `IsWithin.roundHalfUp` — the nearest integer is at most one half and a little more away
-/

namespace Monody.Binary64

-- evaluated, the numbers of units are too long to be looked at
attribute [local irreducible] one bound quarter

variable {i j k n num den : ℕ} {p q δ ε : ℚ} {x y : Binary64}

/-! ## Products and quotients -/

/-- The factor by which one rounding changes a number at most. -/
def slack : ℚ := 1 + 1 / 2 ^ 52

theorem one_le_slack : 1 ≤ slack := by norm_num [slack]

theorem slack_pos : 0 < slack := zero_lt_one.trans_le one_le_slack

/-- Sixteen roundings change a number by little. -/
theorem slack_pow_le (hk : k ≤ 16) : slack ^ k ≤ 1 + 1 / 2 ^ 47 :=
  (pow_le_pow_right₀ one_le_slack hk).trans (by norm_num [slack])

theorem slack_pow_pos (k : ℕ) : 0 < slack ^ k := pow_pos slack_pos k

/-- Finite, not negative, and off a value by at most some roundings. -/
inductive IsOff (k : ℕ) : Binary64 → ℚ → Prop
  | intro {n : ℕ} {q : ℚ} (hn : Fits n) (hlow : q * one ≤ n * slack ^ k)
      (hhigh : n ≤ q * one * slack ^ k) : IsOff k (.finite false n hn) q

/-- Zero, or far away from both ends of the range. -/
def IsModerate (q : ℚ) : Prop := q = 0 ∨ 1 / 2 ^ 60 ≤ q ∧ q ≤ 2 ^ 60

theorem IsModerate.of_le (hlow : 1 / 2 ^ 60 ≤ q) (hhigh : q ≤ 2 ^ 60) : IsModerate q :=
  .inr ⟨hlow, hhigh⟩

theorem one_posℚ : (0 : ℚ) < one := by exact_mod_cast one_pos

theorem two_pow_le_one : (2 : ℚ) ^ 120 ≤ one := by
  rw [one_eq]
  exact_mod_cast (Nat.pow_le_pow_right (by decide) (by decide) : 2 ^ 120 ≤ 2 ^ unitPlaces)

theorem fits_two_pow_mul_one : Fits (2 ^ 61 * one) := by
  have hunits : 2 ^ 61 * one = 1 * 2 ^ (61 + unitPlaces) := by
    rw [one_eq, ← Nat.pow_add, Nat.one_mul]
  rw [hunits]
  exact fits_mul_two_pow (by decide) (by decide)

theorem isOff_ofNat (hk : k ≤ 2 ^ 53) : IsOff 0 (ofNat k hk) k := by
  refine .intro _ ?_ ?_ <;> rw [pow_zero, mul_one, Nat.cast_mul]

theorem IsOff.nonneg (h : IsOff k x q) : 0 ≤ q := by
  cases h with
  | @intro n _ _ _ hhigh =>
    have hn : (0 : ℚ) ≤ q * (one * slack ^ k) := by
      rw [← mul_assoc]
      exact (Nat.cast_nonneg n).trans hhigh
    exact nonneg_of_mul_nonneg_left hn (mul_pos one_posℚ (slack_pow_pos k))

theorem IsOff.isFinite (h : IsOff k x q) : x.isFinite := by
  cases h
  rfl

/-- A number that is off a positive value is positive. -/
theorem IsOff.pos (h : IsOff k x q) (hq : 0 < q) : 0 < x := by
  cases h with
  | @intro n _ hn hlow _ =>
    have hn : (0 : ℚ) < n * slack ^ k := (mul_pos hq one_posℚ).trans_le hlow
    have hpos : 0 < n := by exact_mod_cast pos_of_mul_pos_left hn (slack_pow_pos k).le
    rw [zero_eq, lt_iff_rank (by nofun) (by nofun)]
    exact Int.natCast_pos.mpr hpos

/-- A number that is off zero is zero. -/
theorem IsOff.eq_zero (h : IsOff k x 0) : x = 0 := by
  cases h with
  | @intro n _ hn _ hhigh =>
    rw [zero_mul, zero_mul] at hhigh
    obtain rfl : n = 0 := by exact_mod_cast le_antisymm hhigh (Nat.cast_nonneg n)
    exact zero_eq.symm

/-- A quotient that is nothing is rounded to zero. -/
theorem isOff_ofRatio_zero (hden : 0 < den) (hhigh : (num / den : ℚ) ≤ 0) :
    IsOff k (ofRatio false num den) 0 := by
  have hdenℚ : (0 : ℚ) < den := by exact_mod_cast hden
  have hnum : num ≤ 0 * den := by
    rw [Nat.zero_mul]
    have hle : (num : ℚ) ≤ 0 * den := (div_le_iff₀ hdenℚ).mp hhigh
    rw [zero_mul] at hle
    exact_mod_cast hle
  obtain ⟨hr, hround, hrle⟩ := ofRatio_of_le false hden fits_zero hnum
  have hzero : roundUnits num den = 0 := Nat.le_zero.mp hrle
  rw [hround]
  refine .intro hr ?_ ?_ <;> rw [hzero] <;> simp

/-- From `2 ^ 53` units on, less than a whole factor is lost in either direction. -/
theorem roundUnits_slack (hden : 0 < den) (hlarge : (2 : ℚ) ^ 53 ≤ num / den) :
    (num / den : ℚ) ≤ roundUnits num den * slack ∧ (roundUnits num den : ℚ) ≤ num / den * slack := by
  have herror := abs_roundUnits_sub_le num hden
  rw [abs_le] at herror
  generalize (num / den : ℚ) = v at hlarge herror ⊢
  generalize roundUnits num den = r at herror ⊢
  rw [slack]
  constructor
  · linarith [herror.1]
  · linarith [herror.2]

/-- A number of units that is off a moderate value is far away from both ends as well. -/
theorem units_bounds {v : ℚ} (hv : 0 ≤ v) (hk : k ≤ 16) (hqlow : 1 / 2 ^ 60 ≤ q) (hqhigh : q ≤ 2 ^ 60)
    (hlow : q * one ≤ v * slack ^ k) (hhigh : v ≤ q * one * slack ^ k) :
    2 ^ 53 ≤ v ∧ v ≤ 2 ^ 61 * one := by
  have hsmall := slack_pow_le hk
  have hqone : (2 : ℚ) ^ 60 ≤ q * one := by
    calc (2 : ℚ) ^ 60 = 1 / 2 ^ 60 * 2 ^ 120 := by norm_num
      _ ≤ q * one := mul_le_mul hqlow two_pow_le_one (by positivity) (le_trans (by positivity) hqlow)
  have hqone' : q * one ≤ 2 ^ 60 * one := mul_le_mul_of_nonneg_right hqhigh one_posℚ.le
  have hvlow : v * slack ^ k ≤ v * (1 + 1 / 2 ^ 47) := mul_le_mul_of_nonneg_left hsmall hv
  have hvhigh : q * one * slack ^ k ≤ q * one * (1 + 1 / 2 ^ 47) :=
    mul_le_mul_of_nonneg_left hsmall (by linarith)
  constructor <;> linarith

/-- One more rounding of a quotient of units that is off a value. -/
theorem isOff_ofRatio (hden : 0 < den) (hk : k ≤ 16) (hq : IsModerate q)
    (hlow : q * one ≤ num / den * slack ^ k) (hhigh : (num / den : ℚ) ≤ q * one * slack ^ k) :
    IsOff (k + 1) (ofRatio false num den) q := by
  have hdenℚ : (0 : ℚ) < den := by exact_mod_cast hden
  rcases hq with rfl | ⟨hqlow, hqhigh⟩
  · rw [zero_mul, zero_mul] at hhigh
    exact isOff_ofRatio_zero hden hhigh
  · obtain ⟨hvlow, hvhigh⟩ :=
      units_bounds (div_nonneg (Nat.cast_nonneg num) hdenℚ.le) hk hqlow hqhigh hlow hhigh
    have hnum : num ≤ 2 ^ 61 * one * den := by
      exact_mod_cast (div_le_iff₀ hdenℚ).mp hvhigh
    -- away from both ends, one more rounding is one more factor
    obtain ⟨hr, hround, -⟩ := ofRatio_of_le false hden fits_two_pow_mul_one hnum
    obtain ⟨hrlow, hrhigh⟩ := roundUnits_slack hden hvlow
    rw [hround]
    refine .intro hr ?_ ?_
    · calc q * one ≤ num / den * slack ^ k := hlow
        _ ≤ roundUnits num den * slack * slack ^ k :=
          mul_le_mul_of_nonneg_right hrlow (slack_pow_pos k).le
        _ = roundUnits num den * slack ^ (k + 1) := by ring
    · calc (roundUnits num den : ℚ) ≤ num / den * slack := hrhigh
        _ ≤ q * one * slack ^ k * slack := mul_le_mul_of_nonneg_right hhigh slack_pos.le
        _ = q * one * slack ^ (k + 1) := by ring

namespace IsOff

/-- The roundings of a product are those of its factors and one more. -/
theorem mul (hx : IsOff i x p) (hy : IsOff j y q) (hij : i + j ≤ 16) (hpq : IsModerate (p * q)) :
    IsOff (i + j + 1) (x * y) (p * q) := by
  have hp := hx.nonneg
  have hq := hy.nonneg
  have hone := one_posℚ
  cases hx with
  | @intro m _ hm hmlow hmhigh =>
    cases hy with
    | @intro n _ hn hnlow hnhigh =>
      -- the product of the units has `one` once too often, which the rounding divides out
      have hproduct : finite false m hm * finite false n hn = ofRatio false (m * n) one := rfl
      rw [hproduct]
      refine isOff_ofRatio one_pos hij hpq ?_ ?_
      · rw [div_mul_eq_mul_div, le_div_iff₀ hone, Nat.cast_mul]
        calc p * q * one * one = p * one * (q * one) := by ring
          _ ≤ m * slack ^ i * (n * slack ^ j) :=
            mul_le_mul hmlow hnlow (mul_nonneg hq hone.le)
              (mul_nonneg (Nat.cast_nonneg m) (slack_pow_pos i).le)
          _ = m * n * slack ^ (i + j) := by ring
      · rw [div_le_iff₀ hone, Nat.cast_mul]
        calc (m : ℚ) * n ≤ p * one * slack ^ i * (q * one * slack ^ j) :=
            mul_le_mul hmhigh hnhigh (Nat.cast_nonneg n)
              (mul_nonneg (mul_nonneg hp hone.le) (slack_pow_pos i).le)
          _ = p * q * one * slack ^ (i + j) * one := by ring

/-- The roundings of a quotient are those of its terms and one more. -/
theorem divide (hx : IsOff i x p) (hy : IsOff j y q) (hij : i + j ≤ 16) (hq : 0 < q)
    (hpq : IsModerate (p / q)) :
    Number.divide x y = .ok (x / y) ∧ IsOff (i + j + 1) (x / y) (p / q) := by
  have hp := hx.nonneg
  have hone := one_posℚ
  cases hx with
  | @intro m _ hm hmlow hmhigh =>
    cases hy with
    | @intro n _ hn hnlow hnhigh =>
      -- what is off a positive value is not zero, so the quotient is one of units
      have hnpos : 0 < n := by
        have hpos : (0 : ℚ) < n * slack ^ j := (mul_pos hq hone).trans_le hnlow
        exact_mod_cast pos_of_mul_pos_left hpos (slack_pow_pos j).le
      have hnℚ : (0 : ℚ) < n := by exact_mod_cast hnpos
      have hzero : (finite false n hn).isZero = false := beq_eq_false_iff_ne.mpr hnpos.ne'
      have hquotient : finite false m hm / finite false n hn = ofRatio false (m * one) n :=
        if_neg hnpos.ne'
      refine ⟨by rw [Number.divide, hzero, if_neg Bool.false_ne_true], ?_⟩
      rw [hquotient]
      refine isOff_ofRatio hnpos hij hpq ?_ ?_
      · rw [div_mul_eq_mul_div, div_mul_eq_mul_div, div_le_div_iff₀ hq hnℚ, Nat.cast_mul]
        calc p * one * n ≤ m * slack ^ i * (q * one * slack ^ j) :=
            mul_le_mul hmlow hnhigh (Nat.cast_nonneg n)
              (mul_nonneg (Nat.cast_nonneg m) (slack_pow_pos i).le)
          _ = m * one * slack ^ (i + j) * q := by ring
      · rw [div_mul_eq_mul_div, div_mul_eq_mul_div, div_le_div_iff₀ hnℚ hq, Nat.cast_mul]
        calc (m : ℚ) * one * q = m * (q * one) := by ring
          _ ≤ p * one * slack ^ i * (n * slack ^ j) :=
            mul_le_mul hmhigh hnlow (mul_nonneg hq.le hone.le)
              (mul_nonneg (mul_nonneg hp hone.le) (slack_pow_pos i).le)
          _ = p * one * slack ^ (i + j) * n := by ring

end IsOff

/-! ## Sums and differences -/

/-- Finite, not negative, and off a value by at most a tolerance. -/
inductive IsWithin (δ : ℚ) : Binary64 → ℚ → Prop
  | intro {n : ℕ} {q : ℚ} (hn : Fits n) (hlow : (q - δ) * one ≤ n) (hhigh : n ≤ (q + δ) * one) :
      IsWithin δ (.finite false n hn) q

/-- Up to `2 ^ 34`, sixteen roundings change less than a thousandth. -/
theorem IsOff.isWithin (h : IsOff k x q) (hk : k ≤ 16) (hq : q ≤ 2 ^ 34) :
    IsWithin (1 / 1000) x q := by
  have hone := one_posℚ
  have hsmall := slack_pow_le hk
  have hqnonneg := h.nonneg
  cases h with
  | @intro n _ hn hlow hhigh =>
    have hqone : q * one ≤ 2 ^ 34 * one := mul_le_mul_of_nonneg_right hq hone.le
    have hnhigh : (n : ℚ) ≤ q * one * (1 + 1 / 2 ^ 47) :=
      hhigh.trans (mul_le_mul_of_nonneg_left hsmall (mul_nonneg hqnonneg hone.le))
    have hnlow : q * one ≤ n * (1 + 1 / 2 ^ 47) :=
      hlow.trans (mul_le_mul_of_nonneg_left hsmall (Nat.cast_nonneg n))
    refine .intro hn ?_ ?_
    · rw [sub_mul]
      linarith
    · rw [add_mul]
      linarith

/-- A number of units that is within a tolerance is rounded once more. -/
theorem isWithin_ofRatio (hlow : (q - δ) * one ≤ num) (hhigh : num ≤ (q + δ) * one)
    (hq : q + δ ≤ 2 ^ 36) : IsWithin (δ + 1 / 1000) (ofRatio false num 1) q := by
  have hone := one_posℚ
  have hlarge := two_pow_le_one
  have hle : (num : ℚ) ≤ 2 ^ 36 * one := hhigh.trans (mul_le_mul_of_nonneg_right hq hone.le)
  have hnum : num ≤ 2 ^ 36 * one * 1 := by
    rw [Nat.mul_one]
    exact_mod_cast hle
  obtain ⟨hr, hround, -⟩ :=
    ofRatio_of_le false Nat.one_pos (fits_mul_one (by decide : 2 ^ 36 ≤ 2 ^ 53)) hnum
  -- up to `2 ^ 36` the last place is worth less than a thousandth
  have herror := abs_roundUnits_sub_le num Nat.one_pos
  rw [Nat.cast_one, div_one, abs_le] at herror
  rw [hround]
  generalize roundUnits num 1 = r at hr herror
  refine .intro hr ?_ ?_
  · linarith [herror.1]
  · linarith [herror.2]

theorem half_units : ((2 * quarter : ℕ) : ℚ) = 1 / 2 * one := by
  rw [one_eq_quarters]
  push_cast
  ring

namespace IsWithin

theorem add_half (h : IsWithin δ x q) (hq : q + δ ≤ 2 ^ 35) :
    IsWithin (δ + 1 / 1000) (x + Number.half) (q + 1 / 2) := by
  cases h with
  | @intro n _ hn hlow hhigh =>
    obtain ⟨hhalf, hvalue⟩ := half_eq
    have hunits := half_units
    rw [hvalue, finite_add_finite]
    refine isWithin_ofRatio ?_ ?_ (by linarith)
    · rw [Nat.cast_add, hunits]
      linarith
    · rw [Nat.cast_add, hunits]
      linarith

theorem sub (hx : IsWithin δ x p) (hy : IsWithin ε y q) (hpq : q + ε ≤ p - δ)
    (hp : p - q + (δ + ε) ≤ 2 ^ 36) : IsWithin (δ + ε + 1 / 1000) (x - y) (p - q) := by
  have hone := one_posℚ
  cases hx with
  | @intro m _ hm hmlow hmhigh =>
    cases hy with
    | @intro n _ hn hnlow hnhigh =>
      have hle : n ≤ m := by
        have hscaled : (q + ε) * one ≤ (p - δ) * one := mul_le_mul_of_nonneg_right hpq hone.le
        exact_mod_cast hnhigh.trans (hscaled.trans hmlow)
      rw [finite_sub_finite hm hn hle]
      refine isWithin_ofRatio ?_ ?_ hp
      · rw [Nat.cast_sub hle]
        linarith
      · rw [Nat.cast_sub hle]
        linarith

/-- The floor of a number is at most its value, and less than one below it, up to the tolerance. -/
theorem floor (h : IsWithin δ x q) :
    ∃ k : ℕ, Number.floor x = .ok k ∧ k ≤ q + δ ∧ q - δ < k + 1 := by
  have hone := one_posℚ
  cases h with
  | @intro n _ hn hlow hhigh =>
    have hfloor : (finite false n hn).floor? = some ((n / one : ℕ) : ℤ) :=
      congrArg some (Int.fdiv_eq_ediv_of_nonneg _ (Int.natCast_nonneg _))
    have hle : ((n / one : ℕ) : ℚ) * one ≤ n := by exact_mod_cast Nat.div_mul_le_self n one
    have hlt : (n : ℚ) < ((n / one : ℕ) + 1) * one := by
      exact_mod_cast (Nat.div_lt_iff_lt_mul one_pos).mp (Nat.lt_succ_self (n / one))
    refine ⟨n / one, by rw [Number.floor, hfloor]; rfl, ?_, ?_⟩
    · exact le_of_mul_le_mul_right (hle.trans hhigh) hone
    · exact lt_of_mul_lt_mul_right (hlow.trans_lt hlt) hone.le

/-- The nearest integer is at most one half and the tolerance away. -/
theorem roundHalfUp (h : IsWithin δ x q) (hq : q + δ ≤ 2 ^ 35) :
    ∃ k : ℕ, Number.roundHalfUp x = .ok k ∧ |(k : ℚ) - q| ≤ 1 / 2 + (δ + 1 / 1000) := by
  obtain ⟨k, hfloor, hlow, hhigh⟩ := (h.add_half hq).floor
  refine ⟨k, hfloor, abs_le.mpr ⟨?_, ?_⟩⟩ <;> linarith

/-! ## Comparisons -/

theorem order_gt (hx : IsWithin δ x p) (hy : IsWithin ε y q) (hlt : q + ε < p - δ) :
    Number.order (.real x) (.real y) = some .gt := by
  cases hx with
  | @intro m _ hm hmlow _ =>
    cases hy with
    | @intro n _ hn _ hnhigh =>
      have hscaled : (q + ε) * one < (p - δ) * one := mul_lt_mul_of_pos_right hlt one_posℚ
      have hunits : n < m := by exact_mod_cast hnhigh.trans_lt (hscaled.trans_le hmlow)
      exact congrArg some (compare_gt_iff_gt.mpr (Int.ofNat_lt.mpr hunits))

theorem le_of_lt (hx : IsWithin δ x p) (hy : IsWithin ε y q) (hlt : p + δ < q - ε) :
    Number.real x ≤ .real y := by
  cases hx with
  | @intro m _ hm _ hmhigh =>
    cases hy with
    | @intro n _ hn hnlow _ =>
      have hscaled : (p + δ) * one < (q - ε) * one := mul_lt_mul_of_pos_right hlt one_posℚ
      have hunits : m < n := by exact_mod_cast hmhigh.trans_lt (hscaled.trans_le hnlow)
      exact .inl (congrArg some (compare_lt_iff_lt.mpr (Int.ofNat_lt.mpr hunits)))

/-- What is within a small enough tolerance of a natural number is near it. -/
theorem near {parts : ℕ} (h : IsWithin δ x k) (hparts : δ * parts ≤ 1) : Near parts x k := by
  have hone : δ * parts * one ≤ 1 * one := mul_le_mul_of_nonneg_right hparts one_posℚ.le
  generalize hq : (k : ℚ) = q at h
  cases h with
  | @intro n _ hn hlow hhigh =>
    subst hq
    have hlow' := mul_le_mul_of_nonneg_right hlow (Nat.cast_nonneg parts)
    have hhigh' := mul_le_mul_of_nonneg_right hhigh (Nat.cast_nonneg parts)
    have hlowℚ : (k : ℚ) * one * parts ≤ n * parts + one := by linarith
    have hhighℚ : (n : ℚ) * parts ≤ k * one * parts + one := by linarith
    exact .intro hn (by exact_mod_cast hlowℚ) (by exact_mod_cast hhighℚ)

end IsWithin

end Monody.Binary64
