import Monody.Number
import Monody.Proofs.Binary64.Rounding

/-!
# Whole numbers among binary64 numbers

Every natural number up to `2 ^ 53` is a binary64 number. Calculations with such numbers whose exact
results are such numbers again are not rounded.

## Main definitions

* `Binary64.ofNat` — a natural number up to `2 ^ 53`

## Main results

* `ofInt_of_fits`, `ofInt_natCast` — the nearest number of a natural number is that number
* `ofRatio_of_le` — a quotient below a finite number is rounded to a finite number
* `ofNat_add_ofNat`, `ofNat_mul_ofNat`, `ofNat_mul_div_ofNat` — sums, products and quotients
-/

namespace Monody.Binary64

variable {j k m n : Nat}

theorem one_eq : one = 2 ^ unitPlaces := by
  unfold one
  exact Nat.pow_eq

theorem bound_eq : bound = 2 ^ rangePlaces := by
  unfold bound
  exact Nat.pow_eq

theorem one_pos : 0 < one := by
  rw [one_eq]
  exact Nat.two_pow_pos _

/-- A number of at most 53 digits in a place of the range fits. -/
theorem fits_mul_two_pow (hk : k ≤ 2 ^ 53) {place : Nat} (hplace : place + 53 < rangePlaces) :
    Fits (k * 2 ^ place) := by
  refine ⟨?_, two_pow_dvd_of_le hk⟩
  calc k * 2 ^ place ≤ 2 ^ 53 * 2 ^ place := Nat.mul_le_mul_right _ hk
    _ = 2 ^ (53 + place) := (Nat.pow_add ..).symm
    _ < bound := by
      rw [bound_eq]
      exact Nat.pow_lt_pow_right (by decide) (by omega)

/-- A natural number up to `2 ^ 53`, in units, fits. -/
theorem fits_mul_one (hk : k ≤ 2 ^ 53) : Fits (k * one) := by
  rw [one_eq]
  exact fits_mul_two_pow hk (by decide)

/-- A quotient that is at most a count of units that fits is rounded to a finite number, which is
not greater either. -/
theorem ofRatio_of_le (negative : Bool) {num den : Nat} (hden : 0 < den) (hn : Fits n)
    (h : num ≤ n * den) :
    ∃ hfits, ofRatio negative num den = .finite negative (roundUnits num den) hfits ∧
      roundUnits num den ≤ n := by
  have hle := roundUnits_le hden hn h
  have hlt : roundUnits num den < bound := hle.trans_lt hn.1
  exact ⟨fits_roundUnits hlt, dif_pos hlt, hle⟩

/-- A quotient that is a count of units that fits is not rounded. -/
theorem ofRatio_mul_self (negative : Bool) {den : Nat} (hden : 0 < den) (hn : Fits n) :
    ofRatio negative (n * den) den = .finite negative n hn := by
  have hexact := roundUnits_mul_self hden hn
  have hlt : roundUnits (n * den) den < bound := by
    rw [hexact]
    exact hn.1
  rw [ofRatio, dif_pos hlt]
  congr

/-- A natural number up to `2 ^ 53`. -/
def ofNat (k : Nat) (hk : k ≤ 2 ^ 53) : Binary64 := .finite false (k * one) (fits_mul_one hk)

/-- The nearest number of a natural number is its units, rounded. -/
theorem ofInt_eq_ofRatio (k : Nat) : ofInt k = ofRatio false (k * one) 1 := by
  have hunits : ((k : ℤ) * (one : ℕ)).natAbs = k * one := by
    rw [← Nat.cast_mul, Int.natAbs_natCast]
  have hsign : ¬ (k : ℤ) * (one : ℕ) < 0 := by
    rw [← Nat.cast_mul]
    exact Int.not_lt.mpr (Int.natCast_nonneg _)
  have hfalse : (if (k : ℤ) * (one : ℕ) = 0 then false else decide ((k : ℤ) * (one : ℕ) < 0)) =
      false := by
    simp only [hsign, decide_false, ite_self]
  rw [ofInt, ofUnits, hfalse, hunits]

/-- The nearest number of a natural number that fits is that number. -/
theorem ofInt_of_fits (hk : Fits (k * one)) : ofInt k = .finite false (k * one) hk := by
  rw [ofInt_eq_ofRatio]
  exact (congrArg (ofRatio false · 1) (Nat.mul_one _).symm).trans
    (ofRatio_mul_self false Nat.one_pos hk)

theorem ofInt_natCast (hk : k ≤ 2 ^ 53) : ofInt k = ofNat k hk := ofInt_of_fits (fits_mul_one hk)

theorem zero_eq : (0 : Binary64) = .finite false 0 fits_zero := by decide +kernel

theorem isFinite_zero : (0 : Binary64).isFinite := by
  rw [zero_eq]
  rfl

-- evaluated, the numbers of units in `1` and in the range are too long to be looked at
attribute [local irreducible] one bound

theorem bound_eq_mul_one : bound = 2 ^ (rangePlaces - unitPlaces) * one := by
  have hplaces : rangePlaces = rangePlaces - unitPlaces + unitPlaces := rfl
  rw [bound_eq, one_eq, ← Nat.pow_add, ← hplaces]

/-- A quotient in range has at most as many binary digits as stand before the point. -/
theorem lt_of_roundUnits_mul_one_lt (h : roundUnits (k * one) 1 < bound) :
    k < 2 ^ (rangePlaces - unitPlaces) := by
  by_contra hle
  -- the power of two above the range has one digit, so that rounding does not pass over it
  have hbound : bound * 1 ≤ k * one := by
    rw [bound_eq_mul_one, Nat.mul_one]
    exact Nat.mul_le_mul_right _ (Nat.not_lt.mp hle)
  have hshort : IsShort bound := bound_eq ▸ isShort_two_pow rangePlaces
  exact Nat.lt_irrefl _ (h.trans_le (hshort.le_roundUnits Nat.one_pos hbound))

/-- Whole numbers are rounded to whole numbers. -/
theorem one_dvd_roundUnits (k : Nat) : one ∣ roundUnits (k * one) 1 := by
  rw [roundUnits_eq]
  rcases Nat.le_total unitPlaces (lastPlace (k * one) 1) with hplace | hplace
  · rw [one_eq] at hplace ⊢
    exact Dvd.dvd.mul_left (Nat.pow_dvd_pow 2 hplace) _
  · -- no digit before the point is lost
    obtain ⟨c, hc⟩ : 2 ^ lastPlace (k * one) 1 ∣ k * one := by
      refine Dvd.dvd.mul_left ?_ _
      rw [one_eq] at hplace ⊢
      exact Nat.pow_dvd_pow 2 hplace
    have hround : roundHalfEven (k * one) (1 * 2 ^ lastPlace (k * one) 1) = c := by
      have hself := roundHalfEven_mul_self c (Nat.two_pow_pos (lastPlace (k * one) 1))
      rw [Nat.one_mul]
      exact (congrArg (roundHalfEven · _) (hc.trans (Nat.mul_comm ..))).trans hself
    rw [hround, Nat.mul_comm, ← hc]
    exact Dvd.intro_left k rfl

/-- A number with a fractional part has fewer than 53 digits before the point. -/
theorem Fits.lt_of_not_dvd (hn : Fits n) (h : ¬ one ∣ n) : n < 2 ^ 52 * one := by
  have hplace : n.log2 - 52 < unitPlaces := by
    by_contra hge
    rw [one_eq] at h
    exact h ((Nat.pow_dvd_pow 2 (not_lt.mp hge)).trans hn.isShort)
  calc n < 2 ^ (n.log2 + 1) := Nat.lt_log2_self
    _ ≤ 2 ^ (52 + unitPlaces) := Nat.pow_le_pow_right (by decide) (by omega)
    _ = 2 ^ 52 * one := by rw [Nat.pow_add, one_eq]

/-- The whole part of a number that fits is a number that fits. -/
theorem fits_div_mul_one (hn : Fits n) : Fits (n / one * one) := by
  by_cases hdvd : one ∣ n
  · rw [Nat.div_mul_cancel hdvd]
    exact hn
  · have hdiv : n / one < 2 ^ 52 := (Nat.div_lt_iff_lt_mul one_pos).mpr (hn.lt_of_not_dvd hdvd)
    exact fits_mul_one (by omega)

/-- A natural number that is in range when it is rounded is a finite number, which is whole. -/
theorem exists_ofInt_eq_finite (hpos : 0 < k) (hk : (ofInt k).isFinite) :
    ∃ n hn, ofInt k = .finite false n hn ∧ 0 < n ∧ one ∣ n ∧
      k < 2 ^ (rangePlaces - unitPlaces) := by
  rw [ofInt_eq_ofRatio, ofRatio] at hk ⊢
  split
  · next hlt =>
    have hone : one ≤ roundUnits (k * one) 1 := by
      refine (one_eq ▸ isShort_two_pow unitPlaces).le_roundUnits Nat.one_pos ?_
      rw [Nat.mul_one]
      exact Nat.le_mul_of_pos_left _ hpos
    exact ⟨_, fits_roundUnits hlt, rfl, one_pos.trans_le hone, one_dvd_roundUnits k,
      lt_of_roundUnits_mul_one_lt hlt⟩
  · next hlt =>
    rw [dif_neg hlt] at hk
    cases hk

/-- An integer of at most 53 digits is not rounded, whatever its sign. -/
theorem exists_ofInt_eq {z : ℤ} (hz : z.natAbs ≤ 2 ^ 53) :
    ∃ hn, ofInt z = .finite (decide (z < 0)) (z.natAbs * one) hn := by
  have hpos : (0 : ℤ) < (one : ℕ) := Int.natCast_pos.mpr one_pos
  have hzero : z * (one : ℕ) = 0 ↔ z = 0 := by
    rw [Int.mul_eq_zero]
    exact or_iff_left hpos.ne'
  have hneg : z * (one : ℕ) < 0 ↔ z < 0 := by
    rw [mul_neg_iff]
    exact ⟨fun h => h.elim (fun h => absurd h.2 hpos.not_gt) (·.1), fun h => .inr ⟨h, hpos⟩⟩
  have hsign : (if z * (one : ℕ) = 0 then false else decide (z * (one : ℕ) < 0)) =
      decide (z < 0) := by
    simp only [hzero, hneg]
    split
    · next heq => rw [heq]; rfl
    · rfl
  have hself := ofRatio_mul_self (decide (z < 0)) Nat.one_pos (fits_mul_one hz)
  rw [Nat.mul_one] at hself
  refine ⟨fits_mul_one hz, ?_⟩
  rw [ofInt, ofUnits, hsign, Int.natAbs_mul, Int.natAbs_natCast, hself]

theorem isZero_ofInt {z : ℤ} (hz : z.natAbs ≤ 2 ^ 53) : (ofInt z).isZero = decide (z = 0) := by
  obtain ⟨hn, heq⟩ := exists_ofInt_eq hz
  rw [heq, isZero, beq_eq_decide, decide_eq_decide, Nat.mul_eq_zero, Int.natAbs_eq_zero]
  exact or_iff_left one_pos.ne'

theorem isFinite_ofInt (hk : Fits (k * one)) : (ofInt k).isFinite := by
  rw [ofInt_of_fits hk]
  rfl

theorem not_le_zero (hpos : 0 < n) (hn : Fits n) : ¬ finite false n hn ≤ 0 := by
  have horder : order (finite false n hn) 0 = some .gt := by
    rw [zero_eq]
    exact congrArg some (compare_gt_iff_gt.mpr (Int.natCast_pos.mpr hpos))
  rintro (h | h) <;> rw [horder] at h <;> cases h

theorem ofNat_mul_finite (hk : k ≤ 2 ^ 53) (negative : Bool) (hn : Fits n) :
    ofNat k hk * .finite negative n hn = ofRatio (false != negative) (k * one * n) one := rfl

theorem finite_add_finite (hm : Fits m) (hn : Fits n) :
    finite false m hm + finite false n hn = ofRatio false (m + n) 1 := by
  have hsign : ¬ (m : ℤ) + n < 0 := by omega
  have hunits : ((m : ℤ) + n).natAbs = m + n := by omega
  change ofRatio (if (m : ℤ) + n = 0 then false else decide ((m : ℤ) + n < 0))
    ((m : ℤ) + n).natAbs 1 = _
  rw [hunits, decide_eq_false hsign, ite_self]

theorem finite_sub_finite (hm : Fits m) (hn : Fits n) (hle : n ≤ m) :
    finite false m hm - finite false n hn = ofRatio false (m - n) 1 := by
  have hsign : ¬ (m : ℤ) + -n < 0 := by omega
  have hunits : ((m : ℤ) + -n).natAbs = m - n := by omega
  change ofRatio (if (m : ℤ) + -n = 0 then false else decide ((m : ℤ) + -n < 0))
    ((m : ℤ) + -n).natAbs 1 = _
  rw [hunits, decide_eq_false hsign, ite_self]

/-- The sum of natural numbers that is a natural number up to `2 ^ 53`. -/
theorem ofNat_add_ofNat (hj : j ≤ 2 ^ 53) (hk : k ≤ 2 ^ 53) (h : j + k ≤ 2 ^ 53) :
    ofNat j hj + ofNat k hk = ofNat (j + k) h := by
  have hsum : j * one + k * one = (j + k) * one * 1 := by
    rw [Nat.add_mul, Nat.mul_one]
  rw [ofNat, ofNat, finite_add_finite, hsum, ofRatio_mul_self false Nat.one_pos (fits_mul_one h)]
  rfl

theorem zero_add_finite (hn : Fits n) : 0 + finite false n hn = finite false n hn := by
  rw [zero_eq, finite_add_finite, Nat.zero_add]
  exact (congrArg (ofRatio false · 1) (Nat.mul_one n).symm).trans
    (ofRatio_mul_self false Nat.one_pos hn)

theorem finite_sub_self (hn : Fits n) : finite false n hn - finite false n hn = 0 := by
  rw [finite_sub_finite hn hn le_rfl, Nat.sub_self, zero_eq]
  exact ofRatio_mul_self false Nat.one_pos fits_zero

/-- The product of natural numbers that is a natural number up to `2 ^ 53`. -/
theorem ofNat_mul_ofNat (hj : j ≤ 2 ^ 53) (hk : k ≤ 2 ^ 53) (h : j * k ≤ 2 ^ 53) :
    ofNat j hj * ofNat k hk = ofNat (j * k) h := by
  have hproduct : j * one * (k * one) = j * k * one * one := by ring
  refine (ofNat_mul_finite hj false (fits_mul_one hk)).trans ?_
  rw [hproduct]
  exact ofRatio_mul_self false one_pos (fits_mul_one h)

/-- The quotient of a multiple. -/
theorem ofNat_mul_div_ofNat (hjk : j * k ≤ 2 ^ 53) (hk : k ≤ 2 ^ 53) (hj : j ≤ 2 ^ 53)
    (hpos : 0 < k) : ofNat (j * k) hjk / ofNat k hk = ofNat j hj := by
  have hquotient : j * k * one * one = j * one * (k * one) := by ring
  have hpos' : 0 < k * one := Nat.mul_pos hpos one_pos
  have hdiv : ofNat (j * k) hjk / ofNat k hk =
      if k * one = 0 then if j * k * one = 0 then nan else infinite (false != false)
      else ofRatio (false != false) (j * k * one * one) (k * one) := rfl
  rw [hdiv, if_neg hpos'.ne', hquotient]
  exact ofRatio_mul_self false hpos' (fits_mul_one hj)

theorem isZero_ofNat (hk : k ≤ 2 ^ 53) (hpos : 0 < k) : (ofNat k hk).isZero = false :=
  beq_eq_false_iff_ne.mpr (Nat.mul_pos hpos one_pos).ne'

end Monody.Binary64

namespace Monody.Number

theorem realOfInt_of_fits {k : Nat} (hk : Binary64.Fits (k * Binary64.one)) :
    realOfInt k = .ok (.finite false (k * Binary64.one) hk) := by
  have hfinite : (Binary64.finite false (k * Binary64.one) hk).isFinite = true := rfl
  simp only [realOfInt, Binary64.ofInt_of_fits hk, hfinite, if_true]

theorem realOfInt_of_natAbs_le {z : ℤ} (hz : z.natAbs ≤ 2 ^ 53) :
    realOfInt z = .ok (.ofInt z) := by
  obtain ⟨hn, heq⟩ := Binary64.exists_ofInt_eq hz
  rw [realOfInt, heq]
  rfl

theorem realOfInt_natCast {k : Nat} (hk : k ≤ 2 ^ 53) :
    realOfInt k = .ok (Binary64.ofNat k hk) :=
  realOfInt_of_fits (Binary64.fits_mul_one hk)

/-- The quotient of a multiple. -/
theorem divide_ofNat {j k : Nat} (hjk : j * k ≤ 2 ^ 53) (hk : k ≤ 2 ^ 53) (hj : j ≤ 2 ^ 53)
    (hpos : 0 < k) :
    divide (Binary64.ofNat (j * k) hjk) (Binary64.ofNat k hk) = .ok (Binary64.ofNat j hj) := by
  rw [divide, Binary64.isZero_ofNat hk hpos, if_neg Bool.false_ne_true,
    Binary64.ofNat_mul_div_ofNat hjk hk hj hpos]

theorem round_ofNat {k : Nat} (hk : k ≤ 2 ^ 53) : round (Binary64.ofNat k hk) = .ok k := by
  have hunits : roundHalfEven (k * Binary64.one) Binary64.one = k :=
    roundHalfEven_mul_self k Binary64.one_pos
  have hround : (Binary64.ofNat k hk).round? = some (k : ℤ) :=
    congrArg (fun n : ℕ => some (n : ℤ)) hunits
  rw [round, hround]
  rfl

theorem exists_of_floor {x : Binary64} {z : ℤ} (h : floor x = .ok z) :
    ∃ s n hn, x = .finite s n hn ∧ z = (Binary64.signedUnits s n).fdiv (Binary64.one : ℕ) := by
  cases x with
  | nan => cases h
  | infinite => cases h
  | finite s n hn => exact ⟨s, n, hn, rfl, (Except.ok.inj h).symm⟩

/-- The whole part of a number is a number that fits, if it is positive. -/
theorem exists_of_floor_pos {x : Binary64} {z : ℤ} (h : floor x = .ok z) (hz : 0 < z) :
    ∃ k : ℕ, z = k ∧ Binary64.Fits (k * Binary64.one) := by
  obtain ⟨s, n, hn, rfl, rfl⟩ := exists_of_floor h
  rw [Int.fdiv_eq_ediv_of_nonneg _ (Int.natCast_nonneg _)] at hz ⊢
  cases s with
  | false => exact ⟨n / Binary64.one, (Int.natCast_div ..).symm, Binary64.fits_div_mul_one hn⟩
  | true =>
    have hnonpos : Binary64.signedUnits true n ≤ 0 := Int.neg_nonpos_of_nonneg (Int.natCast_nonneg n)
    have hone : (0 : ℤ) < (Binary64.one : ℕ) := Int.natCast_pos.mpr Binary64.one_pos
    exact absurd hz (Int.not_lt.mpr (Int.ediv_nonpos_of_nonpos_of_neg hnonpos hone))

theorem exists_of_nearest_pos {x : Number} {z : ℤ} (h : x.nearest = .ok z) (hz : 0 < z) :
    ∃ k : ℕ, z = k ∧ Binary64.Fits (k * Binary64.one) := by
  rw [nearest] at h
  cases hx : x.toReal with
  | error fault =>
    rw [hx] at h
    cases h
  | ok y =>
    rw [hx] at h
    exact exists_of_floor_pos h hz

theorem nearest_real (x : Binary64) : (real x).nearest = roundHalfUp x := rfl

theorem real_sub_real (x y : Binary64) : (real x).sub (real y) = .ok (real (x - y)) := rfl

theorem whole_mul_real {k : Nat} (hk : k ≤ 2 ^ 53) (x : Binary64) :
    (whole k).mul (.real x) = .ok (.real (Binary64.ofNat k hk * x)) := by
  simp only [mul, toReal, realOfInt_natCast hk]
  rfl

end Monody.Number
