import Monody.Proofs.Binary64.Whole

/-!
# Rounding up after rounding

A product carries the noise of binary rounding, so it is rounded to decimal places before it is rounded
up to a whole number. Both steps stay within the numbers: what is whole is left as it is, and what has
a fractional part lies far below the range. The whole number is zero exactly if the product is at most
half a unit in the last place.

## Main results

* `roundHalfEven_eq_zero_iff` — what is rounded to nothing
* `exists_roundPlaces` — a finite number stays finite in decimal places
* `exists_ceil_roundPlaces` — a number that is rounded up is a whole number that fits
-/

namespace Monody

theorem roundHalfEven_eq_zero_iff {num den : ℕ} (hden : 0 < den) :
    roundHalfEven num den = 0 ↔ 2 * num ≤ den := by
  have hdiv := Nat.div_add_mod num den
  have hmod := Nat.mod_lt num hden
  rcases Nat.eq_zero_or_pos (num / den) with hzero | hpos
  · rw [hzero, Nat.mul_zero, Nat.zero_add] at hdiv
    simp only [roundHalfEven, hzero, hdiv]
    split
    · omega
    · split
      · omega
      · rw [if_pos trivial]
        omega
  · have hfloor := div_le_roundHalfEven num den
    have hle : den * 1 ≤ den * (num / den) := Nat.mul_le_mul_left den hpos
    omega

namespace Binary64

variable {n k places : ℕ}

attribute [local irreducible] one bound

/-- The digits that a number keeps in decimal places are at most those of a number that fits. -/
theorem exists_fits_of_places (places : ℕ) (hn : Fits n) :
    ∃ limit, Fits limit ∧
      roundHalfEven (n * 10 ^ places) one * one ≤ limit * 10 ^ places := by
  have hwhole (k : ℕ) : roundHalfEven (k * one * 10 ^ places) one = k * 10 ^ places := by
    rw [Nat.mul_right_comm]
    exact roundHalfEven_mul_self _ one_pos
  by_cases hdvd : one ∣ n
  · -- a whole number is left as it is
    refine ⟨n, hn, le_of_eq ?_⟩
    obtain ⟨k, rfl⟩ := hdvd
    rw [Nat.mul_comm one, hwhole, Nat.mul_right_comm]
  · refine ⟨2 ^ 52 * one, fits_mul_one (by decide), ?_⟩
    calc roundHalfEven (n * 10 ^ places) one * one
        ≤ roundHalfEven (2 ^ 52 * one * 10 ^ places) one * one :=
          Nat.mul_le_mul_right _
            (roundHalfEven_mono one (Nat.mul_le_mul_right _ (hn.lt_of_not_dvd hdvd).le))
      _ = 2 ^ 52 * one * 10 ^ places := by rw [hwhole, Nat.mul_right_comm]

/-- A finite number stays finite in decimal places, and is nothing there if it is at most half a unit
of the last place. -/
theorem exists_roundPlaces (hplaces : 10 ^ places ≤ one) (hn : Fits n) :
    ∃ m hm, (finite false n hn).roundPlaces places = finite false m hm ∧
      (m = 0 ↔ 2 * (n * 10 ^ places) ≤ one) := by
  have hten : 0 < 10 ^ places := Nat.pow_pos (by decide)
  obtain ⟨limit, hlimit, hle⟩ := exists_fits_of_places places hn
  obtain ⟨hm, heq, -⟩ := ofRatio_of_le false hten hlimit hle
  refine ⟨_, hm, heq, ?_⟩
  rw [← roundHalfEven_eq_zero_iff one_pos]
  generalize roundHalfEven (n * 10 ^ places) one = digits
  constructor
  · intro hzero
    by_contra hne
    -- one digit in the last place is at least one unit
    have hunit : 2 ^ 0 * 10 ^ places ≤ digits * one :=
      Nat.mul_le_mul (Nat.pos_of_ne_zero hne) hplaces
    have hle := (isShort_two_pow 0).le_roundUnits hten hunit
    omega
  · rintro rfl
    have hzero := roundUnits_mul_self hten fits_zero
    rw [Nat.zero_mul] at hzero ⊢
    exact hzero

/-- The least whole number that is at least a finite number. -/
theorem ceil_eq {hn : Fits n} (hlow : n ≤ k * one) (hhigh : k * one < n + one) :
    Number.ceil (finite false n hn) = .ok k := by
  have hpos : (0 : ℤ) < (one : ℕ) := Int.natCast_pos.mpr one_pos
  have hfloor : (-(n : ℤ)).fdiv (one : ℕ) = -(k : ℤ) := by
    rw [Int.fdiv_eq_ediv_of_nonneg _ hpos.le]
    have hlow : (n : ℤ) ≤ k * (one : ℕ) := by exact_mod_cast hlow
    have hhigh : (k : ℤ) * (one : ℕ) < n + (one : ℕ) := by exact_mod_cast hhigh
    exact ((Int.ediv_emod_unique (r := k * (one : ℕ) - n) hpos).mpr
      ⟨by ring, by omega, by omega⟩).1
  have hceil : (finite false n hn).ceil? = some (k : ℤ) := by
    change some (-(-(n : ℤ)).fdiv (one : ℕ)) = _
    rw [hfloor, Int.neg_neg]
  rw [Number.ceil, hceil]
  rfl

/-- A finite number is rounded up to a whole number that fits, and to zero only if it is zero. -/
theorem exists_ceil (hn : Fits n) :
    ∃ k : ℕ, Number.ceil (finite false n hn) = .ok k ∧ Fits (k * one) ∧ (k = 0 ↔ n = 0) := by
  have hdiv := Nat.div_add_mod' n one
  have hmod := Nat.mod_lt n one_pos
  by_cases hzero : n % one = 0
  · have hwhole : n / one * one = n := by omega
    refine ⟨n / one, ceil_eq (by omega) (by omega), fits_div_mul_one hn, ?_⟩
    constructor
    · intro h
      rw [← hwhole, h, Nat.zero_mul]
    · rintro rfl
      exact Nat.zero_div _
  · have hsucc : (n / one + 1) * one = n / one * one + one := Nat.succ_mul ..
    -- a number with a fraction is below `2 ^ 52`, so the next whole number fits
    have hlt : n / one < 2 ^ 52 :=
      (Nat.div_lt_iff_lt_mul one_pos).mpr (hn.lt_of_not_dvd (mt Nat.mod_eq_zero_of_dvd hzero))
    refine ⟨n / one + 1, ceil_eq (by omega) (by omega), fits_mul_one (by omega), ?_⟩
    have hne : n ≠ 0 := by
      rintro rfl
      exact hzero (Nat.zero_mod _)
    exact ⟨fun h => absurd h (Nat.succ_ne_zero _), fun h => absurd h hne⟩

/-- A finite number is rounded to decimal places and then up to a whole number that fits, which is
zero exactly if the number is at most half a unit of the last place. -/
theorem exists_ceil_roundPlaces (hplaces : 10 ^ places ≤ one) (hn : Fits n) :
    ∃ k : ℕ, Number.ceil ((finite false n hn).roundPlaces places) = .ok k ∧ Fits (k * one) ∧
      (k = 0 ↔ 2 * (n * 10 ^ places) ≤ one) := by
  obtain ⟨m, hm, heq, hzero⟩ := exists_roundPlaces hplaces hn
  obtain ⟨k, hk, hfits, hzero'⟩ := exists_ceil hm
  exact ⟨k, heq ▸ hk, hfits, hzero'.trans hzero⟩

end Binary64

end Monody
