import Mathlib.Algebra.Ring.Int.Parity
import Mathlib.Data.Rat.Floor
import Monody.Proofs.Binary64.Near

/-!
# Where one half is lost

The nearest integer of a number is found by adding one half and taking the floor. The sum is rounded, and
the floor is that of the exact sum only if rounding does not take it up to the next integer. It does so in
two places. The number before one half and one half add up to less than `1` by half of a last place, which
is a tie and goes to `1`. Odd numbers beyond `2 ^ 52` have no room for a half: the sum is a tie between two
whole numbers, and of these the upper one is even. Everywhere else either the sum is exact, or there is a
number between it and the next integer.

## Main definitions

* `Binary64.value` — the exact value of a finite number
* `LosesHalf` — the number before one half, and the odd numbers beyond `2 ^ 52`

## Main results

* `roundUnits_whole_add_half`, `roundUnits_whole_sub_half` — sums where there is no room for a half
* `roundUnits_add_half_lt` — sums with room for a number before the next integer
* `roundHalfUp_eq` — the nearest integer is the exact one, or one more if a half is lost
-/

namespace Monody.Binary64

variable {c m n place : ℕ} {s : Bool} {x : Binary64}

/-- What has 53 digits from a place on is a multiple of it. -/
theorem Fits.two_pow_dvd (hn : Fits n) (h : 2 ^ 52 * 2 ^ place ≤ n) : 2 ^ place ∣ n := by
  rw [← Nat.pow_add] at h
  have hne : n ≠ 0 := ((Nat.two_pow_pos _).trans_le h).ne'
  have hlog : 52 + place ≤ n.log2 := (Nat.le_log2 hne).mpr h
  exact (Nat.pow_dvd_pow 2 (by omega)).trans hn.isShort

/-! ## One half in units -/

/-- The number of units in half of the last place of numbers between a quarter and one half. -/
def crumb : ℕ := 2 ^ (unitPlaces - 54)

theorem two_mul_quarter_eq : 2 * quarter = 2 ^ (unitPlaces - 1) := by
  have hplaces : unitPlaces - 2 + 1 = unitPlaces - 1 := rfl
  rw [quarter, ← Nat.pow_succ']
  exact congrArg (HPow.hPow 2) hplaces

theorem one_eq_halves : one = 2 * (2 * quarter) := by
  rw [one_eq_quarters]
  omega

theorem half_eq_crumbs : 2 * quarter = 2 ^ 53 * crumb := by
  have hplaces : unitPlaces - 1 = 53 + (unitPlaces - 54) := rfl
  rw [two_mul_quarter_eq, crumb, ← Nat.pow_add]
  exact congrArg (HPow.hPow 2) hplaces

theorem crumb_pos : 0 < crumb := by
  unfold crumb
  exact Nat.two_pow_pos _

theorem crumb_dvd (hn : Fits n) (h : 2 ^ 52 * crumb ≤ n) : crumb ∣ n := by
  obtain ⟨place, hplace⟩ : ∃ place, crumb = 2 ^ place := ⟨_, rfl⟩
  rw [hplace] at h ⊢
  exact hn.two_pow_dvd h

/-- The number before `1`. -/
theorem fits_one_sub_crumbs : Fits (one - 2 * crumb) := by decide +kernel

/-- The tie before `1`. -/
theorem roundUnits_one_sub_crumb : roundUnits (one - crumb) 1 = one := by decide +kernel

-- evaluated, the numbers of units are too long to be looked at
attribute [local irreducible] one bound quarter greatest crumb

/-! ## No room for a half -/

theorem one_le_two_pow (hplace : unitPlaces ≤ place) : one ≤ 2 ^ place := by
  rw [one_eq]
  exact Nat.pow_le_pow_right (by decide) hplace

theorem two_pow_eq_one_iff : 2 ^ place = one ↔ place = unitPlaces := by
  rw [one_eq]
  exact (Nat.pow_right_injective le_rfl).eq_iff

/-- What lies a remainder past a multiple is rounded to the multiple or the next one, a tie to the even. -/
theorem roundHalfEven_mul_add {r d : ℕ} (c : ℕ) (hr : r < d) :
    roundHalfEven (c * d + r) d =
      c + if 2 * r < d then 0 else if d < 2 * r then 1 else c % 2 := by
  have hdiv : (c * d + r) / d = c :=
    Nat.div_eq_of_lt_le (Nat.le_add_right _ _) (by rw [Nat.add_mul]; omega)
  have hmod : (c * d + r) % d = r := by
    rw [Nat.mul_comm c, Nat.mul_add_mod, Nat.mod_eq_of_lt hr]
  simp only [roundHalfEven, hdiv, hmod]
  split_ifs <;> omega

/-- One half past a multiple of a place is a tie in the place of `1`, and less than that above it. -/
theorem roundHalfEven_add_half (hplace : unitPlaces ≤ place) (c : ℕ) :
    roundHalfEven (c * 2 ^ place + 2 * quarter) (2 ^ place) =
      c + if place = unitPlaces then c % 2 else 0 := by
  have hhalves := one_eq_halves
  have hpos := one_pos
  have hone := one_le_two_pow hplace
  rw [roundHalfEven_mul_add c (by omega)]
  simp only [← two_pow_eq_one_iff]
  split_ifs <;> omega

/-- One half before a multiple of a place is a tie in the place of `1`, and more than that above it. -/
theorem roundHalfEven_sub_half (hplace : unitPlaces ≤ place) (hc : 0 < c) :
    roundHalfEven (c * 2 ^ place - 2 * quarter) (2 ^ place) =
      c - if place = unitPlaces then c % 2 else 0 := by
  obtain ⟨b, rfl⟩ : ∃ b, c = b + 1 := ⟨c - 1, by omega⟩
  have hhalves := one_eq_halves
  have hpos := one_pos
  have hone := one_le_two_pow hplace
  have hsplit : (b + 1) * 2 ^ place - 2 * quarter = b * 2 ^ place + (2 ^ place - 2 * quarter) := by
    rw [Nat.add_mul]
    omega
  rw [hsplit, roundHalfEven_mul_add b (by omega)]
  simp only [← two_pow_eq_one_iff]
  split_ifs <;> omega

/-- Numbers beyond `2 ^ 52` keep no place below that of `1`. -/
theorem le_lastPlace (hn : 2 ^ 52 * one ≤ n) : unitPlaces ≤ lastPlace n 1 := by
  have hpow : 2 ^ (52 + unitPlaces) ≤ n := by
    rw [Nat.pow_add, ← one_eq]
    exact hn
  have hne : n ≠ 0 := ((Nat.two_pow_pos _).trans_le hpow).ne'
  have hlog : 52 + unitPlaces ≤ n.log2 := (Nat.le_log2 hne).mpr hpow
  rw [lastPlace, Nat.div_one]
  exact Nat.le_sub_of_add_le' hlog

/-- A whole number is odd in its own place only if that is the place of `1`. -/
theorem odd_mul_two_pow (hplace : unitPlaces ≤ place) (hc : m * one = c * 2 ^ place) :
    (if place = unitPlaces then c % 2 else 0) * 2 ^ place = m % 2 * one := by
  split
  · next heq =>
    rw [two_pow_eq_one_iff.mpr heq] at hc ⊢
    rw [Nat.eq_of_mul_eq_mul_right one_pos hc]
  · next hne =>
    obtain ⟨k, rfl⟩ : ∃ k, place = unitPlaces + 1 + k := ⟨place - (unitPlaces + 1), by omega⟩
    have heven : m = c * 2 ^ k * 2 := by
      refine Nat.eq_of_mul_eq_mul_right one_pos (hc.trans ?_)
      rw [one_eq, Nat.pow_add, Nat.pow_add, Nat.pow_one]
      ring
    rw [heven, Nat.mul_mod_left, Nat.zero_mul, Nat.zero_mul]

/-- Without room for a half the sum goes to the next number if it is the even one. -/
theorem roundUnits_whole_add_half (hm : 2 ^ 52 ≤ m) (hfits : Fits (m * one)) :
    roundUnits (m * one + 2 * quarter) 1 = (m + m % 2) * one := by
  have hhalves := one_eq_halves
  have hpos := one_pos
  have hle : 2 ^ 52 * one ≤ m * one := Nat.mul_le_mul_right _ hm
  have hplace : unitPlaces ≤ lastPlace (m * one + 2 * quarter) 1 := le_lastPlace (by omega)
  rw [roundUnits_eq, Nat.one_mul]
  rcases hfits.isShort.dvd_or_lt (m * one + 2 * quarter) 1 with ⟨c, hc⟩ | ⟨hlast, hlt⟩
  · rw [Nat.mul_comm (2 ^ _)] at hc
    generalize lastPlace (m * one + 2 * quarter) 1 = place at hplace hc
    rw [hc, roundHalfEven_add_half hplace, Nat.add_mul, odd_mul_two_pow hplace hc, ← hc, ← Nat.add_mul]
  · -- a power of two between the number and the sum would be whole
    have hreach := two_pow_le_of_lastPlace hlast
    rw [Nat.div_one] at hreach
    generalize lastPlace (m * one + 2 * quarter) 1 = place at hplace hlt hreach
    obtain ⟨k, rfl⟩ : ∃ k, place = k + unitPlaces := ⟨place - unitPlaces, by omega⟩
    rw [Nat.add_right_comm, Nat.pow_add, ← one_eq] at hlt hreach
    have hnext : (m + 1) * one ≤ 2 ^ (k + 52) * one :=
      Nat.mul_le_mul_right _ (Nat.lt_of_mul_lt_mul_right hlt)
    rw [Nat.add_mul] at hnext
    omega

/-- Without room for a half the difference goes to the number before if it is the even one. -/
theorem roundUnits_whole_sub_half (hm : 2 ^ 52 < m) (hfits : Fits (m * one)) :
    roundUnits (m * one - 2 * quarter) 1 = (m - m % 2) * one := by
  have hhalves := one_eq_halves
  have hpos := one_pos
  have hle : (2 ^ 52 + 1) * one ≤ m * one := Nat.mul_le_mul_right _ hm
  rw [Nat.add_mul] at hle
  have hplace : unitPlaces ≤ lastPlace (m * one - 2 * quarter) 1 := le_lastPlace (by omega)
  rw [roundUnits_eq, Nat.one_mul]
  -- the last place of the difference divides the whole number, since that is not below its reach
  rcases hfits.isShort.dvd_or_lt (m * one - 2 * quarter) 1 with ⟨c, hc⟩ | ⟨hlast, hlt⟩
  · rw [Nat.mul_comm (2 ^ _)] at hc
    generalize lastPlace (m * one - 2 * quarter) 1 = place at hplace hc
    have hcpos : 0 < c := by
      rcases Nat.eq_zero_or_pos c with rfl | h
      · omega
      · exact h
    rw [hc, roundHalfEven_sub_half hplace hcpos, Nat.sub_mul, odd_mul_two_pow hplace hc, ← hc,
      ← Nat.sub_mul]
  · have hreach := two_pow_le_of_lastPlace hlast
    rw [Nat.div_one] at hreach
    omega

/-! ## Room for a half -/

/-- One half is a power of two in each place up to its own. -/
theorem half_eq_mul_two_pow {k : ℕ} (hk : k ≤ 51) :
    2 * quarter = 2 ^ (51 - k) * 2 ^ (k + (unitPlaces - 52)) := by
  have hplaces : unitPlaces - 1 = 51 + (unitPlaces - 52) := rfl
  have hsum : 51 - k + (k + (unitPlaces - 52)) = unitPlaces - 1 := by omega
  rw [two_mul_quarter_eq, ← Nat.pow_add, hsum]

/-- A sum from `1` on and below `2 ^ 52` has a number between it and the next integer. -/
theorem roundUnits_add_half_lt (hn : Fits n) (hpos : 0 < m) (hm : m < 2 ^ 52)
    (hlt : n + 2 * quarter < (m + 1) * one) : roundUnits (n + 2 * quarter) 1 < (m + 1) * one := by
  have hlow : 2 ^ m.log2 ≤ m := Nat.log2_self_le hpos.ne'
  have hhigh : m < 2 ^ (m.log2 + 1) := Nat.lt_log2_self
  have hlog : m.log2 < 52 := (Nat.log2_lt hpos.ne').mpr hm
  generalize m.log2 = k at hlow hhigh hlog
  -- one half is `w` gaps, where the gap is the last place of numbers that are as great as the sum
  have hhalf := half_eq_mul_two_pow (k := k) (by omega)
  have hw : 0 < 2 ^ (51 - k) := Nat.two_pow_pos _
  have hdigits : (m + 1) * (2 * 2 ^ (51 - k)) ≤ 2 ^ 53 := by
    have hsum : k + 1 + (51 - k + 1) = 53 := by omega
    rw [← Nat.pow_succ', ← hsum, Nat.pow_add 2 (k + 1)]
    exact Nat.mul_le_mul_right _ hhigh
  have hplaces : 2 ^ k * one = 2 ^ 52 * 2 ^ (k + (unitPlaces - 52)) := by
    have hsum : 52 + (k + (unitPlaces - 52)) = k + unitPlaces := by
      rw [Nat.add_left_comm]
      rfl
    rw [← Nat.pow_add 2 52, hsum, Nat.pow_add, one_eq]
  have hrange : k + (unitPlaces - 52) + 53 < rangePlaces := by
    rw [unitPlaces, rangePlaces]
    omega
  have hone := one_eq_halves
  generalize k + (unitPlaces - 52) = place at hhalf hplaces hrange
  generalize 2 ^ (51 - k) = w at hhalf hw hdigits
  rw [hhalf, ← Nat.mul_assoc] at hone
  have hgap : n + 2 * quarter + 2 ^ place ≤ (m + 1) * one := by
    rcases Nat.lt_or_ge n (2 ^ k * one) with hless | hge
    · have hbelow : n < m * one := hless.trans_le (Nat.mul_le_mul_right _ hlow)
      have hgap : 2 ^ place ≤ w * 2 ^ place := Nat.le_mul_of_pos_left _ hw
      rw [Nat.add_mul, Nat.one_mul, one_eq_halves]
      rw [one_eq_halves] at hbelow
      omega
    · rw [hplaces] at hge
      obtain ⟨c, rfl⟩ := hn.two_pow_dvd hge
      rw [Nat.mul_comm (2 ^ place), hhalf, hone, ← Nat.mul_assoc, ← Nat.add_mul] at hlt ⊢
      rw [← Nat.succ_mul]
      exact Nat.mul_le_mul_right _ (Nat.lt_of_mul_lt_mul_right hlt)
  obtain ⟨d, hd⟩ : ∃ d, (m + 1) * (2 * w) = d + 1 :=
    Nat.exists_eq_succ_of_ne_zero (Nat.mul_pos m.succ_pos (Nat.mul_pos Nat.two_pos hw)).ne'
  have hnext : (m + 1) * one = d * 2 ^ place + 2 ^ place := by
    rw [hone, ← Nat.mul_assoc, hd, Nat.succ_mul]
  rw [hd] at hdigits
  have hfits : Fits (d * 2 ^ place) := fits_mul_two_pow (Nat.le_of_succ_le hdigits) hrange
  rw [hnext] at hgap ⊢
  calc roundUnits (n + 2 * quarter) 1 ≤ d * 2 ^ place :=
        roundUnits_le Nat.one_pos hfits ((Nat.le_of_add_le_add_right hgap).trans_eq (Nat.mul_one _).symm)
    _ < d * 2 ^ place + 2 ^ place := Nat.lt_add_of_pos_right (Nat.two_pow_pos _)

/-- A sum below `1` has a number between it and `1`, unless it is the tie before `1`. -/
theorem roundUnits_add_half_lt_one (hn : Fits n) (hlt : n < 2 * quarter) (htie : n + crumb ≠ 2 * quarter) :
    roundUnits (n + 2 * quarter) 1 < one := by
  have hcrumbs := half_eq_crumbs
  have hone := one_eq_halves
  have hpos := crumb_pos
  have hgap : n + 2 * crumb ≤ 2 * quarter := by
    by_contra hless
    -- so close to one half there are only multiples of the last place, and that before one half is the tie
    obtain ⟨c, rfl⟩ := crumb_dvd hn (by omega)
    rw [Nat.mul_comm crumb] at hlt hless htie
    have hc : c < 2 ^ 53 := Nat.lt_of_mul_lt_mul_right (hlt.trans_eq hcrumbs)
    have hc' : 2 ^ 53 < c + 2 := by
      refine Nat.lt_of_mul_lt_mul_right (a := crumb) ?_
      rw [Nat.add_mul]
      omega
    obtain rfl : c = 2 ^ 53 - 1 := by omega
    omega
  calc roundUnits (n + 2 * quarter) 1 ≤ one - 2 * crumb :=
        roundUnits_le Nat.one_pos fits_one_sub_crumbs (by omega)
    _ < one := by omega

/-- Up to `2 ^ 52` one half is taken away exactly. -/
theorem fits_sub_half (hn : Fits n) (hhigh : n ≤ 2 ^ 52 * one) : Fits (n - 2 * quarter) := by
  obtain ⟨half, hhalf, hrange⟩ : ∃ half, 2 * quarter = 2 ^ half ∧ half + 53 < rangePlaces :=
    ⟨_, two_mul_quarter_eq, by decide⟩
  have hone := one_eq_halves
  -- both numbers are multiples of the last place of the number, or of one half if that is less
  obtain ⟨place, hdvd, hdigits, hplace⟩ : ∃ place, 2 ^ place ∣ n ∧ n ≤ 2 ^ 53 * 2 ^ place ∧ place ≤ half := by
    rcases Nat.le_total (n.log2 - 52) half with hle | hge
    · refine ⟨_, hn.isShort, ?_, hle⟩
      rw [← Nat.pow_add]
      exact Nat.lt_log2_self.le.trans (Nat.pow_le_pow_right (by decide) (by omega))
    · refine ⟨half, (Nat.pow_dvd_pow 2 hge).trans hn.isShort, ?_, le_rfl⟩
      rw [← hhalf]
      omega
  obtain ⟨c, rfl⟩ := hdvd
  obtain ⟨d, hd⟩ : 2 ^ place ∣ 2 * quarter := hhalf ▸ Nat.pow_dvd_pow 2 hplace
  rw [hd, ← Nat.mul_sub, Nat.mul_comm]
  rw [Nat.mul_comm (2 ^ 53)] at hdigits
  have hc : c ≤ 2 ^ 53 := Nat.le_of_mul_le_mul_left hdigits (Nat.two_pow_pos place)
  exact fits_mul_two_pow ((Nat.sub_le c d).trans hc) (by omega)

/-! ## The whole part of the sum -/

/-- A magnitude that is an odd number beyond `2 ^ 52`. -/
def IsOddBeyond (n : ℕ) : Prop := ∃ m, 2 ^ 52 < m ∧ m % 2 = 1 ∧ n = m * one

theorem isOddBeyond_mul_one (hm : 2 ^ 52 ≤ m) : IsOddBeyond (m * one) ↔ m % 2 = 1 := by
  constructor
  · rintro ⟨k, -, hodd, heq⟩
    rwa [Nat.eq_of_mul_eq_mul_right one_pos heq]
  · intro hodd
    exact ⟨m, by omega, hodd, rfl⟩

theorem not_isOddBeyond (hn : n ≤ 2 ^ 52 * one) : ¬ IsOddBeyond n := by
  rintro ⟨m, hm, -, rfl⟩
  exact absurd (Nat.le_of_mul_le_mul_right hn one_pos) (by omega)

/-- Beyond `2 ^ 52` all numbers are whole. -/
theorem Fits.exists_whole (hn : Fits n) (h : 2 ^ 52 * one ≤ n) : ∃ m, 2 ^ 52 ≤ m ∧ n = m * one := by
  obtain ⟨m, rfl⟩ : one ∣ n := not_not.mp fun hdvd => (hn.lt_of_not_dvd hdvd).not_ge h
  rw [Nat.mul_comm one] at h ⊢
  exact ⟨m, Nat.le_of_mul_le_mul_right h one_pos, rfl⟩

/-- The last sum before `2 ^ 52` that reaches it is exact. -/
theorem add_half_eq (hn : Fits n) (hlt : n < 2 ^ 52 * one) (hle : 2 ^ 52 * one ≤ n + 2 * quarter) :
    n + 2 * quarter = 2 ^ 52 * one := by
  have hone := one_eq_halves
  have hpos := one_pos
  obtain ⟨half, hhalf⟩ : ∃ half, 2 * quarter = 2 ^ half := ⟨_, two_mul_quarter_eq⟩
  rw [hhalf] at hle hone ⊢
  have hscale : 2 ^ 52 * one = 2 ^ 53 * 2 ^ half := by
    rw [hone, ← Nat.mul_assoc]
    rfl
  rw [hscale] at hlt hle ⊢
  -- counted in halves, both are whole numbers with nothing between them
  obtain ⟨c, rfl⟩ : 2 ^ half ∣ n := hn.two_pow_dvd (by omega)
  rw [Nat.mul_comm (2 ^ half), ← Nat.succ_mul] at hle ⊢
  rw [Nat.mul_comm (2 ^ half)] at hlt
  have hpow : 0 < 2 ^ half := Nat.two_pow_pos half
  have hc : c < 2 ^ 53 := Nat.lt_of_mul_lt_mul_right hlt
  have hc' : 2 ^ 53 ≤ c + 1 := Nat.le_of_mul_le_mul_right hle hpow
  rw [Nat.le_antisymm hc hc']

/-- The whole part of a rounded sum with one half is that of the exact sum, except at the tie before `1`
and for odd numbers without room for a half, where it is one more. -/
theorem roundUnits_add_half_div (hn : Fits n) :
    (n + crumb = 2 * quarter ∨ IsOddBeyond n →
      roundUnits (n + 2 * quarter) 1 / one = (n + 2 * quarter) / one + 1) ∧
    (¬ (n + crumb = 2 * quarter ∨ IsOddBeyond n) →
      roundUnits (n + 2 * quarter) 1 / one = (n + 2 * quarter) / one) := by
  have hone := one_eq_halves
  have hpos := one_pos
  have hcrumb := crumb_pos
  -- below `2 ^ 52` there is room for a half, and from there on the numbers are whole
  rcases Nat.lt_or_ge n (2 ^ 52 * one) with hlt | hge
  · have hodd : ¬ IsOddBeyond n := not_isOddBeyond hlt.le
    rcases Nat.lt_or_ge (n + 2 * quarter) one with hless | hmore
    · rw [Nat.div_eq_of_lt hless]
      by_cases htie : n + crumb = 2 * quarter
      · have hsum : n + 2 * quarter = one - crumb := by omega
        rw [hsum, roundUnits_one_sub_crumb, Nat.div_self hpos]
        exact ⟨fun _ => rfl, fun h => absurd (.inl htie) h⟩
      · rw [Nat.div_eq_of_lt (roundUnits_add_half_lt_one hn (by omega) htie)]
        exact ⟨fun h => absurd h (not_or.mpr ⟨htie, hodd⟩), fun _ => rfl⟩
    · have hnone : ¬ (n + crumb = 2 * quarter ∨ IsOddBeyond n) := not_or.mpr ⟨by omega, hodd⟩
      refine ⟨fun h => absurd h hnone, fun _ => ?_⟩
      rcases Nat.lt_or_ge (n + 2 * quarter) (2 ^ 52 * one) with hroom | hreach
      · -- the sum lies between two whole numbers, and rounding leaves it there
        obtain ⟨m, hm⟩ : ∃ m, (n + 2 * quarter) / one = m := ⟨_, rfl⟩
        have hmlt : m < 2 ^ 52 := hm ▸ (Nat.div_lt_iff_lt_mul hpos).mpr hroom
        have hmpos : 0 < m := hm ▸ Nat.div_pos hmore hpos
        have hlow : m * one ≤ n + 2 * quarter := hm ▸ Nat.div_mul_le_self ..
        have hhigh : n + 2 * quarter < (m + 1) * one :=
          (Nat.div_lt_iff_lt_mul hpos).mp (hm.trans_lt (Nat.lt_succ_self m))
        rw [hm]
        refine Nat.div_eq_of_lt_le ?_ (roundUnits_add_half_lt hn hmpos hmlt hhigh)
        exact le_roundUnits Nat.one_pos (fits_mul_one (by omega)) ((Nat.mul_one _).trans_le hlow)
      · rw [add_half_eq hn hlt hreach]
        have hself := roundUnits_mul_self Nat.one_pos (fits_mul_one (show 2 ^ 52 ≤ 2 ^ 53 by decide))
        rw [Nat.mul_one] at hself
        rw [hself]
  · obtain ⟨m, hm, rfl⟩ := hn.exists_whole hge
    have hsum : (m * one + 2 * quarter) / one = m :=
      Nat.div_eq_of_lt_le (by omega) (by rw [Nat.add_mul, Nat.one_mul]; omega)
    have htie : ¬ m * one + crumb = 2 * quarter := by omega
    rw [roundUnits_whole_add_half hm hn, Nat.mul_div_cancel _ hpos, hsum, or_iff_right htie,
      isOddBeyond_mul_one hm]
    omega

/-- The same of differences: the next integer from below is that of the exact difference, except for odd
numbers without room for a half, where it is one less. -/
theorem ediv_neg_roundUnits_sub_half (hn : Fits n) (hle : 2 * quarter ≤ n) :
    (IsOddBeyond n → -(roundUnits (n - 2 * quarter) 1 : ℤ) / (one : ℕ) =
      (-(n : ℤ) + (2 * quarter : ℕ)) / (one : ℕ) + 1) ∧
    (¬ IsOddBeyond n → -(roundUnits (n - 2 * quarter) 1 : ℤ) / (one : ℕ) =
      (-(n : ℤ) + (2 * quarter : ℕ)) / (one : ℕ)) := by
  have hone := one_eq_halves
  have hpos := one_pos
  -- from `2 ^ 52` on the numbers are integers and the half is a tie; below, the difference is exact
  rcases Nat.lt_or_ge (2 ^ 52 * one) n with hlarge | hsmall
  · obtain ⟨m, hm, rfl⟩ := hn.exists_whole hlarge.le
    have hm' : 2 ^ 52 < m := Nat.lt_of_mul_lt_mul_right hlarge
    have hneg {k : ℕ} (a : ℕ) (ha : a < one) :
        (-((k * one : ℕ) : ℤ) + a) / (one : ℕ) = -(k : ℤ) := by
      have hsplit : -((k * one : ℕ) : ℤ) + a = a + -(k : ℤ) * (one : ℕ) := by
        push_cast
        ring
      rw [hsplit, Int.add_mul_ediv_right _ _ (by omega), Int.ediv_eq_zero_of_lt (by omega) (by omega),
        Int.zero_add]
    have hround := hneg (k := m - m % 2) 0 hpos
    rw [Nat.cast_zero, Int.add_zero] at hround
    rw [roundUnits_whole_sub_half hm' hn, hround, hneg (2 * quarter) (by omega), isOddBeyond_mul_one hm]
    omega
  · refine ⟨fun h => absurd h (not_isOddBeyond hsmall), fun _ => ?_⟩
    have hself := roundUnits_mul_self Nat.one_pos (fits_sub_half hn hsmall)
    rw [Nat.mul_one] at hself
    rw [hself]
    congr 1
    omega

/-! ## The nearest integer -/

/-- The exact value of a finite number. -/
def value : Binary64 → ℚ
  | finite s n _ => signedUnits s n / one
  | _ => 0

/-- The number before one half, and the odd numbers beyond `2 ^ 52`. -/
def LosesHalf (x : Binary64) : Prop :=
  x.value = 1 / 2 - 1 / 2 ^ 54 ∨ ∃ k : ℤ, Odd k ∧ 2 ^ 52 < |k| ∧ x.value = k

theorem value_add_half (hn : Fits n) :
    (finite s n hn).value + 1 / 2 = ((signedUnits s n + (2 * quarter : ℕ) : ℤ) : ℚ) / (one : ℕ) := by
  have hone : (one : ℚ) = 2 * (2 * quarter : ℕ) := by exact_mod_cast one_eq_halves
  have hpos : (0 : ℚ) < one := by exact_mod_cast one_pos
  rw [value, Int.cast_add, add_div, Int.cast_natCast]
  congr 1
  rw [div_eq_div_iff two_ne_zero hpos.ne', hone]
  ring

theorem floor_value_add_half (hn : Fits n) :
    ⌊(finite s n hn).value + 1 / 2⌋ = (signedUnits s n + (2 * quarter : ℕ)) / (one : ℕ) := by
  rw [value_add_half, Rat.floor_intCast_div_natCast]

theorem value_eq_iff (hn : Fits n) {q : ℚ} {z : ℤ} (hq : q * (one : ℕ) = z) :
    (finite s n hn).value = q ↔ signedUnits s n = z := by
  rw [value, div_eq_iff (by exact_mod_cast one_pos.ne'), hq]
  exact Int.cast_inj

theorem value_ofNat (hk : m ≤ 2 ^ 53) : (ofNat m hk).value = m := by
  have hunits : ((m : ℤ) : ℚ) * (one : ℕ) = ((m * one : ℕ) : ℤ) := by push_cast; rfl
  exact ((value_eq_iff _ hunits).mpr rfl).trans (Int.cast_natCast m)

theorem losesHalf_iff (hn : Fits n) :
    LosesHalf (finite s n hn) ↔ s = false ∧ n + crumb = 2 * quarter ∨ IsOddBeyond n := by
  have hcrumb := crumb_pos
  have hcrumbs := half_eq_crumbs
  have htie : (1 / 2 - 1 / 2 ^ 54 : ℚ) * (one : ℕ) = ((2 * quarter - crumb : ℤ) : ℤ) := by
    have hhalf : (2 * quarter : ℚ) = 2 ^ 53 * crumb := by exact_mod_cast hcrumbs
    rw [one_eq_halves]
    push_cast
    rw [hhalf]
    ring
  have hwhole (k : ℤ) : (k : ℚ) * (one : ℕ) = ((k * (one : ℕ) : ℤ) : ℚ) := by push_cast; rfl
  rw [LosesHalf, value_eq_iff hn htie]
  simp only [value_eq_iff hn (hwhole _)]
  -- the greatest number below a half, and the odd integers beyond `2 ^ 52` of either sign
  refine or_congr ?_ ?_
  · cases s with
    | false =>
      rw [signedUnits, if_neg Bool.false_ne_true, and_iff_right rfl]
      omega
    | true =>
      rw [signedUnits, if_pos rfl]
      refine iff_of_false (by omega) fun h => Bool.noConfusion h.1
  · constructor
    · rintro ⟨k, hodd, hlarge, hunits⟩
      rw [Int.abs_eq_natAbs] at hlarge
      refine ⟨k.natAbs, by exact_mod_cast hlarge, Nat.odd_iff.mp (Int.natAbs_odd.mpr hodd), ?_⟩
      have habs := abs_signedUnits s n
      rw [hunits, abs_mul, Nat.abs_cast, Int.abs_eq_natAbs] at habs
      exact_mod_cast habs.symm
    · rintro ⟨m, hm, hodd, rfl⟩
      have hodd : Odd (m : ℤ) := (Int.odd_coe_nat m).mpr (Nat.odd_iff.mpr hodd)
      have hm : 2 ^ 52 < |(m : ℤ)| := by
        rw [Nat.abs_cast]
        exact_mod_cast hm
      cases s with
      | false => exact ⟨m, hodd, hm, Int.natCast_mul ..⟩
      | true =>
        refine ⟨-m, hodd.neg, by rwa [abs_neg], ?_⟩
        rw [signedUnits, if_pos rfl]
        push_cast
        ring

theorem losesHalf_ofNat_iff (hk : m ≤ 2 ^ 53) (hm : 2 ^ 52 ≤ m) :
    LosesHalf (ofNat m hk) ↔ m % 2 = 1 := by
  have htie : ¬ m * one + crumb = 2 * quarter := by
    have hone := one_eq_halves
    have hle : 2 ^ 52 * one ≤ m * one := Nat.mul_le_mul_right _ hm
    have hpos := crumb_pos
    omega
  rw [ofNat, losesHalf_iff, or_iff_right (fun h => htie h.2), isOddBeyond_mul_one hm]

/-- The nearest integer is the whole part of a rounded sum. -/
theorem roundHalfUp_finite (hn : Fits n) :
    Number.roundHalfUp (finite s n hn) =
      .ok ((if signedUnits s n + (2 * quarter : ℕ) < 0 then
          -(roundUnits (signedUnits s n + (2 * quarter : ℕ)).natAbs 1 : ℤ)
        else roundUnits (signedUnits s n + (2 * quarter : ℕ)).natAbs 1) / (one : ℕ)) := by
  obtain ⟨hhalf, hvalue⟩ := half_eq
  obtain ⟨z, hz⟩ := exists_roundHalfUp (x := finite s n hn) rfl
  obtain ⟨t, r, hr, hsum, rfl⟩ := Number.exists_of_floor hz
  have hrank : (finite t r hr).rank = (ofUnits (s && false) (signedUnits s n + (2 * quarter : ℕ))).rank := by
    rw [← hsum, hvalue]
    rfl
  rw [rank_ofUnits, rounded, Nat.min_eq_left (roundUnits_add_half_lt_bound s hn).le] at hrank
  rw [hz, Int.fdiv_eq_ediv_of_nonneg _ (Int.natCast_nonneg _), ← hrank]
  rfl

/-- Every finite number is rounded to the floor of its exact sum with one half, except where a half is lost,
and there to one more. -/
theorem roundHalfUp_eq (hx : x.isFinite) :
    ∃ z, Number.roundHalfUp x = .ok z ∧
      (¬ LosesHalf x → z = ⌊x.value + 1 / 2⌋) ∧ (LosesHalf x → z = ⌊x.value + 1 / 2⌋ + 1) := by
  cases x with
  | nan | infinite => cases hx
  | finite s n hn =>
    have hone := one_eq_halves
    have hpos := one_pos
    refine ⟨_, roundHalfUp_finite hn, ?_⟩
    rw [floor_value_add_half, losesHalf_iff]
    cases s with
    | false =>
      obtain ⟨hlost, hkept⟩ := roundUnits_add_half_div hn
      have hsum : signedUnits false n + (2 * quarter : ℕ) = (n + 2 * quarter : ℕ) := by
        rw [signedUnits, if_neg Bool.false_ne_true, Int.natCast_add]
      rw [hsum, if_neg (by omega), Int.natAbs_natCast, and_iff_right rfl]
      constructor
      · intro h
        exact_mod_cast hkept h
      · intro h
        exact_mod_cast hlost h
    | true =>
      -- one half is taken from the size of a negative number, or is more than that
      rw [or_iff_right (by rintro ⟨h, -⟩; cases h)]
      have hsum : signedUnits true n + (2 * quarter : ℕ) = -(n : ℤ) + (2 * quarter : ℕ) := by
        rw [signedUnits, if_pos rfl]
      rw [hsum]
      rcases Nat.lt_or_ge (2 * quarter) n with hlt | hge
      · obtain ⟨hlost, hkept⟩ := ediv_neg_roundUnits_sub_half hn hlt.le
        have habs : (-(n : ℤ) + (2 * quarter : ℕ)).natAbs = n - 2 * quarter := by omega
        rw [if_pos (by omega), habs]
        exact ⟨hkept, hlost⟩
      · -- what is left of one half is less than `1`, and so it stays
        have habs : (-(n : ℤ) + (2 * quarter : ℕ)).natAbs = 2 * quarter - n := by omega
        have hround : roundUnits (2 * quarter - n) 1 ≤ 2 * quarter :=
          roundUnits_le Nat.one_pos (fits_quarters (by decide)) (by omega)
        have hodd : ¬ IsOddBeyond n := not_isOddBeyond (by omega)
        rw [if_neg (by omega), habs, Int.ediv_eq_zero_of_lt (by omega) (by omega),
          Int.ediv_eq_zero_of_lt (by omega) (by omega)]
        exact ⟨fun _ => rfl, fun h => absurd h hodd⟩

end Monody.Binary64
