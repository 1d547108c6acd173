import Monody.Proofs.Binary64.Near
import Monody.Proofs.Binary64.Time

/-!
# Within the range

A product or a quotient of finite numbers may be infinite. Powers of two that bound the numbers tell
where it is not: rounding does not pass over a power of two, so that the places before the point are
added for a product and subtracted for a quotient, with nothing lost to rounding.

## Main definitions

* `IsUnder` — a finite number that is at most a power of two

## Main results

* `IsUnder.mul`, `IsUnder.div` — the places of products and quotients
* `isFinite_ofInt_succ` — one more than the whole part of a finite number is in range
-/

namespace Monody.Binary64

/-- One is too little to leave the range. -/
theorem roundUnits_greatest_add_one : roundUnits (greatest + one) 1 < bound := by decide +kernel

-- evaluated, the numbers of units are too long to be looked at
attribute [local irreducible] one bound

variable {i j k n num den : ℕ} {r x y : Binary64}

/-- One more than the whole part of a finite number is in range. -/
theorem isFinite_ofInt_succ (hn : Fits n) (hk : k * one ≤ n) : (ofInt (k + 1 : ℕ)).isFinite := by
  have hle : (k + 1) * one ≤ greatest + one := by
    have hgreatest := le_greatest hn
    rw [Nat.succ_mul]
    omega
  have hlt := (roundUnits_mono Nat.one_pos hle).trans_lt roundUnits_greatest_add_one
  rw [ofInt_eq_ofRatio, ofRatio, dif_pos hlt]
  rfl

/-! ## Powers of two -/

/-- Finite, not negative, and at most a power of two, in units. -/
inductive IsUnder (j : ℕ) : Binary64 → Prop
  | intro {n : ℕ} (hn : Fits n) (hle : n ≤ 2 ^ j) : IsUnder j (.finite false n hn)

theorem isUnder_of_isFinite (hden : 0 < den) (h : (ofRatio false num den).isFinite)
    (hle : num ≤ 2 ^ k * den) : IsUnder k (ofRatio false num den) := by
  rw [ofRatio] at h ⊢
  split
  · exact .intro _ ((isShort_two_pow k).roundUnits_le hden hle)
  · next hlt =>
    rw [dif_neg hlt] at h
    cases h

/-- A quotient of units below the last power of two is finite. -/
theorem isUnder_ofRatio (hden : 0 < den) (hk : k < rangePlaces) (hle : num ≤ 2 ^ k * den) :
    IsUnder k (ofRatio false num den) := by
  refine isUnder_of_isFinite hden ?_ hle
  have hlt : roundUnits num den < bound := by
    calc roundUnits num den ≤ 2 ^ k := (isShort_two_pow k).roundUnits_le hden hle
      _ < 2 ^ rangePlaces := Nat.pow_lt_pow_right (by decide) hk
      _ = bound := bound_eq.symm
  rw [ofRatio, dif_pos hlt]
  rfl

/-- A finite time is at most the power of two that ends the range. -/
theorem IsTime.isUnder (hx : IsTime x) (hfinite : x.isFinite) : IsUnder rangePlaces x := by
  cases hx with
  | finite hn => exact .intro hn (hn.1.le.trans_eq bound_eq)
  | infinite => cases hfinite

/-- What is not after a finite time is finite. -/
theorem IsTime.isFinite_of_le (hx : IsTime x) (hy : y.isFinite) (h : x ≤ y) : x.isFinite := by
  cases hx with
  | finite => rfl
  | infinite =>
    cases y with
    | nan | infinite => cases hy
    | finite t n hn => rcases h with h | h <;> cases h

/-- At a finite rate, which may be zero, what takes longer counts for no less. -/
theorem IsTime.mul_le_mul_of_isFinite (hx : IsTime x) (hy : IsTime y) (hfinite : y.isFinite) (h : x ≤ y)
    (hr : IsTime r) (hrate : r.isFinite) : IsTime (x * r) ∧ IsTime (y * r) ∧ x * r ≤ y * r := by
  have hxfinite := hx.isFinite_of_le hfinite h
  rw [le_iff_rank hx.ne_nan hy.ne_nan] at h
  cases hx with
  | infinite => cases hxfinite
  | @finite j hj =>
    cases hy with
    | infinite => cases hfinite
    | @finite k hk =>
      cases hr with
      | infinite => cases hrate
      | @finite n hn =>
        have hproduct {i : ℕ} (hi : Fits i) :
            Binary64.finite false i hi * .finite false n hn = ofRatio false (i * n) one := rfl
        have hle : j * n ≤ k * n := Nat.mul_le_mul_right _ (Int.ofNat_le.mp h)
        rw [hproduct, hproduct]
        refine ⟨isTime_ofRatio _ _, isTime_ofRatio _ _, ?_⟩
        rw [le_iff_rank (ofRatio_ne_nan _ _ _) (ofRatio_ne_nan _ _ _), rank_ofRatio, rank_ofRatio]
        exact Int.ofNat_le.mpr (min_le_min_right _ (roundUnits_mono one_pos hle))

/-- The time between two finite times is finite. -/
theorem IsTime.isFinite_sub (hx : IsTime x) (hy : IsTime y) (hfinite : y.isFinite) (h : x ≤ y) :
    (y - x).isFinite := by
  have hxfinite := hx.isFinite_of_le hfinite h
  rw [le_iff_rank hx.ne_nan hy.ne_nan] at h
  cases hy with
  | infinite => cases hfinite
  | @finite n hn =>
    cases hx with
    | infinite => cases hxfinite
    | @finite k hk =>
      rw [finite_sub_finite hn hk (Int.ofNat_le.mp h)]
      obtain ⟨hr, heq, -⟩ := ofRatio_of_le false Nat.one_pos hn (by omega : n - k ≤ n * 1)
      rw [heq]
      rfl

theorem IsUnder.mono (h : IsUnder j x) (hjk : j ≤ k) : IsUnder k x := by
  cases h with
  | intro hn hle => exact .intro hn (hle.trans (Nat.pow_le_pow_right (by decide) hjk))

/-- A whole number with a finite real. -/
theorem isUnder_ofInt (hfinite : (ofInt k).isFinite) (hle : k ≤ 2 ^ j) :
    IsUnder (j + unitPlaces) (ofInt k) := by
  rw [ofInt_eq_ofRatio] at hfinite ⊢
  refine isUnder_of_isFinite Nat.one_pos hfinite ?_
  rw [Nat.mul_one, Nat.pow_add, ← one_eq]
  exact Nat.mul_le_mul_right _ hle

theorem isUnder_half : IsUnder unitPlaces Number.half := by
  refine isUnder_ofRatio Nat.two_pos (by decide) ?_
  rw [← one_eq]
  exact Nat.le_mul_of_pos_right _ Nat.two_pos

namespace IsUnder

theorem isTime (h : IsUnder j x) : IsTime x := by
  cases h with
  | intro hn => exact .finite hn

theorem isFinite (h : IsUnder j x) : x.isFinite := by
  cases h
  rfl

/-- A finite sum has at most one place more than its terms. -/
theorem add (hx : IsUnder j x) (hy : IsUnder j y) (hfinite : (x + y).isFinite) :
    IsUnder (j + 1) (x + y) := by
  cases hx with
  | @intro m hm hmle =>
    cases hy with
    | @intro n hn hnle =>
      rw [finite_add_finite] at hfinite ⊢
      refine isUnder_of_isFinite Nat.one_pos hfinite ?_
      rw [Nat.pow_succ]
      omega

/-- The places of a product are those of its factors. -/
theorem mul (hx : IsUnder i x) (hy : IsUnder j y) (hplaces : i + j ≤ k + unitPlaces)
    (hk : k < rangePlaces) : IsUnder k (x * y) := by
  cases hx with
  | @intro m hm hmle =>
    cases hy with
    | @intro n hn hnle =>
      have hproduct : finite false m hm * finite false n hn = ofRatio false (m * n) one := rfl
      rw [hproduct]
      refine isUnder_ofRatio one_pos hk ?_
      calc m * n ≤ 2 ^ i * 2 ^ j := Nat.mul_le_mul hmle hnle
        _ = 2 ^ (i + j) := (Nat.pow_add ..).symm
        _ ≤ 2 ^ (k + unitPlaces) := Nat.pow_le_pow_right (by decide) hplaces
        _ = 2 ^ k * one := by rw [Nat.pow_add, ← one_eq]

/-- The places of a finite quotient are those that the divisor leaves. -/
theorem div (hx : IsUnder i x) (hn : Fits n) (hj : 2 ^ j ≤ n) (hplaces : i + unitPlaces ≤ k + j)
    (hfinite : (x / finite false n hn).isFinite) : IsUnder k (x / finite false n hn) := by
  have hpos : 0 < n := (Nat.two_pow_pos j).trans_le hj
  cases hx with
  | @intro m hm hle =>
    have hquotient : finite false m hm / finite false n hn = ofRatio false (m * one) n :=
      if_neg hpos.ne'
    rw [hquotient] at hfinite ⊢
    refine isUnder_of_isFinite hpos hfinite ?_
    calc m * one ≤ 2 ^ i * 2 ^ unitPlaces := Nat.mul_le_mul hle one_eq.le
      _ = 2 ^ (i + unitPlaces) := (Nat.pow_add ..).symm
      _ ≤ 2 ^ (k + j) := Nat.pow_le_pow_right (by decide) hplaces
      _ = 2 ^ k * 2 ^ j := Nat.pow_add ..
      _ ≤ 2 ^ k * n := Nat.mul_le_mul_left _ hj

/-- A quotient by a number that is at least one has no more places. -/
theorem div_of_one_le (hx : IsUnder k x) (hk : k < rangePlaces) (hn : Fits n) (hone : one ≤ n) :
    IsUnder k (x / .finite false n hn) := by
  have hpos : 0 < n := one_pos.trans_le hone
  cases hx with
  | @intro m hm hle =>
    have hquotient : finite false m hm / finite false n hn = ofRatio false (m * one) n :=
      if_neg hpos.ne'
    rw [hquotient]
    exact isUnder_ofRatio hpos hk (Nat.mul_le_mul hle hone)

end IsUnder

end Monody.Binary64
