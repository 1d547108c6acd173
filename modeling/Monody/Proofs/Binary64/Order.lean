import Monody.Proofs.Binary64.Whole

/-!
# The order of binary64 numbers

Numbers other than `nan` are in a linear order: each has a rank, which is its count of units, and the
infinities stand just beyond the range.

## Main definitions

* `Binary64.rank` — where a number stands

## Main results

* `order_eq` — numbers compare as their ranks do
* `lt_iff_rank`, `le_iff_rank` — and so they are in a linear order
-/

namespace Monody.Binary64

-- evaluated, the numbers of units are too long to be looked at
attribute [local irreducible] one bound

variable {x y z : Binary64} {m n : ℕ}

/-- Where a number stands among the units. -/
def rank : Binary64 → ℤ
  | nan => 0
  | infinite negative => if negative then -(bound : ℕ) else (bound : ℕ)
  | finite negative n _ => signedUnits negative n

theorem abs_signedUnits (negative : Bool) (n : ℕ) : |signedUnits negative n| = n := by
  cases negative
  · exact abs_of_nonneg (Int.natCast_nonneg n)
  · exact (abs_neg _).trans (abs_of_nonneg (Int.natCast_nonneg n))

theorem natAbs_signedUnits (negative : Bool) (n : ℕ) : (signedUnits negative n).natAbs = n := by
  cases negative
  · rfl
  · exact Int.natAbs_neg n

/-- Finite numbers stand within the range. -/
theorem abs_rank_finite_lt (negative : Bool) (hn : Fits n) :
    |rank (finite negative n hn)| < (bound : ℕ) := by
  rw [rank, abs_signedUnits]
  exact_mod_cast hn.1

/-- Numbers other than `nan` compare as their ranks do. -/
theorem order_eq (hx : x ≠ nan) (hy : y ≠ nan) : x.order y = some (compare x.rank y.rank) := by
  have hbound : (0 : ℤ) < (bound : ℕ) := by exact_mod_cast bound_pos
  have hless : -((bound : ℕ) : ℤ) < (bound : ℕ) := by omega
  -- the units of a finite number are below the rank of an infinity
  cases x with
  | nan => exact absurd rfl hx
  | infinite s =>
    cases y with
    | nan => exact absurd rfl hy
    | infinite t =>
      cases s <;> cases t
      · exact congrArg some (compare_eq_iff_eq.mpr rfl).symm
      · exact congrArg some (compare_gt_iff_gt.mpr hless).symm
      · exact congrArg some (compare_lt_iff_lt.mpr hless).symm
      · exact congrArg some (compare_eq_iff_eq.mpr rfl).symm
    | finite t n hn =>
      obtain ⟨hlow, hhigh⟩ := abs_lt.mp (abs_rank_finite_lt t hn)
      cases s
      · exact congrArg some (compare_gt_iff_gt.mpr hhigh).symm
      · exact congrArg some (compare_lt_iff_lt.mpr hlow).symm
  | finite s m hm =>
    cases y with
    | nan => exact absurd rfl hy
    | infinite t =>
      obtain ⟨hlow, hhigh⟩ := abs_lt.mp (abs_rank_finite_lt s hm)
      cases t
      · exact congrArg some (compare_lt_iff_lt.mpr hhigh).symm
      · exact congrArg some (compare_gt_iff_gt.mpr hlow).symm
    | finite t n hn => rfl

theorem ne_nan_of_order {o : Ordering} (h : x.order y = some o) : x ≠ nan ∧ y ≠ nan := by
  refine ⟨?_, ?_⟩
  · rintro rfl
    cases h
  · rintro rfl
    cases x <;> cases h

theorem ne_nan_of_le (h : x ≤ y) : x ≠ nan ∧ y ≠ nan :=
  h.elim ne_nan_of_order ne_nan_of_order

theorem lt_iff_rank (hx : x ≠ nan) (hy : y ≠ nan) : x < y ↔ x.rank < y.rank := by
  change x.order y = some .lt ↔ _
  rw [order_eq hx hy, Option.some_inj, compare_lt_iff_lt]

theorem same_iff_rank (hx : x ≠ nan) (hy : y ≠ nan) : x.Same y ↔ x.rank = y.rank := by
  change x.order y = some .eq ↔ _
  rw [order_eq hx hy, Option.some_inj, compare_eq_iff_eq]

theorem le_iff_rank (hx : x ≠ nan) (hy : y ≠ nan) : x ≤ y ↔ x.rank ≤ y.rank := by
  change x < y ∨ x.Same y ↔ _
  rw [lt_iff_rank hx hy, same_iff_rank hx hy, le_iff_lt_or_eq]

protected theorem not_lt (hx : x ≠ nan) (hy : y ≠ nan) : ¬ x < y ↔ y ≤ x := by
  rw [lt_iff_rank hx hy, le_iff_rank hy hx, Int.not_lt]

theorem le_of_not_le (hx : x ≠ nan) (hy : y ≠ nan) (h : ¬ x ≤ y) : y ≤ x := by
  rw [le_iff_rank hx hy, Int.not_le] at h
  exact (le_iff_rank hy hx).mpr h.le

protected theorem le_refl (hx : x ≠ nan) : x ≤ x := (le_iff_rank hx hx).mpr (Int.le_refl _)

protected theorem le_trans (h : x ≤ y) (h' : y ≤ z) : x ≤ z := by
  obtain ⟨hx, hy⟩ := ne_nan_of_le h
  have hz := (ne_nan_of_le h').2
  rw [le_iff_rank hx hy] at h
  rw [le_iff_rank hy hz] at h'
  exact (le_iff_rank hx hz).mpr (h.trans h')

protected theorem lt_irrefl (x : Binary64) : ¬ x < x := by
  intro h
  have hx := (ne_nan_of_order h).1
  exact Int.lt_irrefl _ ((lt_iff_rank hx hx).mp h)

protected theorem lt_of_le_of_lt (h : x ≤ y) (h' : y < z) : x < z := by
  obtain ⟨hx, hy⟩ := ne_nan_of_le h
  have hz := (ne_nan_of_order h').2
  rw [le_iff_rank hx hy] at h
  rw [lt_iff_rank hy hz] at h'
  exact (lt_iff_rank hx hz).mpr (h.trans_lt h')

protected theorem lt_of_lt_of_le (h : x < y) (h' : y ≤ z) : x < z := by
  obtain ⟨hy, hz⟩ := ne_nan_of_le h'
  have hx := (ne_nan_of_order h).1
  rw [lt_iff_rank hx hy] at h
  rw [le_iff_rank hy hz] at h'
  exact (lt_iff_rank hx hz).mpr (h.trans_le h')

protected theorem not_lt_of_le (h : x ≤ y) : ¬ y < x :=
  fun h' => Binary64.lt_irrefl x (Binary64.lt_of_le_of_lt h h')

/-! ## Rounding -/

theorem rank_ofRatio (negative : Bool) (num den : ℕ) :
    (ofRatio negative num den).rank = signedUnits negative (min (roundUnits num den) bound) := by
  rw [ofRatio]
  split
  · next hlt => rw [rank, Nat.min_eq_left hlt.le]
  · next hlt =>
    rw [rank, Nat.min_eq_right (Nat.not_lt.mp hlt)]
    cases negative <;> rfl

/-- A count of units rounded, or the end of the range. -/
def rounded (n : ℕ) : ℕ := min (roundUnits n 1) bound

theorem rounded_mono {m n : ℕ} (h : m ≤ n) : rounded m ≤ rounded n :=
  min_le_min_right _ (roundUnits_mono Nat.one_pos h)

theorem rounded_of_fits (hn : Fits n) : rounded n = n := by
  have hself := roundUnits_mul_self Nat.one_pos hn
  rw [Nat.mul_one] at hself
  rw [rounded, hself, Nat.min_eq_left hn.1.le]

theorem rank_ofUnits (s : Bool) (a : ℤ) :
    (ofUnits s a).rank = if a < 0 then -(rounded a.natAbs : ℤ) else rounded a.natAbs := by
  rw [ofUnits, rank_ofRatio, ← rounded]
  rcases lt_trichotomy a 0 with hneg | rfl | hpos
  · rw [if_neg hneg.ne, decide_eq_true hneg, if_pos hneg]
    rfl
  · have hzero : rounded (Int.natAbs 0) = 0 := rounded_of_fits fits_zero
    rw [hzero]
    cases s <;> rfl
  · rw [if_neg hpos.ne', decide_eq_false hpos.not_gt, if_neg hpos.not_gt]
    rfl

/-- What fits is not changed by rounding, whatever its sign. -/
theorem rank_ofUnits_of_fits (s : Bool) {a : ℤ} (ha : Fits a.natAbs) : (ofUnits s a).rank = a := by
  rw [rank_ofUnits, rounded_of_fits ha]
  split <;> omega

/-- Rounding keeps the order. -/
theorem rank_ofUnits_mono (s t : Bool) {a b : ℤ} (h : a ≤ b) :
    (ofUnits s a).rank ≤ (ofUnits t b).rank := by
  rw [rank_ofUnits, rank_ofUnits]
  split
  · next ha =>
    split
    · next hb =>
      have := rounded_mono (show b.natAbs ≤ a.natAbs by omega)
      omega
    · omega
  · next ha =>
    rw [if_neg (by omega)]
    have := rounded_mono (show a.natAbs ≤ b.natAbs by omega)
    omega

/-- What is at most a number that fits is rounded to at most that number. -/
theorem rank_ofUnits_le (s : Bool) {a : ℤ} (hn : Fits n) (h : a ≤ n) : (ofUnits s a).rank ≤ n :=
  (rank_ofUnits_mono s false h).trans (rank_ofUnits_of_fits false (a := n) hn).le

/-- Of the natural numbers, only one below `2 ^ 53` is rounded to itself. -/
theorem eq_of_ofInt_eq {k d : ℕ} (hd : d < 2 ^ 53) (h : ofInt k = ofInt d) : k = d := by
  have hpos : (0 : ℤ) < (one : ℕ) := Int.natCast_pos.mpr one_pos
  have hrank {j : ℕ} (hj : j ≤ 2 ^ 53) : (ofInt j).rank = j * (one : ℕ) := by
    rw [ofInt_natCast hj, ofNat, rank]
    exact Int.natCast_mul ..
  rcases lt_trichotomy k d with hlt | heq | hgt
  · have hunits := congrArg rank h
    rw [hrank (by omega), hrank hd.le] at hunits
    exact absurd (Int.eq_of_mul_eq_mul_right hpos.ne' hunits) (by omega)
  · exact heq
  · -- the next natural number is already beyond
    have hnext : (ofInt (d + 1 : ℕ)).rank ≤ (ofInt k).rank :=
      rank_ofUnits_mono false false (Int.mul_le_mul_of_nonneg_right (by omega) hpos.le)
    rw [h, hrank hd.le, hrank hd] at hnext
    exact absurd (Int.le_of_mul_le_mul_right hnext hpos) (by omega)

end Monody.Binary64
