import Monody.Proofs.Binary64.Order

/-!
# Numbers near natural numbers

A number may be known only to lie near a natural number. Adding one half and taking the floor finds
that natural number again, and the difference of two such numbers lies near the difference of the
natural numbers: rounding passes over no quarter, and so a number that is less than a quarter away
stays on its side of the quarters around it.

## Main definitions

* `Near` — at most a given part of `1` away from a natural number

## Main results

* `Near.roundHalfUp` — the natural number is found again
* `Near.sub` — differences are near differences
* `exists_roundHalfUp` — every finite number has a nearest integer
-/

namespace Monody.Binary64

variable {j k m n parts : ℕ} {x y : Binary64}

/-- The number of units in a quarter. -/
def quarter : ℕ := 2 ^ (unitPlaces - 2)

theorem one_eq_quarters : one = 4 * quarter := by
  have hplaces : unitPlaces = 2 + (unitPlaces - 2) := rfl
  have hfour : 4 = 2 ^ 2 := rfl
  rw [quarter, hfour, ← Nat.pow_add]
  exact one_eq.trans (congrArg (HPow.hPow 2) hplaces)

theorem fits_quarters (hk : k ≤ 2 ^ 53) : Fits (k * quarter) :=
  fits_mul_two_pow hk (by decide)

/-- The greatest finite number, in units. -/
def greatest : ℕ := (2 ^ 53 - 1) * 2 ^ (rangePlaces - 53)

/-- One half is too little to leave the range. -/
theorem roundUnits_greatest_lt : roundUnits (greatest + 2 * quarter) 1 < bound := by decide +kernel

-- evaluated, the numbers of units are too long to be looked at
attribute [local irreducible] one bound quarter

theorem half_eq : ∃ hn, Number.half = .finite false (2 * quarter) hn := by
  have htwice : one = 2 * quarter * 2 := by
    rw [one_eq_quarters]
    omega
  rw [Number.half, htwice]
  exact ⟨fits_quarters (by decide), ofRatio_mul_self false Nat.two_pos _⟩

/-- Finite, not negative, and at most one of some equal parts of `1` away from a natural number. -/
inductive Near (parts : ℕ) : Binary64 → ℕ → Prop
  | intro {n k : ℕ} (hn : Fits n) (hlow : k * one * parts ≤ n * parts + one)
      (hhigh : n * parts ≤ k * one * parts + one) : Near parts (.finite false n hn) k

theorem near_ofNat (hk : k ≤ 2 ^ 53) : Near parts (ofNat k hk) k :=
  .intro _ (Nat.le_add_right ..) (Nat.le_add_right ..)

/-- A quotient between two numbers of quarters is rounded to a number between them. -/
theorem ofRatio_of_quarters (low high : ℕ) (hlow : low * quarter ≤ m) (hhigh : m ≤ high * quarter)
    (hle : low ≤ high) (hsmall : high ≤ 2 ^ 53) :
    ∃ r hr, ofRatio false m 1 = .finite false r hr ∧ low * quarter ≤ r ∧ r ≤ high * quarter := by
  rw [← Nat.mul_one (_ * quarter)] at hlow hhigh
  obtain ⟨hr, hround, hroundle⟩ := ofRatio_of_le false Nat.one_pos (fits_quarters hsmall) hhigh
  refine ⟨_, hr, hround, ?_, hroundle⟩
  exact le_roundUnits Nat.one_pos (fits_quarters (hle.trans hsmall)) hlow

namespace Near

/-- With one half added, a number is less than one half and at least a quarter past its natural
number. -/
theorem add_half (h : Near 4 x k) (hk : k ≤ 2 ^ 50) :
    ∃ r hr, x + Number.half = .finite false r hr ∧
      k * one * 4 + one ≤ r * 4 ∧ r * 4 ≤ k * one * 4 + 3 * one := by
  cases h with
  | @intro n _ hn hlow hhigh =>
    obtain ⟨hhalf, hvalue⟩ := half_eq
    have hquarters := one_eq_quarters
    have hscale : k * one = 4 * k * quarter := by
      rw [hquarters, Nat.mul_left_comm, Nat.mul_assoc]
    have hlowest : (4 * k + 1) * quarter = 4 * k * quarter + quarter := Nat.succ_mul ..
    have hhighest : (4 * k + 3) * quarter = 4 * k * quarter + 3 * quarter := Nat.add_mul ..
    obtain ⟨r, hr, hround, hrlow, hrhigh⟩ : ∃ r hr, ofRatio false (n + 2 * quarter) 1 =
        .finite false r hr ∧ (4 * k + 1) * quarter ≤ r ∧ r ≤ (4 * k + 3) * quarter :=
      ofRatio_of_quarters _ _ (by omega) (by omega) (by omega) (by omega)
    refine ⟨r, hr, ?_, by omega, by omega⟩
    rw [hvalue, finite_add_finite, hround]

/-- Rounding a half up finds the natural number that a number lies near. -/
theorem roundHalfUp (h : Near 4 x k) (hk : k ≤ 2 ^ 50) : Number.roundHalfUp x = .ok k := by
  obtain ⟨r, hr, hsum, hlow, hhigh⟩ := h.add_half hk
  have hfloor : (finite false r hr).floor? = some (k : ℤ) := by
    have hdiv : r / one = k := by
      have hpos := one_pos
      refine Nat.div_eq_of_lt_le (by omega) ?_
      rw [Nat.add_mul, Nat.one_mul]
      omega
    have hfdiv : (r : ℤ).fdiv (one : ℕ) = k := by
      rw [Int.fdiv_eq_ediv_of_nonneg _ (Int.natCast_nonneg _), ← Int.natCast_div, hdiv]
    exact congrArg some hfdiv
  rw [Number.roundHalfUp, hsum, Number.floor, hfloor]
  rfl

/-- The difference of two numbers is near the difference of their natural numbers. -/
theorem sub (hx : Near 16 x j) (hy : Near 16 y k) (hlt : k < j) (hj : j ≤ 2 ^ 50) :
    Near 4 (x - y) (j - k) := by
  cases hx with
  | @intro m _ hm hmlow hmhigh =>
    cases hy with
    | @intro n _ hn hnlow hnhigh =>
      obtain ⟨d, rfl⟩ : ∃ d, j = k + 1 + d := ⟨j - (k + 1), by omega⟩
      have hquarters := one_eq_quarters
      have hpos := one_pos
      have hscale : (k + 1 + d) * one = k * one + one + 4 * d * quarter := by
        rw [Nat.add_mul, Nat.succ_mul, Nat.mul_right_comm, ← hquarters, Nat.mul_comm d]
      have hlowest : (4 * d + 3) * quarter = 4 * d * quarter + 3 * quarter := Nat.add_mul ..
      have hhighest : (4 * d + 5) * quarter = 4 * d * quarter + 5 * quarter := Nat.add_mul ..
      have hdifference : (d + 1) * one = 4 * d * quarter + one := by
        rw [Nat.succ_mul, Nat.mul_right_comm, ← hquarters, Nat.mul_comm d]
      -- in quarters: two errors of a sixteenth and one rounding stay within one of them
      obtain ⟨r, hr, hround, hrlow, hrhigh⟩ : ∃ r hr, ofRatio false (m - n) 1 =
          .finite false r hr ∧ (4 * d + 3) * quarter ≤ r ∧ r ≤ (4 * d + 5) * quarter :=
        ofRatio_of_quarters _ _ (by omega) (by omega) (by omega) (by omega)
      rw [finite_sub_finite hm hn (by omega), hround, show k + 1 + d - k = d + 1 by omega]
      exact .intro hr (by omega) (by omega)

/-! ## Comparisons -/

theorem weaken (h : Near 16 x k) : Near 4 x k := by
  cases h with
  | intro hn hlow hhigh => exact .intro hn (by omega) (by omega)

theorem order_gt (hx : Near 16 x j) (hy : Near 16 y k) (hlt : k < j) :
    Number.order (.real x) (.real y) = some .gt := by
  cases hx with
  | @intro m _ hm hmlow _ =>
    cases hy with
    | @intro n _ hn _ hnhigh =>
      have hpos := one_pos
      have hone : (k + 1) * one ≤ j * one := Nat.mul_le_mul_right _ hlt
      rw [Nat.succ_mul] at hone
      have hunits : n < m := by omega
      exact congrArg some (compare_gt_iff_gt.mpr (Int.ofNat_lt.mpr hunits))

/-- A number is reached from one half past a natural number that is not smaller. -/
theorem le_add_half (hx : Near 16 x j) (hy : Near 16 y k) (hle : j ≤ k) (hk : k ≤ 2 ^ 50) :
    Number.real x ≤ .real (y + Number.half) := by
  obtain ⟨r, hr, hsum, hlow, -⟩ := hy.weaken.add_half hk
  cases hx with
  | @intro m _ hm _ hmhigh =>
    have hmul : j * one ≤ k * one := Nat.mul_le_mul_right _ hle
    have hunits : m < r := by
      have hpos := one_pos
      omega
    rw [hsum]
    exact .inl (congrArg some (compare_lt_iff_lt.mpr (Int.ofNat_lt.mpr hunits)))

theorem not_le_half (h : Near 4 x k) (hk : 0 < k) : ¬ Number.real x ≤ .real Number.half := by
  cases h with
  | @intro n _ hn hlow _ =>
    obtain ⟨hhalf, hvalue⟩ := half_eq
    have hquarters := one_eq_quarters
    have hpos := one_pos
    have hone : one ≤ k * one := Nat.le_mul_of_pos_left _ hk
    have horder : Number.order (.real (finite false n hn)) (.real Number.half) = some .gt := by
      rw [hvalue]
      exact congrArg some (compare_gt_iff_gt.mpr (Int.ofNat_lt.mpr (by omega)))
    rintro (h | h) <;> rw [horder] at h <;> cases h

end Near

/-- Adding one half to a number below `2 ^ 53` does not pass over it: where halves are lost, the number
is whole. -/
theorem add_half_le (hn : Fits n) (h : n < 2 ^ 53 * one) : n + 2 * quarter ≤ 2 ^ 53 * one := by
  have hquarters := one_eq_quarters
  have hpos := one_pos
  -- otherwise the number is so large that it is whole, and the next whole number is not passed
  by_contra hlt
  have hlarge : 2 ^ (52 + unitPlaces) ≤ n := by
    rw [Nat.pow_add, ← one_eq]
    omega
  have hne : n ≠ 0 := ((Nat.two_pow_pos _).trans_le hlarge).ne'
  have hlog : 52 + unitPlaces ≤ n.log2 := (Nat.le_log2 hne).mpr hlarge
  obtain ⟨m, rfl⟩ : one ∣ n := by
    rw [one_eq]
    exact (Nat.pow_dvd_pow 2 (Nat.le_sub_of_add_le' hlog)).trans hn.isShort
  rw [Nat.mul_comm one] at h hlt
  have hm : m + 1 ≤ 2 ^ 53 := Nat.lt_of_mul_lt_mul_right h
  have hmul := Nat.mul_le_mul_right one hm
  rw [Nat.succ_mul] at hmul
  omega

/-- What is below `2 ^ 53` is rounded to an integer that is not beyond it. -/
theorem roundHalfUp_le {z : ℤ} (hlt : Number.real x < .whole (2 ^ 53))
    (h : Number.roundHalfUp x = .ok z) : z ≤ 2 ^ 53 := by
  obtain ⟨hhalf, hvalue⟩ := half_eq
  have hquarters := one_eq_quarters
  have hone : (0 : ℤ) < (one : ℕ) := Int.natCast_pos.mpr one_pos
  obtain ⟨t, r, hr, hround, rfl⟩ := Number.exists_of_floor h
  rw [hvalue] at hround
  cases x with
  | nan => cases hround
  | infinite => cases hround
  | finite s n hn =>
    -- below `2 ^ 53` the exact sum with a half is at most `2 ^ 53`, and so is what it is rounded to
    have hunits : signedUnits s n < 2 ^ 53 * (one : ℕ) := compare_lt_iff_lt.mp (Option.some.inj hlt)
    have hsum : signedUnits s n + (2 * quarter : ℕ) ≤ (2 ^ 53 * one : ℕ) := by
      cases s with
      | false =>
        have hn' : ((n : ℕ) : ℤ) < (2 ^ 53 * one : ℕ) := by
          push_cast
          exact hunits
        exact Int.ofNat_le.mpr (add_half_le hn (Int.ofNat_lt.mp hn'))
      | true =>
        have hnonpos : signedUnits true n ≤ 0 := Int.neg_nonpos_of_nonneg (Int.natCast_nonneg n)
        omega
    have hrank : (finite t r hr).rank ≤ (2 ^ 53 * one : ℕ) := by
      rw [← hround]
      exact rank_ofUnits_le (s && false) (fits_mul_one le_rfl) hsum
    have hfloor := Int.ediv_le_ediv hone hrank
    rw [Int.fdiv_eq_ediv_of_nonneg _ hone.le]
    refine hfloor.trans (le_of_eq ?_)
    push_cast
    exact Int.mul_ediv_cancel _ hone.ne'

theorem zero_le_half : Number.real 0 ≤ .real Number.half := by
  decide +kernel

/-! ## The end of the range -/

theorem le_greatest (hn : Fits n) : n ≤ greatest := by
  have hlt : n < bound := hn.1
  rw [bound_eq] at hlt
  rw [greatest]
  obtain ⟨place, hplace⟩ : ∃ place, rangePlaces = place + 53 := ⟨rangePlaces - 53, rfl⟩
  rw [hplace] at hlt ⊢
  rw [Nat.add_sub_cancel]
  rcases Nat.lt_or_ge n (2 ^ (place + 52)) with hlow | hhigh
  · rw [Nat.pow_add, Nat.mul_comm] at hlow
    exact hlow.le.trans (Nat.mul_le_mul_right _ (by decide))
  · -- the last of 53 digits stands in the highest place it can
    have hne : n ≠ 0 := ((Nat.two_pow_pos _).trans_le hhigh).ne'
    have hlog : place + 52 ≤ n.log2 := (Nat.le_log2 hne).mpr hhigh
    obtain ⟨c, rfl⟩ : 2 ^ place ∣ n := (Nat.pow_dvd_pow 2 (by omega)).trans hn.isShort
    rw [Nat.pow_add] at hlt
    have hc : c < 2 ^ 53 := Nat.lt_of_mul_lt_mul_left hlt
    rw [Nat.mul_comm]
    exact Nat.mul_le_mul_right _ (by omega)

/-- With one half added, a number is rounded within the range. -/
theorem roundUnits_add_half_lt_bound (negative : Bool) (hn : Fits n) :
    roundUnits (signedUnits negative n + (2 * quarter : ℕ)).natAbs 1 < bound := by
  have habs : (signedUnits negative n + (2 * quarter : ℕ)).natAbs ≤ greatest + 2 * quarter := by
    have hle := le_greatest hn
    cases negative <;> simp only [signedUnits, Bool.false_eq_true, if_true, if_false] <;> omega
  exact (roundUnits_mono Nat.one_pos habs).trans_lt roundUnits_greatest_lt

/-- A number stays finite when one half is added. -/
theorem isFinite_add_half (hx : x.isFinite) : (x + Number.half).isFinite := by
  cases x with
  | nan | infinite => cases hx
  | finite s n hn =>
    obtain ⟨hhalf, hvalue⟩ := half_eq
    have hlt := roundUnits_add_half_lt_bound s hn
    rw [hvalue]
    change (ofRatio _ (signedUnits s n + (2 * quarter : ℕ)).natAbs 1).isFinite
    rw [ofRatio, dif_pos hlt]
    rfl

/-- Every finite number has a nearest integer. -/
theorem exists_roundHalfUp (hx : x.isFinite) : ∃ z, Number.roundHalfUp x = .ok z := by
  have hsum := isFinite_add_half hx
  rw [Number.roundHalfUp]
  generalize x + Number.half = y at hsum
  cases y with
  | nan | infinite => cases hsum
  | finite => exact ⟨_, rfl⟩

end Monody.Binary64
