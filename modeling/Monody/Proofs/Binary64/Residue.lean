import Monody.Proofs.Binary64.Time

/-!
# What rounding leaves of a difference

Going from one number to another by their rounded difference may miss the other number, as the difference
and the sum are both rounded. Whatever is missed has few digits, though: rounding loses at most the smaller
of two numbers, and what it loses is a multiple of the last place of either. So the rounded difference is
exact when it is taken again, and the second step arrives.

## Main definitions

* `place` — the place of the last digit that a number may have
* `roundInt` — a count of units rounded, with its sign

## Main results

* `abs_roundInt_sub_le` — no number of few digits is nearer than the rounded one
* `isShort_residue` — what is missed has few digits
* `le_add_sub_of_le` — the second step arrives
-/

namespace Monody.Binary64

-- evaluated, the numbers of units are too long to be looked at
attribute [local irreducible] one bound

variable {k n : ℕ} {m z d : ℤ}

/-- The place of the last digit that a count of units may have. -/
def place (z : ℤ) : ℕ := z.natAbs.log2 - 52

theorem lastPlace_natAbs (z : ℤ) : lastPlace z.natAbs 1 = place z := by rw [lastPlace, Nat.div_one, place]

/-- A count of units has at most 53 digits from its last place on. -/
theorem abs_lt_two_pow_place (z : ℤ) : |z| < 2 ^ 53 * 2 ^ place z := by
  have hlog : z.natAbs < 2 ^ 53 * 2 ^ place z := by
    rw [← Nat.pow_add]
    refine Nat.lt_of_lt_of_le Nat.lt_log2_self (Nat.pow_le_pow_right two_pos ?_)
    rw [place]
    omega
  rw [Int.abs_eq_natAbs]
  exact_mod_cast hlog

theorem place_le (h : |z| < 2 ^ 53 * 2 ^ k) : place z ≤ k := by
  rcases eq_or_ne z 0 with rfl | hz
  · exact Nat.zero_le _
  · have hlt : z.natAbs < 2 ^ (53 + k) := by
      rw [Nat.pow_add]
      rw [Int.abs_eq_natAbs] at h
      exact_mod_cast h
    have hlog := (Nat.log2_lt (Int.natAbs_ne_zero.mpr hz)).mpr hlt
    rw [place]
    omega

theorem isShort_natAbs_iff : IsShort z.natAbs ↔ (2 : ℤ) ^ place z ∣ z := by
  rw [IsShort, ← place, ← Int.natCast_dvd]
  norm_num

theorem isShort_of_dvd (hdvd : (2 : ℤ) ^ k ∣ z) (hz : |z| ≤ 2 ^ 53 * 2 ^ k) : IsShort z.natAbs := by
  obtain ⟨q, rfl⟩ := hdvd
  have hpow : (0 : ℤ) < 2 ^ k := by positivity
  have hq : q.natAbs ≤ 2 ^ 53 := by
    rw [abs_mul, abs_of_pos hpow, mul_comm (2 ^ 53)] at hz
    have := Int.le_of_mul_le_mul_left hz hpow
    rw [Int.abs_eq_natAbs] at this
    exact_mod_cast this
  have hshort := two_pow_dvd_of_le (k := k) hq
  rw [Int.natAbs_mul, Int.natAbs_pow, Nat.mul_comm]
  exact hshort

/-- What has few digits is a multiple of its last place, and so less than `2 ^ 53` of them. -/
theorem IsShort.abs_le (hz : IsShort z.natAbs) : |z| ≤ (2 ^ 53 - 1) * 2 ^ place z := by
  obtain ⟨q, hq⟩ := isShort_natAbs_iff.mp hz
  have hlt := abs_lt_two_pow_place z
  have hpow : (0 : ℤ) < 2 ^ place z := by positivity
  generalize (2 : ℤ) ^ place z = p at *
  rw [hq, abs_mul, abs_of_pos hpow, mul_comm] at hlt ⊢
  have hdigits := Int.lt_of_mul_lt_mul_right hlt hpow.le
  exact Int.mul_le_mul_of_nonneg_right (by omega) hpow.le

/-! ## Rounding with a sign -/

/-- A count of units rounded. -/
def roundInt (z : ℤ) : ℤ := z.sign * roundUnits z.natAbs 1

theorem roundInt_neg (z : ℤ) : roundInt (-z) = -roundInt z := by
  rw [roundInt, roundInt, Int.sign_neg, Int.natAbs_neg, neg_mul]

theorem roundInt_natCast (n : ℕ) : roundInt n = roundUnits n 1 := by
  rcases Nat.eq_zero_or_pos n with rfl | hpos
  · have hzero : roundUnits 0 1 = 0 := roundUnits_mul_self (n := 0) Nat.one_pos fits_zero
    simp [roundInt, hzero]
  · rw [roundInt, Int.sign_eq_one_of_pos (by exact_mod_cast hpos), one_mul, Int.natAbs_natCast]

/-- What does not depend on the sign is shown for all integers when it is for natural numbers. -/
theorem forall_of_natCast {p : ℤ → Prop} (hneg : ∀ z, p (-z) → p z) (hnat : ∀ n : ℕ, p n) (z : ℤ) :
    p z := by
  obtain ⟨n, rfl | rfl⟩ := z.eq_nat_or_neg
  · exact hnat n
  · exact hneg _ (by rw [neg_neg]; exact hnat n)

theorem two_pow_place_dvd_roundInt (z : ℤ) : (2 : ℤ) ^ place z ∣ roundInt z := by
  refine Dvd.dvd.mul_left ?_ _
  rw [← lastPlace_natAbs, roundUnits_eq]
  push_cast
  exact Dvd.intro_left _ rfl

/-- The error of rounding is at most half of the last place. -/
theorem two_mul_abs_roundInt_sub_le (z : ℤ) : 2 * |roundInt z - z| ≤ 2 ^ place z := by
  induction z using forall_of_natCast with
  | hneg z ih =>
    rwa [roundInt_neg, place, Int.natAbs_neg, ← place, ← neg_sub', abs_neg] at ih
  | hnat n =>
    have h := two_mul_abs_roundHalfEven_sub_le n (Nat.mul_pos Nat.one_pos (Nat.two_pow_pos (lastPlace n 1)))
    rw [roundInt_natCast, roundUnits_eq, ← lastPlace_natAbs, Int.natAbs_natCast]
    rw [Nat.one_mul] at h ⊢
    exact_mod_cast h

/-- What has only the digits that rounding keeps is not changed. -/
theorem roundInt_of_dvd (hdvd : (2 : ℤ) ^ place z ∣ z) : roundInt z = z := by
  have hself : (2 : ℤ) ^ place z ∣ roundInt z - z := (two_pow_place_dvd_roundInt z).sub hdvd
  have hnear := two_mul_abs_roundInt_sub_le z
  have hpow : (0 : ℤ) < 2 ^ place z := by positivity
  have hzero := Int.eq_zero_of_abs_lt_dvd hself (by omega)
  omega

/-- Rounding keeps the digits that a number has. -/
theorem two_pow_dvd_roundInt (hdvd : (2 : ℤ) ^ k ∣ z) : (2 : ℤ) ^ k ∣ roundInt z := by
  rcases Nat.le_total k (place z) with hle | hle
  · exact (pow_dvd_pow 2 hle).trans (two_pow_place_dvd_roundInt z)
  · rwa [roundInt_of_dvd ((pow_dvd_pow 2 hle).trans hdvd)]

/-- No multiple of the last place is nearer than the rounded one. -/
theorem abs_roundInt_sub_le_of_dvd (hdvd : (2 : ℤ) ^ place z ∣ m) : |roundInt z - z| ≤ |m - z| := by
  have hnear := two_mul_abs_roundInt_sub_le z
  rcases eq_or_ne m (roundInt z) with rfl | hne
  · exact le_rfl
  · -- another multiple is a last place away from the rounded one, which is at most half of it away
    have hapart : (2 : ℤ) ^ place z ≤ |m - roundInt z| :=
      Int.le_of_dvd (abs_pos.mpr (sub_ne_zero.mpr hne))
        ((dvd_abs _ _).mpr (hdvd.sub (two_pow_place_dvd_roundInt z)))
    have htriangle := abs_sub_le m z (roundInt z)
    rw [abs_sub_comm z] at htriangle
    omega

/-- No number of few digits is nearer than the rounded one. -/
theorem abs_roundInt_sub_le (hm : IsShort m.natAbs) (z : ℤ) : |roundInt z - z| ≤ |m - z| := by
  rcases le_or_gt (place z) (place m) with hle | hlt
  · exact abs_roundInt_sub_le_of_dvd ((pow_dvd_pow 2 hle).trans (isShort_natAbs_iff.mp hm))
  · -- a power of two lies between the two, and is nearer
    have hpower : (2 : ℤ) ^ (place z + 52) ≤ |z| := by
      have hlast : 0 < lastPlace z.natAbs 1 := by
        rw [lastPlace_natAbs]
        omega
      have h := two_pow_le_of_lastPlace hlast
      rw [lastPlace_natAbs, Nat.div_one] at h
      rw [Int.abs_eq_natAbs]
      exact_mod_cast h
    have hless : |m| ≤ 2 ^ (place z + 52) := by
      refine (abs_lt_two_pow_place m).le.trans ?_
      rw [← pow_add]
      exact pow_le_pow_right₀ one_le_two (by omega)
    have hdvd : (2 : ℤ) ^ place z ∣ z.sign * 2 ^ (place z + 52) :=
      (pow_dvd_pow 2 (Nat.le_add_right ..)).mul_left _
    refine (abs_roundInt_sub_le_of_dvd hdvd).trans ?_
    have hback : |z.sign * 2 ^ (place z + 52) - z| = |z| - 2 ^ (place z + 52) := by
      have hz : z ≠ 0 := by
        rintro rfl
        exact absurd hlt (Nat.not_lt_zero _)
      have hfactor : z.sign * 2 ^ (place z + 52) - z = z.sign * (2 ^ (place z + 52) - |z|) := by
        rw [mul_sub, Int.sign_mul_abs]
      rw [hfactor, abs_mul, abs_sub_comm, Int.abs_sign_of_ne_zero hz, one_mul, abs_of_nonneg (by omega)]
    have htriangle := abs_sub_abs_le_abs_sub z m
    rw [abs_sub_comm] at htriangle
    omega

/-! ## What is missed -/

/-- What is missed in going from one number to another by their difference has few digits. -/
theorem isShort_residue (hz : IsShort z.natAbs) (hd : IsShort d.natAbs) :
    IsShort (d - roundInt (z + roundInt (d - z))).natAbs := by
  -- rounding the difference loses `e`, which is a multiple of both last places and no more than either number
  obtain ⟨e, he⟩ : ∃ e, roundInt (d - z) = d - z + e := ⟨_, (add_sub_cancel _ _).symm⟩
  have hleft := abs_roundInt_sub_le hd (d - z)
  have hright := abs_roundInt_sub_le (m := -z) (by rwa [Int.natAbs_neg]) (d - z)
  rw [he, add_sub_cancel_left, sub_sub_cancel] at hleft
  rw [he, add_sub_cancel_left, neg_sub_left, sub_add_cancel, abs_neg] at hright
  obtain ⟨k, hkz, hkd, hk⟩ : ∃ k, k ≤ place z ∧ k ≤ place d ∧ |e| ≤ (2 ^ 53 - 1) * 2 ^ k := by
    rcases Nat.le_total (place z) (place d) with hle | hle
    · exact ⟨place z, le_rfl, hle, hleft.trans hz.abs_le⟩
    · exact ⟨place d, hle, le_rfl, hright.trans hd.abs_le⟩
  have hdvdz := (pow_dvd_pow 2 hkz).trans (isShort_natAbs_iff.mp hz)
  have hdvdd := isShort_natAbs_iff.mp hd
  have hdvd : (2 : ℤ) ^ k ∣ e := by
    have hdifference := ((pow_dvd_pow 2 hkd).trans hdvdd).sub hdvdz
    have := (two_pow_dvd_roundInt hdifference).sub hdifference
    rwa [he, add_sub_cancel_left] at this
  have hsum : z + roundInt (d - z) = d + e := by omega
  rw [hsum]
  rcases le_or_gt (place (d + e)) k with hle | hlt
  -- the sum loses nothing more
  · have hexact := roundInt_of_dvd ((pow_dvd_pow 2 hle).trans (((pow_dvd_pow 2 hkd).trans hdvdd).add hdvd))
    rw [hexact, sub_add_cancel_left, Int.natAbs_neg]
    exact isShort_of_dvd hdvd (by omega)
  -- the sum loses `f`, which is at most half of its own last place
  obtain ⟨f, hf⟩ : ∃ f, roundInt (d + e) = d + e + f := ⟨_, (add_sub_cancel _ _).symm⟩
  have hhalf := two_mul_abs_roundInt_sub_le (d + e)
  have hmultiple := two_pow_place_dvd_roundInt (d + e)
  rw [hf] at hhalf hmultiple ⊢
  rw [add_sub_cancel_left] at hhalf
  have hpower : (2 : ℤ) * 2 ^ k ≤ 2 ^ place (d + e) := by
    rw [← pow_succ']
    exact pow_le_pow_right₀ one_le_two hlt
  have hmissed : |d - (d + e + f)| ≤ |e| + |f| := by
    rw [add_assoc, sub_add_cancel_left, abs_neg]
    exact abs_add_le e f
  rcases Nat.le_total (place (d + e)) (place d) with hplace | hplace
  · exact isShort_of_dvd (((pow_dvd_pow 2 hplace).trans hdvdd).sub hmultiple) (by omega)
  · -- a sum is in the place after its larger part at most
    have hnext : place (d + e) ≤ place d + 1 := by
      refine place_le ?_
      have hlarge := abs_lt_two_pow_place d
      have hadd := abs_add_le d e
      rw [pow_succ]
      omega
    have htwice : (2 : ℤ) ^ place (d + e) ≤ 2 * 2 ^ place d := by
      rw [← pow_succ']
      exact pow_le_pow_right₀ one_le_two hnext
    have hless : (2 : ℤ) ^ k ≤ 2 ^ place d := pow_le_pow_right₀ one_le_two hkd
    exact isShort_of_dvd (hdvdd.sub ((pow_dvd_pow 2 hplace).trans hmultiple)) (by omega)

/-! ## Going on to a number -/

section Going

variable {x y t : Binary64}

/-- The units of a finite number fit. -/
theorem fits_rank (hx : x.isFinite) : Fits x.rank.natAbs := by
  cases x with
  | nan | infinite => cases hx
  | finite negative n hn =>
    rw [rank, natAbs_signedUnits]
    exact hn

theorem exists_add_eq (hx : x.isFinite) (hy : y.isFinite) : ∃ s, x + y = ofUnits s (x.rank + y.rank) := by
  cases x with
  | nan | infinite => cases hx
  | finite =>
    cases y with
    | nan | infinite => cases hy
    | finite => exact ⟨_, rfl⟩

theorem exists_sub_eq (hx : x.isFinite) (hy : y.isFinite) : ∃ s, x - y = ofUnits s (x.rank - y.rank) := by
  have hneg : (neg y).isFinite ∧ (neg y).rank = -y.rank := by
    cases y with
    | nan | infinite => cases hy
    | finite negative n hn =>
      cases negative
      · exact ⟨rfl, rfl⟩
      · exact ⟨rfl, (neg_neg _).symm⟩
  rw [sub_eq_add_neg, ← hneg.2]
  exact exists_add_eq hx hneg.1

/-- A count of units is rounded to a finite number, or it is out of range and not zero. -/
theorem ofUnits_eq_or (s : Bool) (z : ℤ) :
    ((ofUnits s z).isFinite ∧ (ofUnits s z).rank = roundInt z) ∨
      (z ≠ 0 ∧ ofUnits s z = .infinite (decide (z < 0))) := by
  rw [ofUnits, ofRatio]
  split
  · refine .inl ⟨rfl, ?_⟩
    rw [rank, roundInt]
    rcases lt_trichotomy z 0 with hneg | rfl | hpos
    · rw [if_neg hneg.ne, decide_eq_true hneg, Int.sign_eq_neg_one_of_neg hneg, neg_one_mul]
      rfl
    · cases s <;> rfl
    · rw [if_neg hpos.ne', decide_eq_false hpos.not_gt, Int.sign_eq_one_of_pos hpos, one_mul]
      rfl
  · next hlarge =>
    have hz : z ≠ 0 := by
      rintro rfl
      exact hlarge bound_pos
    exact .inr ⟨hz, by rw [if_neg hz]⟩

theorem rank_of_isFinite {s : Bool} (h : (ofUnits s z).isFinite) : (ofUnits s z).rank = roundInt z := by
  rcases ofUnits_eq_or s z with ⟨-, hrank⟩ | ⟨-, hinfinite⟩
  · exact hrank
  · rw [hinfinite] at h
    cases h

theorem isMoment_of_isFinite (hx : x.isFinite) : IsMoment x := by
  cases x with
  | nan | infinite => cases hx
  | finite => exact isMoment_finite _ _

/-- No difference to an earlier number is negative. -/
theorem zero_le_sub (hx : x.isFinite) (h : x ≤ y) : 0 ≤ y - x := by
  have hynan := (ne_nan_of_le h).2
  have hrank := (le_iff_rank (ne_nan_of_isFinite hx) hynan).mp h
  cases hy : y.isFinite with
  | true =>
    obtain ⟨s, hsub⟩ := exists_sub_eq hy hx
    have hnan : ofUnits s (y.rank - x.rank) ≠ nan := ofRatio_ne_nan _ _ _
    have hmono := rank_ofUnits_mono false s (a := 0) (b := y.rank - x.rank) (by omega)
    rw [rank_ofUnits_of_fits false (a := 0) fits_zero] at hmono
    rwa [hsub, zero_eq, le_iff_rank (finite_ne_nan _ _) hnan]
  | false =>
    have hbeyond : y = .infinite false :=
      ((isMoment_of_isFinite hx).of_le h).isFinite_or.resolve_left (by rw [hy]; exact Bool.false_ne_true)
    have hsub : y - x = .infinite false := by
      cases x with
      | nan | infinite => cases hx
      | finite => rw [hbeyond]; rfl
    exact hsub ▸ IsTime.infinite.zero_le

/-- Going on to a number by the rounded difference, twice: if the first step has not passed it, the second
arrives. -/
theorem le_add_sub_of_le (hx : x.isFinite) (ht : x + (y - x) = t) (hfinite : t.isFinite) (hle : t ≤ y) :
    y ≤ t + (y - t) := by
  have hstep : (y - x).isFinite := isFinite_of_isFinite_add (Binary64.add_comm x _ ▸ ht ▸ hfinite)
  have hy : y.isFinite := isFinite_of_isFinite_add (y := neg x) hstep
  have hynan := ne_nan_of_isFinite hy
  have hrank : t.rank = roundInt (x.rank + roundInt (y.rank - x.rank)) := by
    obtain ⟨s, hdifference⟩ := exists_sub_eq hy hx
    obtain ⟨s', hsum⟩ := exists_add_eq hx hstep
    rw [hdifference] at hstep
    rw [← rank_of_isFinite hstep, ← hdifference, ← ht, hsum]
    exact rank_of_isFinite (hsum ▸ ht ▸ hfinite)
  have hresidue : IsShort (y.rank - t.rank).natAbs :=
    hrank ▸ isShort_residue (fits_rank hx).isShort (fits_rank hy).isShort
  obtain ⟨s, hrest⟩ := exists_sub_eq hy hfinite
  rcases ofUnits_eq_or s (y.rank - t.rank) with ⟨hsmall, hexact⟩ | ⟨-, hlarge⟩
  · -- what is left is exact, and so is the second step
    rw [roundInt_of_dvd (isShort_natAbs_iff.mp hresidue), ← hrest] at hexact
    obtain ⟨s', hsum⟩ := exists_add_eq hfinite (hrest ▸ hsmall)
    have hnan : ofUnits s' y.rank ≠ nan := ofRatio_ne_nan _ _ _
    rw [hsum, hexact, add_sub_cancel, le_iff_rank hynan hnan, rank_ofUnits_of_fits s' (fits_rank hy)]
  · have hpositive : ¬ y.rank - t.rank < 0 := by
      have hrank := (le_iff_rank (ne_nan_of_isFinite hfinite) hynan).mp hle
      omega
    have hsum : t + .infinite false = .infinite false := by
      cases t with
      | nan | infinite => cases hfinite
      | finite => rfl
    rw [hrest, hlarge, decide_eq_false hpositive, hsum, le_iff_rank hynan IsTime.infinite.ne_nan]
    exact rank_le_bound y

end Going

end Monody.Binary64
