import Monody.Number
import Monody.Proofs.Binary64.Order

/-!
# Times

A time is a number that is not negative, or it is infinite. Sums of times, the later of two times and
a time at a positive speed are times again, and rounding keeps them in order.

## Main definitions

* `IsTime` — a number that is not negative, or infinite
* `latest` — the latest of some times
* `IsMoment` — a number after which something can be due
* `NoLater` — what is due no later, numbers or not

## Main results

* `IsTime.div_le_div`, `IsTime.add_le_add_left` — calculations keep the order of times
* `le_latest` — none of some times is after the latest
* `IsMoment.add` — a time after a moment is a moment
* `IsTime.noLater_add` — what takes longer does not end earlier
* `Number.pos_of_toReal` — a positive number that has a real has a positive one
-/

namespace Monody

open Binary64

-- evaluated, the numbers of units are too long to be looked at
attribute [local irreducible] one bound

namespace Binary64

variable {n : ℕ} {k : ℤ} {x y : Binary64} {xs : List Binary64}

/-- Not negative, or beyond every finite number. -/
inductive IsTime : Binary64 → Prop
  | finite {n : ℕ} (hn : Fits n) : IsTime (.finite false n hn)
  | infinite : IsTime (.infinite false)

theorem real_le_whole_iff (hn : Fits n) :
    Number.real (.finite false n hn) ≤ .whole k ↔ (n : ℤ) ≤ k * (one : ℕ) := by
  have horder : Number.order (.real (.finite false n hn)) (.whole k) =
      some (compare (n : ℤ) (k * (one : ℕ))) := rfl
  constructor
  · rintro (h | h)
    · exact (compare_lt_iff_lt.mp (Option.some.inj (horder.symm.trans h))).le
    · exact (compare_eq_iff_eq.mp (Option.some.inj (horder.symm.trans h))).le
  · intro h
    rcases h.lt_or_eq with hlt | heq
    · exact .inl (horder.trans (congrArg some (compare_lt_iff_lt.mpr hlt)))
    · exact .inr (horder.trans (congrArg some (compare_eq_iff_eq.mpr heq)))

theorem not_infinite_le_whole : ¬ Number.real (.infinite false) ≤ .whole k := by
  rintro (h | h) <;> cases h

/-- A natural number that is added to another is bounded with their sum, which is then exact. -/
theorem ofNat_add_le {t d bound : ℕ} (ht : t ≤ 2 ^ 52) (hbound : bound ≤ 2 ^ 52) (hd : Fits (d * one))
    (h : Number.real (.ofInt t + .finite false (d * one) hd) ≤ .whole bound) :
    t + d ≤ bound ∧ Binary64.ofInt t + .finite false (d * one) hd = .ofInt ((t + d : ℕ) : ℤ) := by
  have hpos := Binary64.one_pos
  -- the rounded sum is no less than the duration alone, so that the sum is small enough to be exact
  have hdbound : d ≤ bound := by
    have hle : d * one ≤ roundUnits (t * one + d * one) 1 :=
      le_roundUnits Nat.one_pos hd (by omega)
    rw [ofInt_natCast (by omega), ofNat, finite_add_finite, ofRatio] at h
    split at h
    · rw [real_le_whole_iff] at h
      exact Nat.le_of_mul_le_mul_right (hle.trans (by exact_mod_cast h)) hpos
    · exact absurd h not_infinite_le_whole
  have hsum : Binary64.ofInt t + .finite false (d * one) hd = ofNat (t + d) (by omega) := by
    rw [ofInt_natCast (by omega)]
    exact ofNat_add_ofNat _ (by omega) _
  refine ⟨?_, by rw [hsum, ofInt_natCast]⟩
  rw [hsum, ofNat, real_le_whole_iff] at h
  exact Nat.le_of_mul_le_mul_right (by exact_mod_cast h) hpos

theorem isTime_zero : IsTime 0 := zero_eq ▸ .finite fits_zero

theorem finite_ne_nan (negative : Bool) (hn : Fits n) : Binary64.finite negative n hn ≠ nan := nofun

theorem ofRatio_ne_nan (negative : Bool) (num den : ℕ) : ofRatio negative num den ≠ nan := by
  rw [ofRatio]
  split
  · exact finite_ne_nan _ _
  · intro h
    cases h

theorem ofInt_ne_nan (z : ℤ) : ofInt z ≠ nan := ofRatio_ne_nan _ _ _

theorem ofNat_ne_nan (n : ℕ) : (OfNat.ofNat n : Binary64) ≠ nan := ofInt_ne_nan n

/-- A quotient without a sign is a time. -/
theorem isTime_ofRatio (num den : ℕ) : IsTime (ofRatio false num den) := by
  rw [ofRatio]
  split
  · exact .finite _
  · exact .infinite

/-- A decimal without a sign is a time. -/
theorem isTime_ofDecimal (d : Decimal) : IsTime (ofDecimal false d) := by
  rw [ofDecimal]
  split
  · exact .finite _
  split
  · exact .infinite
  split
  · exact .finite _
  split <;> exact isTime_ofRatio _ _

/-- No number stands beyond the infinite ones. -/
theorem rank_le_bound (x : Binary64) : x.rank ≤ (bound : ℕ) := by
  cases x with
  | nan => exact Int.natCast_nonneg _
  | infinite s =>
    cases s with
    | false => exact Int.le_refl _
    | true => exact (neg_nonpos.mpr (Int.natCast_nonneg _)).trans (Int.natCast_nonneg _)
  | finite s n hn => exact (abs_lt.mp (abs_rank_finite_lt s hn)).2.le

/-- A finite positive number has some units. -/
theorem exists_units_of_pos {r : Binary64} (hfinite : r.isFinite) (hpos : 0 < r) :
    ∃ n hn, r = .finite false n hn ∧ 0 < n := by
  cases r with
  | nan => cases hfinite
  | infinite => cases hfinite
  | finite s n hn =>
    rw [zero_eq, lt_iff_rank (finite_ne_nan _ _) (finite_ne_nan _ _)] at hpos
    cases s with
    | false => exact ⟨n, hn, rfl, Int.natCast_pos.mp hpos⟩
    | true =>
      -- a number with a minus sign has no positive count of units
      have hneg : (0 : ℤ) < -(n : ℤ) := hpos
      omega

theorem add_ne_nan (hx : x.isFinite) (hy : y ≠ nan) : x + y ≠ nan := by
  cases x with
  | nan => cases hx
  | infinite => cases hx
  | finite =>
    cases y with
    | nan => exact absurd rfl hy
    | infinite => exact fun h => by cases h
    | finite => exact ofRatio_ne_nan _ _ _

/-- A negative number counts as none, and anything else is a time. -/
theorem isTime_zero_max (x : Binary64) : IsTime (Binary64.max 0 x) := by
  rw [Binary64.max]
  split
  · next hlt =>
    have hrank := (lt_iff_rank (zero_eq ▸ finite_ne_nan _ _) (ne_nan_of_order hlt).2).mp hlt
    rw [zero_eq] at hrank
    cases x with
    | nan => exact absurd rfl (ne_nan_of_order hlt).2
    | infinite s =>
      cases s with
      | false => exact .infinite
      | true => exact absurd hrank (Int.not_lt.mpr (neg_nonpos.mpr (Int.natCast_nonneg _)))
    | finite s n hn =>
      cases s with
      | false => exact .finite hn
      | true => exact absurd hrank (Int.not_lt.mpr (neg_nonpos.mpr (Int.natCast_nonneg _)))
  · exact isTime_zero

protected theorem add_comm (x y : Binary64) : x + y = y + x := by
  cases x with
  | nan => cases y <;> rfl
  | infinite s =>
    cases y with
    | infinite t => cases s <;> cases t <;> rfl
    | nan | finite => rfl
  | finite s m hm =>
    cases y with
    | finite t n hn =>
      change ofUnits (s && t) (signedUnits s m + signedUnits t n) =
        ofUnits (t && s) (signedUnits t n + signedUnits s m)
      rw [Bool.and_comm, Int.add_comm]
    | nan | infinite => rfl

theorem ne_nan_of_isFinite (hx : x.isFinite) : x ≠ nan := by
  rintro rfl
  cases hx

theorem isFinite_of_isFinite_add (h : (x + y).isFinite) : x.isFinite := by
  cases x with
  | nan => cases h
  | infinite s =>
    cases y with
    | nan => cases h
    | infinite t => cases s <;> cases t <;> cases h
    | finite => cases h
  | finite => rfl

theorem isFinite_of_isFinite_mul (h : (x * y).isFinite) : y.isFinite := by
  cases y with
  | finite => rfl
  | nan => cases x <;> cases h
  | infinite t =>
    cases x with
    | nan | infinite => cases h
    | finite s m hm =>
      have hproduct : Binary64.finite s m hm * .infinite t = if m = 0 then nan else .infinite (s != t) :=
        rfl
      rw [hproduct] at h
      split at h <;> cases h

theorem isFinite_of_isFinite_div (h : (x / y).isFinite) : x.isFinite := by
  cases x with
  | finite => rfl
  | nan => cases h
  | infinite => cases y <;> cases h

namespace IsTime

theorem ne_nan (h : IsTime x) : x ≠ nan := by
  cases h <;> exact fun h => by cases h

theorem zero_le (h : IsTime x) : 0 ≤ x := by
  rw [zero_eq, le_iff_rank (finite_ne_nan _ _) h.ne_nan]
  cases h <;> exact Int.natCast_nonneg _

theorem add (hx : IsTime x) (hy : IsTime y) : IsTime (x + y) := by
  cases hy with
  | infinite => cases hx <;> exact .infinite
  | finite hn =>
    cases hx with
    | infinite => exact .infinite
    | finite hm =>
      rw [finite_add_finite]
      exact isTime_ofRatio _ _

/-- A time is never counted as none for being negative. -/
theorem max_zero (h : IsTime x) : Binary64.max 0 x = x := by
  rw [Binary64.max]
  split
  · rfl
  · next hnot =>
    rw [zero_eq, lt_iff_rank (finite_ne_nan _ _) h.ne_nan] at hnot
    cases h with
    | infinite => exact absurd (Int.natCast_pos.mpr bound_pos) hnot
    | @finite n hn =>
      have hle : ¬ (0 : ℤ) < n := hnot
      obtain rfl : n = 0 := by omega
      exact zero_eq

/-- Adding a time makes nothing earlier. -/
theorem le_add (hx : IsTime x) (hy : IsTime y) : x ≤ x + y := by
  rw [le_iff_rank hx.ne_nan (hx.add hy).ne_nan]
  cases hx with
  | infinite => cases hy <;> exact Int.le_refl _
  | @finite m hm =>
    cases hy with
    | infinite => exact rank_le_bound _
    | @finite n hn =>
      have hself : (Binary64.finite false m hm).rank = (rounded m : ℕ) :=
        congrArg _ (rounded_of_fits hm).symm
      rw [finite_add_finite, hself, rank_ofRatio, ← rounded]
      exact Int.ofNat_le.mpr (rounded_mono (Nat.le_add_right m n))

/-- From any finite time on, what takes longer ends later. -/
theorem add_le_add_left {now : Binary64} (hnow : now.isFinite) (hx : IsTime x) (hy : IsTime y)
    (h : x ≤ y) : now + x ≤ now + y := by
  cases now with
  | nan => cases hnow
  | infinite => cases hnow
  | finite s k hk =>
    rw [le_iff_rank hx.ne_nan hy.ne_nan] at h
    rw [le_iff_rank (add_ne_nan hnow hx.ne_nan) (add_ne_nan hnow hy.ne_nan)]
    cases hy with
    | infinite => exact rank_le_bound _
    | @finite n hn =>
      cases hx with
      | infinite => exact absurd h (Int.not_le.mpr (abs_lt.mp (abs_rank_finite_lt false hn)).2)
      | @finite m hm => exact rank_ofUnits_mono _ _ (Int.add_le_add_left h _)

/-- What starts later ends later, if it takes the same time. -/
theorem add_le_add_right {z : Binary64} (hz : z.isFinite) (hx : IsTime x) (hy : IsTime y)
    (h : x ≤ y) : x + z ≤ y + z := by
  rw [Binary64.add_comm x, Binary64.add_comm y]
  exact hx.add_le_add_left hz hy h

section Rate

variable {r : Binary64} (hr : r.isFinite) (hpos : 0 < r)
include hr hpos

theorem mul (hx : IsTime x) : IsTime (x * r) := by
  obtain ⟨n, hn, rfl, hn0⟩ := exists_units_of_pos hr hpos
  cases hx with
  | infinite =>
    have hproduct : Binary64.infinite false * .finite false n hn = .infinite false := if_neg hn0.ne'
    rw [hproduct]
    exact .infinite
  | @finite m hm => exact isTime_ofRatio _ _

/-- At a finite positive rate, what takes longer counts for more. -/
theorem mul_le_mul (hx : IsTime x) (hy : IsTime y) (h : x ≤ y) : x * r ≤ y * r := by
  have hxr := hx.mul hr hpos
  have hyr := hy.mul hr hpos
  rw [le_iff_rank hx.ne_nan hy.ne_nan] at h
  rw [le_iff_rank hxr.ne_nan hyr.ne_nan]
  obtain ⟨n, hn, rfl, hn0⟩ := exists_units_of_pos hr hpos
  have hproduct {k : ℕ} (hk : Fits k) :
      Binary64.finite false k hk * .finite false n hn = ofRatio false (k * n) one := rfl
  -- only what is infinite itself takes for ever at a finite rate, or is rounded up to that
  cases hy with
  | infinite =>
    have hinfinite : Binary64.infinite false * .finite false n hn = .infinite false := if_neg hn0.ne'
    rw [hinfinite]
    exact rank_le_bound _
  | @finite k hk =>
    cases hx with
    | infinite => exact absurd h (Int.not_le.mpr (abs_lt.mp (abs_rank_finite_lt false hk)).2)
    | @finite m hm =>
      have hle : m * n ≤ k * n := Nat.mul_le_mul_right _ (Int.ofNat_le.mp h)
      rw [hproduct, hproduct, rank_ofRatio, rank_ofRatio]
      exact Int.ofNat_le.mpr (min_le_min_right _ (roundUnits_mono one_pos hle))

theorem div (hx : IsTime x) : IsTime (x / r) := by
  obtain ⟨n, hn, rfl, hn0⟩ := exists_units_of_pos hr hpos
  cases hx with
  | infinite => exact .infinite
  | @finite m hm =>
    have hquotient : Binary64.finite false m hm / .finite false n hn = ofRatio false (m * one) n :=
      if_neg hn0.ne'
    exact hquotient ▸ isTime_ofRatio _ _

/-- At a finite positive speed, what takes longer takes longer. -/
theorem div_le_div (hx : IsTime x) (hy : IsTime y) (h : x ≤ y) : x / r ≤ y / r := by
  have hxr := hx.div hr hpos
  have hyr := hy.div hr hpos
  rw [le_iff_rank hx.ne_nan hy.ne_nan] at h
  rw [le_iff_rank hxr.ne_nan hyr.ne_nan]
  obtain ⟨n, hn, rfl, hn0⟩ := exists_units_of_pos hr hpos
  have hquotient {k : ℕ} (hk : Fits k) :
      Binary64.finite false k hk / .finite false n hn = ofRatio false (k * one) n := if_neg hn0.ne'
  cases hy with
  | infinite => exact rank_le_bound _
  | @finite k hk =>
    cases hx with
    | infinite => exact absurd h (Int.not_le.mpr (abs_lt.mp (abs_rank_finite_lt false hk)).2)
    | @finite m hm =>
      have hle : m * one ≤ k * one := Nat.mul_le_mul_right _ (Int.ofNat_le.mp h)
      rw [hquotient, hquotient, rank_ofRatio, rank_ofRatio]
      exact Int.ofNat_le.mpr (min_le_min_right _ (roundUnits_mono hn0 hle))

end Rate

theorem le_max (hx : IsTime x) (hy : IsTime y) : x ≤ x.max y ∧ y ≤ x.max y := by
  rw [Binary64.max]
  split
  · next hlt => exact ⟨.inl hlt, Binary64.le_refl hy.ne_nan⟩
  · next hnot => exact ⟨Binary64.le_refl hx.ne_nan, (Binary64.not_lt hx.ne_nan hy.ne_nan).mp hnot⟩

theorem max (hx : IsTime x) (hy : IsTime y) : IsTime (x.max y) := by
  rw [Binary64.max]
  split
  · exact hy
  · exact hx

/-- A whole number that bounds a time bounds every earlier one. -/
theorem le_whole_of_le (hx : IsTime x) (hy : IsTime y) (h : x ≤ y) (hk : Number.real y ≤ .whole k) :
    Number.real x ≤ .whole k := by
  rw [le_iff_rank hx.ne_nan hy.ne_nan] at h
  cases hy with
  | infinite => exact absurd hk not_infinite_le_whole
  | @finite n hn =>
    cases hx with
    | infinite => exact absurd h (Int.not_le.mpr (abs_lt.mp (abs_rank_finite_lt false hn)).2)
    | @finite m hm =>
      rw [real_le_whole_iff] at hk ⊢
      exact h.trans hk

theorem foldl_max (hx : IsTime x) (hxs : ∀ y ∈ xs, IsTime y) : IsTime (xs.foldl Binary64.max x) := by
  induction xs generalizing x with
  | nil => exact hx
  | cons y xs ih =>
    obtain ⟨hy, hxs⟩ := List.forall_mem_cons.mp hxs
    exact ih (hx.max hy) hxs

/-- No time is later than the last of them. -/
theorem le_foldl_max (hx : IsTime x) (hxs : ∀ y ∈ xs, IsTime y) :
    x ≤ xs.foldl Binary64.max x ∧ ∀ y ∈ xs, y ≤ xs.foldl Binary64.max x := by
  induction xs generalizing x with
  | nil => exact ⟨Binary64.le_refl hx.ne_nan, fun y hy => absurd hy List.not_mem_nil⟩
  | cons y xs ih =>
    obtain ⟨hy, hxs⟩ := List.forall_mem_cons.mp hxs
    obtain ⟨hmax, hrest⟩ := ih (hx.max hy) hxs
    obtain ⟨hlex, hley⟩ := hx.le_max hy
    exact ⟨Binary64.le_trans hlex hmax,
      List.forall_mem_cons.mpr ⟨Binary64.le_trans hley hmax, hrest⟩⟩

end IsTime

/-- The latest of some times, or zero if there is none. -/
def latest : List Binary64 → Binary64
  | [] => 0
  | x :: xs => xs.foldl Binary64.max x

/-- None of some times is after the latest of them. -/
theorem le_latest (hxs : ∀ x ∈ xs, IsTime x) : IsTime (latest xs) ∧ ∀ x ∈ xs, x ≤ latest xs := by
  cases xs with
  | nil => exact ⟨isTime_zero, fun x hx => absurd hx List.not_mem_nil⟩
  | cons x xs =>
    obtain ⟨hx, hxs⟩ := List.forall_mem_cons.mp hxs
    obtain ⟨hle, hall⟩ := hx.le_foldl_max hxs
    exact ⟨hx.foldl_max hxs, List.forall_mem_cons.mpr ⟨hle, hall⟩⟩

/-! ## Moments -/

/-- A moment, after which something can be due: any number but the one before all others. -/
def IsMoment (x : Binary64) : Prop := .infinite true < x

theorem infinite_true_ne_nan : Binary64.infinite true ≠ nan := by
  intro h
  cases h

theorem isMoment_iff : IsMoment x ↔ x ≠ nan ∧ -((bound : ℕ) : ℤ) < x.rank := by
  constructor
  · intro h
    have hx := (ne_nan_of_order h).2
    exact ⟨hx, (lt_iff_rank infinite_true_ne_nan hx).mp h⟩
  · rintro ⟨hx, hrank⟩
    exact (lt_iff_rank infinite_true_ne_nan hx).mpr hrank

theorem isMoment_finite (negative : Bool) (hn : Fits n) : IsMoment (.finite negative n hn) :=
  isMoment_iff.mpr ⟨finite_ne_nan _ _, (abs_lt.mp (abs_rank_finite_lt negative hn)).1⟩

theorem isMoment_infinite : IsMoment (.infinite false) := by
  have hpos : (0 : ℤ) < (bound : ℕ) := Int.natCast_pos.mpr bound_pos
  have hrank : -((bound : ℕ) : ℤ) < (bound : ℕ) := by omega
  exact isMoment_iff.mpr ⟨IsTime.infinite.ne_nan, hrank⟩

/-- Whatever is a number is a moment, but for the one before all others. -/
theorem eq_nan_or_isMoment (h : x ≠ .infinite true) : x = .nan ∨ IsMoment x := by
  cases x with
  | nan => exact .inl rfl
  | finite negative _ hn => exact .inr (isMoment_finite negative hn)
  | infinite negative =>
    cases negative with
    | false => exact .inr isMoment_infinite
    | true => exact absurd rfl h

namespace IsMoment

theorem ne_nan (h : IsMoment x) : x ≠ nan := (isMoment_iff.mp h).1

/-- A moment is finite or after all that are. -/
theorem isFinite_or (h : IsMoment x) : x.isFinite ∨ x = .infinite false := by
  cases x with
  | nan => exact absurd rfl h.ne_nan
  | finite => exact .inl rfl
  | infinite s =>
    cases s with
    | false => exact .inr rfl
    | true => exact absurd h (Binary64.lt_irrefl _)

/-- What is not earlier than a moment is a moment. -/
theorem of_le (hx : IsMoment x) (h : x ≤ y) : IsMoment y := by
  obtain ⟨hxnan, hrank⟩ := isMoment_iff.mp hx
  have hynan := (ne_nan_of_le h).2
  exact isMoment_iff.mpr ⟨hynan, hrank.trans_le ((le_iff_rank hxnan hynan).mp h)⟩

/-- A sum is a moment only if it starts from one. -/
theorem of_add (h : IsMoment (x + y)) : IsMoment x := by
  cases x with
  | nan => exact absurd rfl h.ne_nan
  | finite => exact isMoment_finite _ _
  | infinite s =>
    cases s with
    | false => exact isMoment_infinite
    | true =>
      -- what is added to the number before all others leaves it there, or there is no sum
      cases y with
      | nan => exact absurd rfl h.ne_nan
      | finite => exact absurd h (Binary64.lt_irrefl _)
      | infinite t =>
        cases t with
        | false => exact absurd rfl h.ne_nan
        | true => exact absurd h (Binary64.lt_irrefl _)

/-- Adding what is not negative to a moment makes it no earlier. -/
theorem le_add (hx : IsMoment x) (hy : 0 ≤ y) : x ≤ x + y := by
  have hynan := (ne_nan_of_le hy).2
  have hrank := (le_iff_rank (zero_eq ▸ finite_ne_nan _ _) hynan).mp hy
  rw [zero_eq] at hrank
  have hnegative : y ≠ .infinite true := by
    rintro rfl
    exact absurd (Int.natCast_pos.mpr bound_pos) (Int.not_lt.mpr (Int.neg_nonneg.mp hrank))
  cases x with
  | nan => exact absurd rfl hx.ne_nan
  | infinite s =>
    cases s with
    | true => exact absurd hx (Binary64.lt_irrefl _)
    | false =>
      cases y with
      | nan => exact absurd rfl hynan
      | finite => exact Binary64.le_refl hx.ne_nan
      | infinite t =>
        cases t with
        | false => exact Binary64.le_refl hx.ne_nan
        | true => exact absurd rfl hnegative
  | finite s m hm =>
    rw [le_iff_rank (finite_ne_nan _ _) (add_ne_nan rfl hynan)]
    cases y with
    | nan => exact absurd rfl hynan
    | infinite t =>
      cases t with
      | false => exact rank_le_bound _
      | true => exact absurd rfl hnegative
    | finite t n hn =>
      -- rounding keeps the order of the counts of units
      have hmono := rank_ofUnits_mono (s && t) (s && t) (Int.le_add_of_nonneg_right (a := signedUnits s m) hrank)
      rwa [rank_ofUnits_of_fits _ ((natAbs_signedUnits s m).symm ▸ hm)] at hmono

/-- A moment with a time added is a moment. -/
theorem add (hx : IsMoment x) (hy : IsTime y) : IsMoment (x + y) := hx.of_le (hx.le_add hy.zero_le)

end IsMoment

/-! ## What is due no later -/

/-- Whatever is due after `y` is due after `x`. For numbers this is their order; nothing is due after what
is no number, and so everything is due no later. -/
def NoLater (x y : Binary64) : Prop := ∀ z, y < z → x < z

theorem NoLater.refl (x : Binary64) : NoLater x x := fun _ h => h

theorem NoLater.trans (h : NoLater x y) (h' : NoLater y z) : NoLater x z := fun w hw => h w (h' w hw)

theorem noLater_of_le (h : x ≤ y) : NoLater x y := fun _ h' => Binary64.lt_of_le_of_lt h h'

theorem noLater_nan (x : Binary64) : NoLater x nan := fun _ h => absurd rfl (ne_nan_of_order h).1

/-- Whenever it starts, what takes longer does not end earlier. -/
theorem IsTime.noLater_add (now : Binary64) (hx : IsTime x) (hy : IsTime y) (h : x ≤ y) :
    NoLater (now + x) (now + y) := by
  cases now with
  | nan => exact noLater_nan _
  | finite => exact noLater_of_le (hx.add_le_add_left rfl hy h)
  | infinite s =>
    cases s with
    | false =>
      -- both end when it starts, after all finite numbers
      have hself {z : Binary64} (hz : IsTime z) : Binary64.infinite false + z = .infinite false := by
        cases hz <;> rfl
      rw [hself hx, hself hy]
      exact .refl _
    | true =>
      cases hy with
      | infinite => exact noLater_nan _
      | @finite n hn =>
        cases hx with
        | infinite =>
          rw [le_iff_rank IsTime.infinite.ne_nan (finite_ne_nan false hn)] at h
          exact absurd h (Int.not_le.mpr (abs_lt.mp (abs_rank_finite_lt false hn)).2)
        | finite hm => exact .refl _

end Binary64

namespace Number

variable {p : Number} {x : Binary64}

/-! ## Positive numbers -/

theorem whole_pos {n : ℤ} (hn : 0 < n) : 0 < whole n := congrArg some (compare_lt_iff_lt.mpr hn)

theorem not_le_zero_of_pos (hpos : 0 < p) : ¬ p ≤ 0 := by
  have hswap : p.order 0 = some .gt := by
    cases p with
    | whole n =>
      exact congrArg some (compare_gt_iff_gt.mpr (compare_lt_iff_lt.mp (Option.some.inj hpos)))
    | real x =>
      cases x with
      | nan => cases hpos
      | infinite s =>
        cases s with
        | false => rfl
        | true => cases hpos
      | finite s n hn =>
        exact congrArg some (compare_gt_iff_gt.mpr (compare_lt_iff_lt.mp (Option.some.inj hpos)))
  rintro (hlt | heq)
  · cases hswap.symm.trans hlt
  · cases hswap.symm.trans heq

/-- A positive whole number that has a real is a finite positive one. -/
theorem isFinite_of_realOfInt {n : ℤ} (hn : 0 < n) (h : realOfInt n = .ok x) :
    x.isFinite ∧ 0 < x := by
  obtain ⟨n, rfl⟩ := Int.eq_ofNat_of_zero_le hn.le
  have hreal : (Binary64.ofInt n).isFinite ∧ .ofInt n = x := by
    dsimp only [realOfInt] at h
    split at h
    · next hfinite => exact ⟨hfinite, Except.ok.inj h⟩
    · cases h
  obtain ⟨hfinite, rfl⟩ := hreal
  obtain ⟨units, hunits, heq, hpos, -⟩ := exists_ofInt_eq_finite (Int.natCast_pos.mp hn) hfinite
  refine ⟨hfinite, ?_⟩
  rw [heq, zero_eq, lt_iff_rank (finite_ne_nan _ _) (finite_ne_nan _ _)]
  exact Int.natCast_pos.mpr hpos

/-- A real that is greater than zero among numbers is so among reals. -/
theorem pos_of_real_pos (h : 0 < real x) : 0 < x := by
  cases x with
  | nan => cases h
  | infinite s =>
    cases s with
    | false =>
      rw [zero_eq, lt_iff_rank (finite_ne_nan _ _) IsTime.infinite.ne_nan]
      exact Int.natCast_pos.mpr bound_pos
    | true => cases h
  | finite s n hn =>
    have hlt := compare_lt_iff_lt.mp (Option.some.inj h)
    rw [zero_eq, lt_iff_rank (finite_ne_nan _ _) (finite_ne_nan _ _)]
    exact (Int.zero_mul _).symm.trans_lt hlt

/-- A positive number that has a real has a positive one. -/
theorem pos_of_toReal {n : Number} (hn : 0 < n) (h : n.toReal = .ok x) : 0 < x := by
  cases n with
  | whole n =>
    have hpos := compare_lt_iff_lt.mp (Option.some.inj hn)
    exact (isFinite_of_realOfInt hpos h).2
  | real y =>
    obtain rfl := Except.ok.inj h
    exact pos_of_real_pos hn

/-- A positive number that has a finite real has some units. -/
theorem exists_units_of_toReal (hpos : 0 < p) (hx : p.toReal = .ok x) (hfinite : x.isFinite) :
    ∃ n hn, x = .finite false n hn ∧ 0 < n :=
  exists_units_of_pos hfinite (pos_of_toReal hpos hx)

end Number

end Monody
