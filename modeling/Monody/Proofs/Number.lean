import Monody.Number
import Monody.Proofs.Binary64.Near
import Monody.Proofs.Binary64.Time
import Monody.Proofs.Outcome

/-!
# The order of numbers

Whole numbers and finite reals are compared exactly, so they are in one order, in which each number stands
at a count of units. Taking a number to a real rounds it, which keeps the order but for what becomes the
same real.

## Main definitions

* `Number.rank` — where a number stands
* `Number.IsFinite` — whole numbers and finite reals
* `Number.IsBounded` — numbers that have a finite real

## Main results

* `le_iff_rank`, `lt_iff_rank`, `same_iff_rank` — finite numbers compare as their ranks do
* `toReal_mono` — the reals of numbers are in the order of the numbers
* `le_real_of_le` — what is at most a real is at most every greater one
-/

namespace Monody

open Binary64

-- evaluated, the numbers of units are too long to be looked at
attribute [local irreducible] one bound

variable {p q : Number} {r x y z : Binary64}

namespace Number

/-- A whole number or a finite real. -/
def IsFinite : Number → Prop
  | whole _ => True
  | real x => x.isFinite

theorem isFinite_whole (n : ℤ) : (whole n).IsFinite := trivial

/-- A number with a finite real next to it. -/
def IsBounded (p : Number) : Prop := ∃ x, p.toReal = .ok x ∧ x.isFinite

instance (p : Number) : Decidable p.IsBounded := inferInstanceAs (Decidable (∃ _, _ ∧ _))

theorem isBounded_real (hx : x.isFinite) : (real x).IsBounded := ⟨x, rfl, hx⟩

theorem IsBounded.isFinite (h : p.IsBounded) : p.IsFinite := by
  obtain ⟨x, hx, hfinite⟩ := h
  cases p with
  | whole n => trivial
  | real y =>
    obtain rfl := Except.ok.inj hx
    exact hfinite

theorem realOfInt_eq_ok_iff {k : ℤ} : realOfInt k = .ok x ↔ (ofInt k).isFinite ∧ ofInt k = x := by
  dsimp only [realOfInt]
  split
  · next hfinite => exact ⟨fun h => ⟨hfinite, Except.ok.inj h⟩, fun h => congrArg _ h.2⟩
  · next hfinite => exact ⟨nofun, fun h => absurd h.1 hfinite⟩

/-- Numbers that have reals have a difference. -/
theorem exists_sub (hx : p.toReal = .ok x) (hy : q.toReal = .ok y) : ∃ d, p.sub q = .ok d := by
  cases p with
  | whole m =>
    cases q with
    | whole n => exact ⟨_, rfl⟩
    | real z =>
      rw [sub, hx, hy]
      · exact ⟨_, rfl⟩
      · nofun
  | real z =>
    rw [sub, hx, hy]
    · exact ⟨_, rfl⟩
    · nofun

/-- Where a number stands among the units. -/
def rank : Number → ℤ
  | whole n => n * (one : ℕ)
  | real x => x.rank

/-- Finite numbers compare as their ranks do. -/
theorem order_eq (hp : p.IsFinite) (hq : q.IsFinite) : p.order q = some (compare p.rank q.rank) := by
  cases p with
  | whole m =>
    cases q with
    | whole n =>
      have hpos : (0 : ℤ) < (one : ℕ) := Int.natCast_pos.mpr one_pos
      have hscale := (strictMono_mul_right_of_pos hpos).cmp_map_eq m n
      rw [cmp_eq_compare, cmp_eq_compare] at hscale
      exact congrArg some hscale.symm
    | real y =>
      cases y with
      | nan | infinite => cases hq
      | finite t n hn => rfl
  | real x =>
    cases q with
    | whole n =>
      cases x with
      | nan | infinite => cases hp
      | finite s m hm => rfl
    | real y => exact Binary64.order_eq (ne_nan_of_isFinite hp) (ne_nan_of_isFinite hq)

theorem lt_iff_rank (hp : p.IsFinite) (hq : q.IsFinite) : p < q ↔ p.rank < q.rank := by
  change p.order q = some .lt ↔ _
  rw [order_eq hp hq, Option.some_inj, compare_lt_iff_lt]

theorem same_iff_rank (hp : p.IsFinite) (hq : q.IsFinite) : p.Same q ↔ p.rank = q.rank := by
  change p.order q = some .eq ↔ _
  rw [order_eq hp hq, Option.some_inj, compare_eq_iff_eq]

theorem le_iff_rank (hp : p.IsFinite) (hq : q.IsFinite) : p ≤ q ↔ p.rank ≤ q.rank := by
  change p < q ∨ p.Same q ↔ _
  rw [lt_iff_rank hp hq, same_iff_rank hp hq, le_iff_lt_or_eq]

end Number

/-! ## Rounding -/

namespace Binary64

/-- A finite real is the one next to where it stands. -/
theorem rank_ofUnits_rank (hx : x.isFinite) : (ofUnits false x.rank).rank = x.rank := by
  cases x with
  | nan | infinite => cases hx
  | finite s n hn =>
    rw [rank_ofUnits, rank]
    cases s with
    | false =>
      rw [signedUnits, if_neg Bool.false_ne_true, if_neg (Int.not_lt.mpr (Int.natCast_nonneg n)),
        Int.natAbs_natCast, rounded_of_fits hn]
    | true =>
      rw [signedUnits, if_pos rfl, Int.natAbs_neg, Int.natAbs_natCast, rounded_of_fits hn]
      split
      · rfl
      · omega

theorem isTime_ofInt (k : ℕ) : IsTime (ofInt k) := by
  rw [ofInt_eq_ofRatio]
  exact isTime_ofRatio _ _

/-- Whole numbers stay in order when they are taken to reals. -/
theorem ofInt_le_ofInt {j k : ℕ} (h : j ≤ k) : ofInt j ≤ ofInt k := by
  rw [le_iff_rank (isTime_ofInt j).ne_nan (isTime_ofInt k).ne_nan]
  refine rank_ofUnits_mono false false (Int.mul_le_mul_of_nonneg_right ?_ (Int.natCast_nonneg _))
  exact Int.ofNat_le.mpr h

/-- Times of which neither is later are the same. -/
theorem IsTime.le_antisymm (hx : IsTime x) (hy : IsTime y) (h : x ≤ y) (h' : y ≤ x) : x = y := by
  rw [le_iff_rank hx.ne_nan hy.ne_nan] at h
  rw [le_iff_rank hy.ne_nan hx.ne_nan] at h'
  have hrank := Int.le_antisymm h h'
  cases hx with
  | infinite =>
    cases hy with
    | infinite => rfl
    | @finite n hn => exact absurd (Int.natCast_inj.mp hrank) hn.1.ne'
  | @finite m hm =>
    cases hy with
    | infinite => exact absurd (Int.natCast_inj.mp hrank) hm.1.ne
    | @finite n hn =>
      obtain rfl : m = n := Int.natCast_inj.mp hrank
      rfl

/-- A time that is added to nothing. -/
theorem IsTime.zero_add (hx : IsTime x) : 0 + x = x := by
  cases hx with
  | finite hn => exact zero_add_finite hn
  | infinite =>
    rw [zero_eq]
    rfl

/-- A time that nothing is added to. -/
theorem IsTime.add_zero (hx : IsTime x) : x + 0 = x := by
  rw [Binary64.add_comm, hx.zero_add]

/-- Nothing at a finite rate is nothing. -/
theorem IsTime.zero_mul (hr : IsTime r) (hrate : r.isFinite) : 0 * r = 0 := by
  cases hr with
  | infinite => cases hrate
  | @finite n hn =>
    have hproduct : (0 : Binary64) * .finite false n hn = ofRatio false (0 * n) one := by
      rw [zero_eq]
      rfl
    have hnone : 0 * n = 0 * one := by rw [Nat.zero_mul, Nat.zero_mul]
    rw [hproduct, hnone, ofRatio_mul_self false one_pos fits_zero, zero_eq]

/-- From any time on, what takes longer ends no earlier. -/
theorem IsTime.add_mono (hz : IsTime z) (hx : IsTime x) (hy : IsTime y) (h : x ≤ y) :
    z + x ≤ z + y := by
  cases hz with
  | finite hn => exact hx.add_le_add_left rfl hy h
  | infinite =>
    have hsum {w : Binary64} (hw : IsTime w) : Binary64.infinite false + w = .infinite false := by
      cases hw <;> rfl
    rw [hsum hx, hsum hy]
    exact Binary64.le_refl IsTime.infinite.ne_nan

theorem isTime_half : IsTime Number.half := by
  obtain ⟨hhalf, hvalue⟩ := half_eq
  rw [hvalue]
  exact .finite hhalf

theorem isFinite_half : Number.half.isFinite := by
  obtain ⟨hhalf, hvalue⟩ := half_eq
  rw [hvalue]
  rfl

/-- Reals stay in order when a finite one is added to each. -/
theorem add_le_add_of_le (hx : x.isFinite) (hy : y.isFinite) (hz : z.isFinite) (h : x ≤ y) :
    x + z ≤ y + z := by
  rw [le_iff_rank (ne_nan_of_isFinite hx) (ne_nan_of_isFinite hy)] at h
  rw [le_iff_rank (add_ne_nan hx (ne_nan_of_isFinite hz)) (add_ne_nan hy (ne_nan_of_isFinite hz))]
  cases x with
  | nan | infinite => cases hx
  | finite s m hm =>
    cases y with
    | nan | infinite => cases hy
    | finite t n hn =>
      cases z with
      | nan | infinite => cases hz
      | finite r k hk => exact rank_ofUnits_mono _ _ (Int.add_le_add_right h _)

end Binary64

namespace Number

/-- The real of a number is the one next to where the number stands. -/
theorem rank_of_toReal (hx : p.toReal = .ok x) (hfinite : x.isFinite) :
    x.rank = (ofUnits false p.rank).rank := by
  cases p with
  | whole n =>
    rw [toReal, realOfInt] at hx
    split at hx
    · obtain rfl := Except.ok.inj hx
      rfl
    · cases hx
  | real y =>
    obtain rfl := Except.ok.inj hx
    exact (rank_ofUnits_rank hfinite).symm

/-- The reals of numbers are in the order of the numbers. -/
theorem toReal_mono (hx : p.toReal = .ok x) (hxfinite : x.isFinite) (hy : q.toReal = .ok y)
    (hyfinite : y.isFinite) (h : p ≤ q) : x ≤ y := by
  have hp : p.IsFinite := IsBounded.isFinite ⟨x, hx, hxfinite⟩
  have hq : q.IsFinite := IsBounded.isFinite ⟨y, hy, hyfinite⟩
  rw [le_iff_rank hp hq] at h
  rw [Binary64.le_iff_rank (ne_nan_of_isFinite hxfinite) (ne_nan_of_isFinite hyfinite),
    rank_of_toReal hx hxfinite, rank_of_toReal hy hyfinite]
  exact rank_ofUnits_mono false false h

/-- What is at most a finite real is at most every greater one. -/
theorem le_real_of_le (hx : x.isFinite) (hy : y.isFinite) (h : p ≤ real x) (hle : x ≤ y) :
    p ≤ real y := by
  cases p with
  | real z => exact Binary64.le_trans h hle
  | whole n =>
    rw [Binary64.le_iff_rank (ne_nan_of_isFinite hx) (ne_nan_of_isFinite hy)] at hle
    have hn := isFinite_whole n
    rw [le_iff_rank (q := real x) hn hx] at h
    exact (le_iff_rank (q := real y) hn hy).mpr (h.trans hle)

/-- What is not at most zero is greater than zero, unless it is no number. -/
theorem pos_of_not_le_zero (h : ¬ p ≤ 0) : 0 < p ∨ p = real nan := by
  have hzero := isFinite_whole 0
  by_cases hp : p.IsFinite
  · exact .inl ((lt_iff_rank hzero hp).mpr (not_le.mp fun hle => h ((le_iff_rank hp hzero).mpr hle)))
  · cases p with
    | whole n => exact absurd trivial hp
    | real x =>
      cases x with
      | nan => exact .inr rfl
      | infinite s =>
        cases s with
        | false => exact .inl rfl
        | true => exact absurd (.inl rfl) h
      | finite s n hn => exact absurd rfl hp

/-- The integer nearest to a number that is not negative is not negative. -/
theorem nearest_nonneg {z : ℤ} (hp : p.IsBounded) (h : 0 ≤ p) (hz : p.nearest = .ok z) : 0 ≤ z := by
  obtain ⟨x, hx, hfinite⟩ := hp
  have hzero : (0 : Number).toReal = .ok 0 := if_pos isFinite_zero
  have hsum : 0 ≤ x + half := by
    have hle := add_le_add_of_le isFinite_zero hfinite isFinite_half
      (toReal_mono hzero isFinite_zero hx hfinite h)
    rw [isTime_half.zero_add] at hle
    exact Binary64.le_trans isTime_half.zero_le hle
  rw [nearest, hx] at hz
  obtain ⟨s, n, hn, hvalue, rfl⟩ := exists_of_floor hz
  rw [hvalue, zero_eq, Binary64.le_iff_rank (finite_ne_nan _ _) (finite_ne_nan _ _)] at hsum
  exact Int.fdiv_nonneg hsum (Int.natCast_nonneg _)

end Number

end Monody
