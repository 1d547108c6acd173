import Monody.Binary64.Decimal
import Monody.Proofs.Binary64.Whole

/-!
# Decimals that read back

A number is written with digits that are read as that number. The search for the fewest digits keeps
only candidates that read back, the exact decimal value reads back, and zeros at the end of a decimal
make no difference.

## Main results

* `ofDecimal_shift` — zeros at the end make no difference
* `ofDecimal_exactDecimal` — the exact value reads back
* `ofDecimal_shortest` — the fewest digits read back
-/

namespace Monody

open Binary64

variable {n k : Nat} {negative : Bool} {d : Decimal} {e : Int}

/-! ## Zeros at the end -/

namespace Decimal

/-- A factor of ten is one more digit. -/
theorem length_digitList_mul_ten (hn : n ≠ 0) :
    (digitList (n * 10)).length = (digitList n).length + 1 := by
  have hten : 10 ≤ n * 10 := Nat.le_mul_of_pos_left _ (Nat.pos_of_ne_zero hn)
  rw [digitList, Nat.toDigits_of_base_le (by decide) hten, List.length_append,
    Nat.mul_div_cancel _ (by decide)]
  rfl

theorem leading_mul_ten (hn : n ≠ 0) : leading ⟨n * 10, e - 1⟩ = leading ⟨n, e⟩ := by
  simp only [leading, length_digitList_mul_ten hn]
  omega

end Decimal

namespace Binary64

attribute [local irreducible] one bound

theorem ofRatio_mul_right (num den : Nat) {c : Nat} (hc : 0 < c) :
    ofRatio negative (num * c) (den * c) = ofRatio negative num den := by
  simp only [ofRatio, roundUnits_mul_right num den hc]

theorem ofDecimal_mul_ten (negative : Bool) (n : ℕ) (e : ℤ) :
    ofDecimal negative ⟨n * 10, e - 1⟩ = ofDecimal negative ⟨n, e⟩ := by
  by_cases hn : n = 0
  · rw [ofDecimal, ofDecimal, if_pos (by simp [hn]), if_pos hn]
  have hten : n * 10 ≠ 0 := Nat.mul_ne_zero hn (by decide)
  rw [ofDecimal, ofDecimal, if_neg hten, if_neg hn, Decimal.leading_mul_ten hn]
  congr 2
  -- the exponent is positive, zero or negative; in the last two cases a factor of ten cancels
  cases e with
  | ofNat k =>
    cases k with
    | zero =>
      have hpred : (Int.ofNat 0 : Int) - 1 = .negSucc 0 := rfl
      have hone : n * Nat.pow 10 0 * one = n * one := by rw [Nat.pow_eq, Nat.pow_zero, Nat.mul_one]
      simp only [hpred]
      rw [hone, ← ofRatio_mul_right (n * one) 1 (show 0 < 10 by decide)]
      congr 1
      ring
    | succ k =>
      have hpred : (Int.ofNat (k + 1) : Int) - 1 = .ofNat k := by simp
      simp only [hpred]
      congr 1
      rw [Nat.pow_eq, Nat.pow_eq, Nat.pow_succ]
      ring
  | negSucc k =>
    have hpred : (Int.negSucc k : Int) - 1 = .negSucc (k + 1) := rfl
    simp only [hpred]
    rw [← ofRatio_mul_right (n * one) _ (show 0 < 10 by decide)]
    congr 1
    ring

/-- Zeros at the end make no difference. -/
theorem ofDecimal_shift (negative : Bool) (n : ℕ) (e : ℤ) (k : ℕ) :
    ofDecimal negative ⟨n * 10 ^ k, e - k⟩ = ofDecimal negative ⟨n, e⟩ := by
  induction k with
  | zero => simp
  | succ k ih =>
    have hdigits : n * 10 ^ (k + 1) = n * 10 ^ k * 10 := by rw [Nat.pow_succ, Nat.mul_assoc]
    have hexponent : e - (k + 1 : ℕ) = e - k - 1 := by push_cast; ring
    rw [hdigits, hexponent, ofDecimal_mul_ten, ih]

theorem ofDecimal_strip (fuel : Nat) :
    ofDecimal negative (Decimal.strip fuel d) = ofDecimal negative d := by
  induction fuel generalizing d with
  | zero => rfl
  | succ fuel ih =>
    simp only [Decimal.strip]
    split
    · next h =>
      have hdigits : d.digits / 10 * 10 = d.digits := Nat.div_mul_cancel (Nat.dvd_of_mod_eq_zero h.2)
      have hstep := ofDecimal_mul_ten negative (d.digits / 10) (d.exponent + 1)
      rw [ih, ← hstep, hdigits, Int.add_sub_cancel]
    · rfl

/-! ## Signs -/

theorem sign_of_ofRatio {num den : ℕ} {s : Bool} {hn : Fits n}
    (h : ofRatio negative num den = .finite s n hn) : s = negative := by
  rw [ofRatio] at h
  split at h
  · cases h
    rfl
  · cases h

/-- A number has the sign that its decimal has. -/
theorem sign_of_ofDecimal {s : Bool} {hn : Fits n} (h : ofDecimal negative d = .finite s n hn) :
    s = negative := by
  rw [ofDecimal] at h
  split at h
  · cases h
    rfl
  split at h
  · cases h
  split at h
  · cases h
    rfl
  split at h
  · exact sign_of_ofRatio h
  · exact sign_of_ofRatio h

/-! ## The exact value -/

/-- Finite numbers have at most 311 digits before the point. -/
theorem two_pow_lt_ten_pow : 2 ^ (rangePlaces - unitPlaces) < 10 ^ 311 := by decide +kernel

theorem ten_pow_unitPlaces : 10 ^ unitPlaces = 5 ^ unitPlaces * one := by
  rw [one_eq, ← Nat.mul_pow]

/-- The number of digits puts a decimal between the two limits beyond which it is not calculated. -/
theorem leading_exactDecimal (hpos : 0 < n) (hn : n < bound) :
    decimalBottom ≤ (exactDecimal n).leading ∧ (exactDecimal n).leading ≤ decimalTop := by
  have hupper : n * 5 ^ unitPlaces < 10 ^ (unitPlaces + 311) := by
    calc n * 5 ^ unitPlaces < bound * 5 ^ unitPlaces :=
          Nat.mul_lt_mul_of_pos_right hn (Nat.pow_pos (by decide))
      _ = 2 ^ (rangePlaces - unitPlaces) * 10 ^ unitPlaces := by
          rw [bound_eq_mul_one, ten_pow_unitPlaces, Nat.mul_comm (5 ^ _), Nat.mul_assoc]
      _ ≤ 10 ^ 311 * 10 ^ unitPlaces := Nat.mul_le_mul_right _ two_pow_lt_ten_pow.le
      _ = 10 ^ (unitPlaces + 311) := by rw [← Nat.pow_add, Nat.add_comm]
  have hlower : ¬ n * 5 ^ unitPlaces < 10 ^ (unitPlaces - 329) := by
    have hlarge : (10 : ℕ) ^ (1074 - 329) ≤ 5 ^ 1074 := by decide +kernel
    exact Nat.not_lt.mpr (hlarge.trans (Nat.le_mul_of_pos_left _ hpos))
  -- the powers of ten around the units give the number of digits
  have hlength : (Decimal.digitList (n * 5 ^ unitPlaces)).length ≤ unitPlaces + 311 :=
    (Nat.length_toDigits_le_iff (by decide) (by decide)).mpr hupper
  have hlength' : ¬ (Decimal.digitList (n * 5 ^ unitPlaces)).length ≤ unitPlaces - 329 :=
    fun h => hlower ((Nat.length_toDigits_le_iff (by decide) (by decide)).mp h)
  have hleading : (exactDecimal n).leading =
      (Decimal.digitList (n * 5 ^ unitPlaces)).length - 1 - (unitPlaces : ℤ) := rfl
  have hplaces : unitPlaces = 1074 := rfl
  rw [hleading, decimalBottom, decimalTop]
  omega

theorem ofDecimal_exactDecimal (hpos : 0 < n) (hn : Fits n) :
    ofDecimal false (exactDecimal n) = .finite false n hn := by
  obtain ⟨hbottom, htop⟩ := leading_exactDecimal hpos hn.1
  have hdigits : (exactDecimal n).digits ≠ 0 :=
    Nat.mul_ne_zero hpos.ne' (Nat.pow_pos (by decide)).ne'
  have hexponent : (exactDecimal n).exponent = .negSucc 1073 := rfl
  rw [ofDecimal, if_neg hdigits, if_neg (not_lt.mpr htop), if_neg (not_lt.mpr hbottom), hexponent]
  have hden : Nat.pow 10 (1073 + 1) = 5 ^ unitPlaces * one := ten_pow_unitPlaces
  have hnum : (exactDecimal n).digits * one = n * (5 ^ unitPlaces * one) := by
    rw [← Nat.mul_assoc]
    rfl
  have hden_pos : 0 < 5 ^ unitPlaces * one := Nat.mul_pos (Nat.pow_pos (by decide)) one_pos
  simp only [hden, hnum]
  exact ofRatio_mul_self false hden_pos hn

/-! ## The fewest digits -/

theorem readsBack_of_candidate (h : candidate n e = some d) : ReadsBack n d := by
  simp only [candidate] at h
  split at h
  · next hlow => exact Option.some.inj h ▸ hlow.1
  · split at h
    · next hhigh => exact Option.some.inj h ▸ hhigh
    · cases h

/-- A decimal that reads back to some units is read as the number of those units. -/
theorem ofDecimal_of_readsBack (hpos : 0 < n) (hn : Fits n) (h : ReadsBack n d) :
    ofDecimal false d = .finite false n hn := by
  rw [ReadsBack] at h
  cases hd : ofDecimal false d with
  | nan => rw [hd] at h; cases h
  | infinite s => rw [hd] at h; cases h
  | finite s m hm =>
    rw [hd] at h
    have hunits : signedUnits s m = n := Option.some.inj h
    cases s with
    | false =>
      have hm' : m = n := Int.ofNat.inj hunits
      subst hm'
      rfl
    | true =>
      have hneg : -(m : ℤ) = n := hunits
      omega

/-- The fewest digits that are looked for read back. -/
theorem ofDecimal_shortest (hpos : 0 < n) (hn : Fits n) :
    ofDecimal false (shortest n) = .finite false n hn := by
  rw [shortest, if_neg hpos.ne']
  dsimp only
  rw [ofDecimal_strip]
  cases hfound : (List.range 17).findSome? fun (i : ℕ) => candidate n (leadingExponent n - i) with
  | none => exact ofDecimal_exactDecimal hpos hn
  | some d =>
    obtain ⟨i, -, hi⟩ := List.exists_of_findSome?_eq_some hfound
    exact ofDecimal_of_readsBack hpos hn (readsBack_of_candidate hi)

end Binary64

end Monody
