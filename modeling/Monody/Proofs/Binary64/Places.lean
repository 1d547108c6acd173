import Mathlib.Algebra.Order.Floor.Div
import Monody.Proofs.Binary64.Ceiling
import Monody.Proofs.Binary64.Midpoint

/-!
# What rounding up makes of noise

A number that is a little more than a whole number is rounded to that number first if its decimal places
are rounded before it is rounded up, and to the next one otherwise. The noise that is removed is half of
the last decimal place: no more and no less, as long as the number has a fractional part. Two roundings
are made on the way, to a decimal and from it, and neither of them moves the boundary, since a decimal
place is coarser than the binary places below one half that a number of this size can have.

## Main results

* `exists_ceil_le_iff` — the least whole number that is not below a finite number
* `lt_roundPlaces_iff` — rounded past a whole number is what has a decimal past it
* `exists_ceil_roundPlaces_le_iff` — the noise that is removed is half of the last decimal place
-/

namespace Monody.Binary64

variable {bits c n places : ℕ}

attribute [local irreducible] one bound

/-- The binary places after the point, and those that are left after them. -/
theorem exists_one_eq (hbits : bits ≤ unitPlaces) :
    ∃ place, one = 2 ^ bits * 2 ^ place ∧ place + 53 < rangePlaces := by
  obtain ⟨place, hplace⟩ := Nat.exists_eq_add_of_le hbits
  refine ⟨place, by rw [one_eq, hplace, Nat.pow_add], ?_⟩
  rw [unitPlaces] at hplace
  rw [rangePlaces]
  omega

/-- A finite number is rounded up to the least whole number that is not below it. -/
theorem exists_ceil_le_iff (hn : Fits n) :
    ∃ k : ℕ, Number.ceil (finite false n hn) = .ok k ∧ ∀ c, k ≤ c ↔ n ≤ c * one := by
  have hle (c : ℕ) : n ⌈/⌉ one ≤ c ↔ n ≤ c * one := by
    rw [ceilDiv_le_iff_le_mul one_pos, Nat.mul_comm]
  refine ⟨n ⌈/⌉ one, ceil_eq ((hle _).mp le_rfl) ?_, hle⟩
  -- one less is not enough
  rcases hk : n ⌈/⌉ one with _ | k
  · have hone := one_pos
    omega
  · have hlt := mt (hle k).mpr (by omega)
    rw [Nat.succ_mul]
    omega

/-- Past a number of as many digits as are kept, the next number is one more in its last place. -/
theorem Fits.succ_mul_le {q place : ℕ} (hn : Fits n) (hq : 2 ^ 52 ≤ q) (h : q * 2 ^ place < n) :
    (q + 1) * 2 ^ place ≤ n := by
  have hne : n ≠ 0 := by omega
  have hplace : 52 + place ≤ n.log2 := by
    rw [Nat.le_log2 hne, Nat.pow_add]
    exact (Nat.mul_le_mul_right _ hq).trans h.le
  obtain ⟨r, rfl⟩ : 2 ^ place ∣ n := (Nat.pow_dvd_pow 2 (by omega)).trans hn.isShort
  rw [Nat.mul_comm] at h ⊢
  apply Nat.mul_le_mul_left
  exact Nat.lt_of_mul_lt_mul_left h

section Places

variable (hn : Fits n) (hlow : 2 ^ bits < 10 ^ places) (hhigh : 10 ^ places ≤ 2 ^ (bits + 1))
  (hbits : bits < 52)

include hlow in
theorem tenPow_even : 10 ^ places % 2 = 0 := by
  cases places with
  | zero =>
    have hpos := Nat.two_pow_pos bits
    omega
  | succ places => omega

/-- What has a decimal past a whole number is past that whole number by half a decimal place. -/
theorem lt_decimal_iff (heven : 10 ^ places % 2 = 0) :
    c * 10 ^ places < roundHalfEven (n * 10 ^ places) one ↔
      (2 * (c * 10 ^ places) + 1) * one < 2 * (n * 10 ^ places) := by
  apply lt_roundHalfEven_iff_of_even one_pos
  rw [Nat.mul_mod, heven, Nat.mul_zero, Nat.zero_mod]

/-- The places that a whole number leaves between the point and the last digit that is kept. -/
theorem exists_gap (hbits : bits < 52) (hlarge : 2 ^ (52 - bits) ≤ c) (hc : c < 2 ^ 52) :
    ∃ gap, 0 < gap ∧ gap ≤ bits ∧ 2 ^ 52 ≤ c * 2 ^ gap ∧ c * 2 ^ gap < 2 ^ 53 := by
  have hne : c ≠ 0 := ((Nat.two_pow_pos _).trans_le hlarge).ne'
  have hlow := (Nat.le_log2 hne).mpr hlarge
  have hhigh := (Nat.log2_lt hne).mpr hc
  refine ⟨52 - c.log2, by omega, by omega, ?_, ?_⟩
  · calc 2 ^ 52 = 2 ^ c.log2 * 2 ^ (52 - c.log2) := by
          rw [← Nat.pow_add]
          congr 1
          omega
      _ ≤ c * 2 ^ (52 - c.log2) := Nat.mul_le_mul_right _ (Nat.log2_self_le hne)
  · calc c * 2 ^ (52 - c.log2) < 2 ^ (c.log2 + 1) * 2 ^ (52 - c.log2) :=
          Nat.mul_lt_mul_of_pos_right Nat.lt_log2_self (Nat.two_pow_pos _)
      _ = 2 ^ 53 := by
          rw [← Nat.pow_add]
          congr 1
          omega

theorem two_mul_le_roundHalfEven (num : ℕ) {den : ℕ} (hden : 0 < den) :
    2 * num ≤ 2 * (roundHalfEven num den * den) + den := by
  have hround := two_mul_abs_roundHalfEven_sub_le num hden
  have habs := neg_abs_le ((roundHalfEven num den : ℤ) * den - num)
  rw [← Nat.cast_mul] at hround habs
  omega

include hhigh hbits in
/-- Past a small whole number there is room for a number before the next decimal. -/
theorem lt_roundUnits_of_small (hsmall : c < 2 ^ (52 - bits)) {digits : ℕ}
    (h : c * 10 ^ places < digits) : c * one < roundUnits (digits * one) (10 ^ places) := by
  obtain ⟨place, hone, hrange⟩ := exists_one_eq (show bits + 1 ≤ unitPlaces by rw [unitPlaces]; omega)
  have hshort : c * 2 ^ (bits + 1) + 1 ≤ 2 ^ 53 := by
    have hpow : 2 ^ (52 - bits) * 2 ^ (bits + 1) = 2 ^ 53 := by
      rw [← Nat.pow_add]
      congr 1
      omega
    have hlt := Nat.mul_lt_mul_of_pos_right hsmall (Nat.two_pow_pos (bits + 1))
    omega
  -- one more in the last place is a number, too, and it is not beyond the next decimal
  have hbetween : (c * 2 ^ (bits + 1) + 1) * 2 ^ place = c * one + 2 ^ place := by
    rw [hone]
    ring
  have hdecimal : (c * one + 2 ^ place) * 10 ^ places ≤ digits * one := by
    calc (c * one + 2 ^ place) * 10 ^ places
        = c * 10 ^ places * one + 10 ^ places * 2 ^ place := by ring
      _ ≤ c * 10 ^ places * one + one := by
        rw [hone]
        exact Nat.add_le_add_left (Nat.mul_le_mul_right _ hhigh) _
      _ = (c * 10 ^ places + 1) * one := by ring
      _ ≤ digits * one := Nat.mul_le_mul_right _ h
  calc c * one < c * one + 2 ^ place := Nat.lt_add_of_pos_right (Nat.two_pow_pos place)
    _ ≤ roundUnits (digits * one) (10 ^ places) := by
      rw [← hbetween] at hdecimal ⊢
      exact le_roundUnits (Nat.pow_pos (by decide)) (fits_mul_two_pow hshort hrange) hdecimal

include hn hlow hbits in
/-- What is past a large whole number is as far from it as the next number or farther. -/
theorem lt_roundUnits_of_large (hlarge : 2 ^ (52 - bits) ≤ c) (hc : c < 2 ^ 52)
    (h : (2 * (c * 10 ^ places) + 1) * one < 2 * (n * 10 ^ places)) :
    c * one < roundUnits (roundHalfEven (n * 10 ^ places) one * one) (10 ^ places) := by
  have hten : 0 < 10 ^ places := Nat.pow_pos (by decide)
  obtain ⟨gap, hgap, hgapbits, hqlow, hqhigh⟩ := exists_gap hbits hlarge hc
  obtain ⟨place, hone, -⟩ := exists_one_eq (show gap ≤ unitPlaces by rw [unitPlaces]; omega)
  have heven : c * 2 ^ gap % 2 = 0 := by
    rw [Nat.mul_mod, Nat.two_pow_mod_two_eq_zero.mpr hgap, Nat.mul_zero, Nat.zero_mod]
  have hnext : (c * 2 ^ gap + 1) * 2 ^ place ≤ n := by
    apply hn.succ_mul_le hqlow
    rw [Nat.mul_assoc, ← hone]
    apply Nat.lt_of_mul_lt_mul_right (a := 10 ^ places)
    rw [Nat.add_mul, Nat.mul_assoc 2, Nat.mul_right_comm] at h
    omega
  have hcoarse : one < 10 ^ places * 2 ^ place := by
    rw [hone]
    apply Nat.mul_lt_mul_of_pos_right _ (Nat.two_pow_pos place)
    exact (Nat.pow_le_pow_right (by decide) hgapbits).trans_lt hlow
  -- the decimal is at most half a unit off, which is less than half of the way to the next number
  have hnear := two_mul_le_roundHalfEven (n * 10 ^ places) one_pos
  have hscaled := Nat.mul_le_mul_right (10 ^ places) hnext
  have hexpand : (2 * (c * 2 ^ gap) + 1) * (10 ^ places * 2 ^ place) + 10 ^ places * 2 ^ place =
      2 * ((c * 2 ^ gap + 1) * 2 ^ place * 10 ^ places) := by ring
  have hunits : c * one = c * 2 ^ gap * 2 ^ place := by rw [hone, Nat.mul_assoc]
  rw [hunits, lt_roundUnits_iff hten hqhigh (.inr hqlow),
    lt_roundHalfEven_iff_of_even (Nat.mul_pos hten (Nat.two_pow_pos place)) heven]
  omega

include hn hlow hhigh hbits in
/-- Rounded to decimal places, a number is past a whole number if it is past it by more than half a
decimal place. -/
theorem lt_roundPlaces_iff (hc : c < 2 ^ 52) :
    c * one < roundUnits (roundHalfEven (n * 10 ^ places) one * one) (10 ^ places) ↔
      (2 * (c * 10 ^ places) + 1) * one < 2 * (n * 10 ^ places) := by
  have hdecimal := lt_decimal_iff (c := c) (n := n) (tenPow_even hlow)
  constructor
  · rw [← hdecimal]
    intro h
    contrapose! h
    apply roundUnits_le (Nat.pow_pos (by decide)) (fits_mul_one (by omega))
    rw [Nat.mul_right_comm]
    exact Nat.mul_le_mul_right _ h
  · intro h
    rcases Nat.lt_or_ge c (2 ^ (52 - bits)) with hsmall | hlarge
    · exact lt_roundUnits_of_small hhigh hbits hsmall (hdecimal.mpr h)
    · exact lt_roundUnits_of_large hn hlow hbits hlarge hc h

include hn hlow hhigh hbits in
/-- A finite number is rounded to decimal places and then up to a whole number. It is rounded up to at
most a given one if it is past it by at most half a decimal place. -/
theorem exists_ceil_roundPlaces_le_iff :
    ∃ k : ℕ, Number.ceil ((finite false n hn).roundPlaces places) = .ok k ∧
      ∀ c < 2 ^ 52, k ≤ c ↔ 2 * (n * 10 ^ places) ≤ (2 * (c * 10 ^ places) + 1) * one := by
  obtain ⟨limit, hlimit, hle⟩ := exists_fits_of_places places hn
  obtain ⟨hm, heq, -⟩ := ofRatio_of_le false (Nat.pow_pos (by decide)) hlimit hle
  obtain ⟨k, hk, hceil⟩ := exists_ceil_le_iff hm
  refine ⟨k, (congrArg Number.ceil heq).trans hk, fun c hc => ?_⟩
  rw [hceil, ← not_lt, lt_roundPlaces_iff hn hlow hhigh hbits hc, not_lt]

end Places

end Monody.Binary64
