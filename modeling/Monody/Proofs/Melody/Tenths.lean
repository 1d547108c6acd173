import Mathlib.Data.Rat.Floor
import Monody.Proofs.Binary64.Places
import Monody.Proofs.Melody.Scale

/-!
# Multipliers with one decimal

A multiplier such as `1.1` is no binary number, so the product of a duration and the number next to it
is off the exact product, and it is rounded once more. Whatever is off by up to half of the ninth decimal
place is removed before the product is rounded up. That is enough for durations of up to an hour or so,
and no more: what a product is off grows with the product, while the decimal place that is looked at
stays where it is. Past `50 * 2 ^ 20` tenths there are durations that are scaled to one more than the
exact product rounded up, and past `10 * 2 ^ 49` tenths also some that are scaled to one less.

## Main definitions

* `tenths` — the multiplier with one decimal
* `noise` — what is removed of a product, at most
* `IsQuiet` — a product whose noise is removed
* `IsTenths` — units that are close to a number of tenths

## Main results

* `isTenths_roundUnits` — a multiplier with one decimal is off by at most one part in `5 * 2 ^ 51`
* `roundUnits_le_of_noise`, `lt_roundUnits_of_noise` — little noise stays little when it is rounded
* `scaleDuration_tenths` — a duration is scaled to the exact product rounded up exactly if its product is
  quiet, which every product up to `50 * 2 ^ 20` tenths is
-/

namespace Monody.Melody

open Binary64

/-- The number next to a natural number of tenths. -/
def tenths (k : ℕ) : Binary64 := ofDecimal false ⟨k, -1⟩

/-- Half of the last decimal place that is looked at. -/
def noise : ℚ := 1 / (2 * 10 ^ ceilingPlaces)

/-- Noise above a whole number is removed, so that what is rounded up to it lies between the noise of the
whole number before it and its own. -/
inductive IsQuiet (c : ℤ) : Binary64 → Prop
  | intro {n : ℕ} (hn : Fits n) (hlow : (c - 1 + noise) * one < n) (hhigh : n ≤ (c + noise) * one) :
      IsQuiet c (.finite false n hn)

-- evaluated, the numbers of units are too long to be looked at
attribute [local irreducible] one bound

variable {b c d k n t u w : ℕ}

/-! ## The multiplier -/

theorem tenths_eq (hk : 0 < k) (hle : k ≤ 2 ^ 53) : tenths k = ofRatio false (k * one) 10 := by
  have hkℚ : (1 : ℚ) ≤ k := by exact_mod_cast hk
  have hleℚ : (k : ℚ) ≤ 2 ^ 53 := by exact_mod_cast hle
  have hvalue : Decimal.value ⟨k, -1⟩ = k / 10 := by
    rw [Decimal.value, zpow_neg_one, div_eq_mul_inv]
  rcases ofDecimal_cases false ⟨k, -1⟩ with ⟨hlt, -⟩ | ⟨hlt, -⟩ | ⟨num, den, hden, hratio, heq⟩
  · exfalso
    have hvanishing : vanishing < 1 / 10 := by
      have hpow : (10 : ℚ) < 2 ^ 1075 :=
        lt_of_lt_of_le (by norm_num : (10 : ℚ) < 2 ^ 4) (pow_le_pow_right₀ one_le_two (by decide))
      exact one_div_lt_one_div_of_lt (by norm_num) hpow
    rw [hvalue] at hlt
    linarith
  · exfalso
    have hoverflowing : (2 : ℚ) ^ 53 ≤ overflowing := by
      rw [overflowing_eq]
      calc (2 : ℚ) ^ 53 ≤ (2 ^ 54 - 1) * 1 := by norm_num
        _ ≤ (2 ^ 54 - 1) * 2 ^ 970 := by
          gcongr
          exact one_le_pow₀ one_le_two
    rw [hvalue] at hlt
    linarith
  · -- only the value of a quotient matters
    have hscale : num * 10 = k * one * den := by
      have h : (num : ℚ) * 10 = k * one * den := by
        rw [hratio, hvalue]
        ring
      exact_mod_cast h
    rw [tenths, heq, ← ofRatio_mul_right num den (show 0 < 10 by decide), hscale, Nat.mul_comm den,
      ofRatio_mul_right (k * one) 10 hden]

/-- Units that are a number of tenths, off by at most one part in `5 * 2 ^ 51`. -/
structure IsTenths (t w : ℕ) : Prop where
  low : (5 * 2 ^ 51 - 1) * (t * one) ≤ 5 * 2 ^ 51 * (10 * w)
  high : 5 * 2 ^ 51 * (10 * w) ≤ (5 * 2 ^ 51 + 1) * (t * one)

/-- The last place of a rounded number of tenths is a small part of the number. -/
theorem lastPlace_tenths (hk : 0 < k) : 10 * 2 ^ 52 * 2 ^ lastPlace (k * one) 10 ≤ k * one := by
  rcases Nat.eq_zero_or_pos (lastPlace (k * one) 10) with hzero | hpos
  · -- the place is a single unit, of which `1` has a great many
    rw [hzero, one_eq]
    calc 10 * 2 ^ 52 * 2 ^ 0 ≤ 2 ^ 56 := by decide
      _ ≤ 2 ^ unitPlaces := Nat.pow_le_pow_right (by decide) (by decide)
      _ ≤ k * 2 ^ unitPlaces := Nat.le_mul_of_pos_left _ hk
  · have hlarge := (Nat.le_div_iff_mul_le (by decide)).mp (two_pow_le_of_lastPlace hpos)
    rw [Nat.pow_add] at hlarge
    linarith

/-- A number of tenths is a whole number of fifths of the place that it is rounded to, so that it is off by
two of these fifths at most. -/
theorem isTenths_roundUnits (hk : 0 < k) (hlt : k < 2 ^ 53) :
    IsTenths k (roundUnits (k * one) 10) := by
  have hunit := lastPlace_tenths hk
  have hround := two_mul_abs_roundHalfEven_sub_le (k * one)
    (Nat.mul_pos (by decide : 0 < 10) (Nat.two_pow_pos (lastPlace (k * one) 10)))
  rw [roundUnits_eq]
  generalize lastPlace (k * one) 10 = place at hunit hround
  generalize roundHalfEven (k * one) (10 * 2 ^ place) = digits at hround
  -- `1` is a whole number of units of every place that a number in range is rounded to
  obtain ⟨fifths, hfifths⟩ : 2 ^ (place + 1) ∣ k * one := by
    apply Dvd.dvd.mul_left
    rw [one_eq]
    apply Nat.pow_dvd_pow
    by_contra hge
    have hone : one ≤ 2 ^ place := by
      rw [one_eq]
      exact Nat.pow_le_pow_right (by decide) (by omega)
    have hlt' := Nat.mul_lt_mul_of_pos_right hlt Binary64.one_pos
    omega
  have hnear : 4 * |5 * (digits : ℤ) - fifths| ≤ 10 := by
    have hplace : (0 : ℤ) < 2 ^ place := by positivity
    have hscale : (digits : ℤ) * (10 * 2 ^ place : ℕ) - (k * one : ℕ) =
        2 ^ place * (2 * (5 * digits - fifths)) := by
      rw [hfifths]
      push_cast
      ring
    rw [hscale, abs_mul, abs_mul, abs_of_pos hplace, abs_two] at hround
    apply le_of_mul_le_mul_left _ hplace
    push_cast at hround
    linarith
  -- half a place is two and a half fifths, and only whole fifths occur
  have hdigits := abs_le.mp (show |5 * (digits : ℤ) - fifths| ≤ 2 by omega)
  rw [Nat.pow_succ, Nat.mul_assoc] at hfifths
  have hover : 2 ^ place * (5 * digits) ≤ 2 ^ place * (fifths + 2) :=
    Nat.mul_le_mul_left _ (by omega)
  have hunder : 2 ^ place * fifths ≤ 2 ^ place * (5 * digits + 2) :=
    Nat.mul_le_mul_left _ (by omega)
  rw [Nat.mul_add] at hover hunder
  have hproduct : 10 * (digits * 2 ^ place) = 2 * (2 ^ place * (5 * digits)) := by ring
  have hwhole : k * one = 2 * (2 ^ place * fifths) := by rw [hfifths]; ring
  constructor <;> omega

namespace IsTenths

theorem mul (d : ℕ) (h : IsTenths k u) : IsTenths (d * k) (d * u) := by
  have hlow := Nat.mul_le_mul_left d h.low
  have hhigh := Nat.mul_le_mul_left d h.high
  constructor <;> linarith

/-- Before it is rounded, the product is less than one away from the exact product rounded up. -/
theorem le_succ (h : IsTenths t w) (ht : t < 2 ^ 53) (hc : t ≤ 10 * c) : w ≤ (c + 1) * one := by
  have hhigh := h.high
  have hrange := Nat.mul_le_mul_right one ht.le
  have hceil := Nat.mul_le_mul_right one hc
  rw [Nat.succ_mul]
  rw [Nat.mul_assoc] at hceil
  omega

theorem le_of_lt (h : IsTenths t w) (ht : t < 2 ^ 53) (hb : 10 * b < t) : b * one ≤ w := by
  have hlow := h.low
  have hrange := Nat.mul_le_mul_right one ht.le
  have hfloor := Nat.mul_le_mul_right one (Nat.succ_le_of_lt hb)
  rw [Nat.succ_mul, Nat.mul_assoc] at hfloor
  omega

/-- Up to `50 * 2 ^ 20` tenths, the noise of the product is at most `2 ^ -31`. -/
theorem le_of_small (h : IsTenths t w) (ht : t ≤ 50 * 2 ^ 20) (hc : t ≤ 10 * c) :
    2 ^ 31 * w ≤ (2 ^ 31 * c + 1) * one := by
  have hhigh := h.high
  have hrange := Nat.mul_le_mul_right one ht
  have hceil := Nat.mul_le_mul_right one hc
  rw [Nat.succ_mul, Nat.mul_assoc]
  rw [Nat.mul_assoc] at hceil
  omega

theorem lt_of_small (h : IsTenths t w) (ht : t ≤ 50 * 2 ^ 20) (hb : 10 * b < t) :
    (16 * b + 1) * one ≤ 16 * w := by
  have hlow := h.low
  have hrange := Nat.mul_le_mul_right one ht
  have hfloor := Nat.mul_le_mul_right one (Nat.succ_le_of_lt hb)
  rw [Nat.succ_mul, Nat.mul_assoc] at hfloor ⊢
  omega

end IsTenths

/-! ## The product -/

theorem two_mul_tenPow_le : 2 * 10 ^ ceilingPlaces ≤ 2 ^ 31 := by decide

theorem lt_two_mul_tenPow : 16 < 2 * 10 ^ ceilingPlaces := by decide

/-- Noise of at most `2 ^ -31` is at most half of the last decimal place, and it does not become more when
the product is rounded: up to `2 ^ 22` there is a number between the two, and a little beyond it is the
midpoint to the next number. -/
theorem roundUnits_le_of_noise (hc : c ≤ 5 * 2 ^ 20) (h : 2 ^ 31 * w ≤ (2 ^ 31 * c + 1) * one) :
    2 * (roundUnits w 1 * 10 ^ ceilingPlaces) ≤ (2 * (c * 10 ^ ceilingPlaces) + 1) * one := by
  have hten := two_mul_tenPow_le
  generalize 10 ^ ceilingPlaces = ten at hten
  rcases Nat.lt_or_ge c (2 ^ 22) with hsmall | hlarge
  · -- 31 places after the point are kept, and the noise is at most one unit of the last of them
    obtain ⟨place, hone, hrange⟩ := exists_one_eq (show 31 ≤ unitPlaces by decide)
    have hle : roundUnits w 1 ≤ (c * 2 ^ 31 + 1) * 2 ^ place := by
      apply roundUnits_le Nat.one_pos (fits_mul_two_pow (by omega) hrange)
      rw [hone] at h
      apply Nat.le_of_mul_le_mul_left _ (Nat.two_pow_pos 31)
      linarith
    calc 2 * (roundUnits w 1 * ten) ≤ 2 * ((c * 2 ^ 31 + 1) * 2 ^ place * ten) := by gcongr
      _ = 2 * (c * ten) * one + 2 * ten * 2 ^ place := by
        rw [hone]
        ring
      _ ≤ 2 * (c * ten) * one + one := by
        rw [hone]
        gcongr
      _ = (2 * (c * ten) + 1) * one := by ring
  · -- 30 are kept, and the noise is at most half a unit of the last of them, which is rounded away
    obtain ⟨place, hone, -⟩ := exists_one_eq (show 30 ≤ unitPlaces by decide)
    have hunits : c * one = c * 2 ^ 30 * 2 ^ place := by rw [hone, Nat.mul_assoc]
    have hle : roundUnits w 1 ≤ c * one := by
      rw [hunits, ← not_lt, lt_roundUnits_iff Nat.one_pos (by omega) (.inr (by omega)),
        lt_roundHalfEven_iff_of_even (by positivity) (by omega), not_lt, Nat.one_mul]
      rw [hone] at h
      apply Nat.le_of_mul_le_mul_left _ (Nat.two_pow_pos 30)
      linarith
    calc 2 * (roundUnits w 1 * ten) ≤ 2 * (c * one * ten) := by gcongr
      _ = 2 * (c * ten) * one := by ring
      _ ≤ (2 * (c * ten) + 1) * one := by
        gcongr
        omega

/-- A sixteenth is more than noise. -/
theorem lt_roundUnits_of_noise (hb : b ≤ 5 * 2 ^ 20) (h : (16 * b + 1) * one ≤ 16 * w) :
    (2 * (b * 10 ^ ceilingPlaces) + 1) * one < 2 * (roundUnits w 1 * 10 ^ ceilingPlaces) := by
  have hten := lt_two_mul_tenPow
  generalize 10 ^ ceilingPlaces = ten at hten
  obtain ⟨place, hone, hrange⟩ := exists_one_eq (show 4 ≤ unitPlaces by decide)
  have hle : (b * 16 + 1) * 2 ^ place ≤ roundUnits w 1 := by
    apply le_roundUnits Nat.one_pos (fits_mul_two_pow (by omega) hrange)
    rw [hone] at h
    linarith
  calc (2 * (b * ten) + 1) * one = 2 * (b * ten) * one + 16 * 2 ^ place := by
        rw [hone]
        ring
    _ < 2 * (b * ten) * one + 2 * ten * 2 ^ place := by gcongr
    _ = 2 * ((b * 16 + 1) * 2 ^ place * ten) := by
        rw [hone]
        ring
    _ ≤ 2 * (roundUnits w 1 * ten) := by gcongr

/-- A duration times a multiplier with one decimal is calculated from the multiplier's units, and rounded
once more. -/
theorem exists_product (hd : 0 < d) (hk : 0 < k) (hdk : d * k < 2 ^ 53) :
    ∃ w hn, (Number.whole d).mul (.real (tenths k)) =
      .ok (.real (.finite false (roundUnits w 1) hn)) ∧ IsTenths (d * k) w := by
  have hdle : d ≤ 2 ^ 53 := (Nat.le_mul_of_pos_right d hk).trans hdk.le
  have hklt : k < 2 ^ 53 := (Nat.le_mul_of_pos_left k hd).trans_lt hdk
  have hproduct := (isTenths_roundUnits hk hklt).mul d
  obtain ⟨hu, hmultiplier, -⟩ := ofRatio_of_le false (by decide : 0 < 10) (fits_mul_one hklt.le)
    (Nat.le_mul_of_pos_right (k * one) (by decide))
  obtain ⟨hn, hround, -⟩ := ofRatio_of_le false Nat.one_pos
    (fits_mul_one (show d * k + 1 ≤ 2 ^ 53 by omega))
    (hproduct.le_succ (c := d * k) hdk (by omega) |>.trans_eq (Nat.mul_one _).symm)
  refine ⟨_, hn, ?_, hproduct⟩
  have hscale := @ofRatio_mul_right false (d * roundUnits (k * one) 10) 1 one Binary64.one_pos
  rw [Nat.one_mul, Nat.mul_right_comm, hround] at hscale
  rw [Number.whole_mul_real hdle, tenths_eq hk hklt.le, hmultiplier, ofNat_mul_finite]
  exact congrArg (fun x => Except.ok (Number.real x)) hscale

/-! ## The product rounded up -/

/-- What is quiet, in units. -/
theorem isQuiet_finite_iff {hn : Fits n} : IsQuiet (b + 1 : ℕ) (.finite false n hn) ↔
    (2 * (b * 10 ^ ceilingPlaces) + 1) * one < 2 * (n * 10 ^ ceilingPlaces) ∧
      2 * (n * 10 ^ ceilingPlaces) ≤ (2 * ((b + 1) * 10 ^ ceilingPlaces) + 1) * one := by
  have hten : (0 : ℚ) < 2 * 10 ^ ceilingPlaces := by positivity
  -- everything is multiplied by twice the places that are kept, so that no fraction is left
  have hscale (q : ℚ) : (q + noise) * one * (2 * 10 ^ ceilingPlaces) =
      (2 * (q * 10 ^ ceilingPlaces) + 1) * one := by
    rw [noise]
    field_simp
  have hunits : (n : ℚ) * (2 * 10 ^ ceilingPlaces) = 2 * (n * 10 ^ ceilingPlaces) := by ring
  have hcast : (((b + 1 : ℕ) : ℤ) : ℚ) = b + 1 := by push_cast; rfl
  have hlow : (((b + 1 : ℕ) : ℤ) - 1 + noise) * one < (n : ℚ) ↔
      (2 * (b * 10 ^ ceilingPlaces) + 1) * one < 2 * (n * 10 ^ ceilingPlaces) := by
    rw [hcast, add_sub_cancel_right, ← mul_lt_mul_iff_left₀ hten, hscale, hunits]
    norm_cast
  have hhigh : (n : ℚ) ≤ (((b + 1 : ℕ) : ℤ) + noise) * one ↔
      2 * (n * 10 ^ ceilingPlaces) ≤ (2 * ((b + 1) * 10 ^ ceilingPlaces) + 1) * one := by
    rw [hcast, ← mul_le_mul_iff_left₀ hten, hscale, hunits]
    norm_cast
  rw [← hlow, ← hhigh]
  constructor
  · rintro ⟨_, hlow, hhigh⟩
    exact ⟨hlow, hhigh⟩
  · rintro ⟨hlow, hhigh⟩
    exact .intro hn hlow hhigh

theorem ceil_tenths (hlow : 10 * b < t) (hhigh : t ≤ 10 * (b + 1)) :
    ⌈(t : ℚ) / 10⌉ = (b + 1 : ℕ) := by
  have hlowℚ : (10 : ℚ) * b < t := by exact_mod_cast hlow
  have hhighℚ : (t : ℚ) ≤ 10 * (b + 1) := by exact_mod_cast hhigh
  rw [Int.ceil_eq_iff]
  push_cast
  constructor <;> linarith

/-- What is at most one away from a whole number before the noise is removed is so after it. -/
theorem abs_sub_le_one {z : ℕ} (hb : b + 2 < 2 ^ 52) (hlow : b * one ≤ n) (hhigh : n ≤ (b + 2) * one)
    (hceil : ∀ c < 2 ^ 52,
      z ≤ c ↔ 2 * (n * 10 ^ ceilingPlaces) ≤ (2 * (c * 10 ^ ceilingPlaces) + 1) * one) :
    |(z : ℤ) - (b + 1 : ℕ)| ≤ 1 := by
  have hten := lt_two_mul_tenPow
  generalize 10 ^ ceilingPlaces = ten at hten hceil
  have hle : z ≤ b + 2 := by
    rw [hceil (b + 2) hb]
    have hscaled := Nat.mul_le_mul_right (2 * ten) hhigh
    linarith [Nat.zero_le one]
  have hge : b ≤ z := by
    by_contra hlt
    obtain ⟨a, rfl⟩ : ∃ a, b = a + 1 := ⟨b - 1, by omega⟩
    have hscaled := Nat.mul_le_mul_right (2 * ten) hlow
    have hnoise := (hceil a (by omega)).mp (by omega)
    have hcoarse : 16 * one < 2 * ten * one := Nat.mul_lt_mul_of_pos_right hten Binary64.one_pos
    linarith
  rw [abs_le]
  omega

/-- **Scaling by a multiplier with one decimal.** As long as the exact product has fewer than `2 ^ 53`
tenths, a duration is scaled to a whole number that is at most one away from the exact product rounded
up. It is that number exactly if the calculated product is no farther above it than the noise that is
removed, and farther than that above the number before it. Up to `50 * 2 ^ 20` tenths it always is. -/
theorem scaleDuration_tenths (hd : 0 < d) (hk : 0 < k) (hdk : d * k < 2 ^ 53) :
    ∃ (p : Binary64) (z : ℤ), (Number.whole d).mul (.real (tenths k)) = .ok (.real p) ∧
      scaleDuration (.whole d) (.real (tenths k)) = .ok z ∧
      |z - ⌈(d * k : ℚ) / 10⌉| ≤ 1 ∧
      (z = ⌈(d * k : ℚ) / 10⌉ ↔ IsQuiet ⌈(d * k : ℚ) / 10⌉ p) ∧
      (d * k ≤ 50 * 2 ^ 20 → z = ⌈(d * k : ℚ) / 10⌉) := by
  have hpos : 0 < d * k := Nat.mul_pos hd hk
  obtain ⟨w, hn, hproduct, htenths⟩ := exists_product hd hk hdk
  obtain ⟨z, hz, hceil⟩ := exists_ceil_roundPlaces_le_iff hn
    (show 2 ^ 29 < 10 ^ ceilingPlaces by decide) (by decide) (by decide)
  -- the exact product rounded up is `b + 1`
  obtain ⟨b, hlow, hhigh⟩ : ∃ b, 10 * b < d * k ∧ d * k ≤ 10 * (b + 1) :=
    ⟨(d * k - 1) / 10, by omega, by omega⟩
  have hexact : ⌈(d * k : ℚ) / 10⌉ = (b + 1 : ℕ) := by
    rw [← Nat.cast_mul]
    exact ceil_tenths hlow hhigh
  have hiff : z = b + 1 ↔ IsQuiet (b + 1 : ℕ) (.finite false (roundUnits w 1) hn) := by
    rw [isQuiet_finite_iff, ← hceil (b + 1) (by omega), ← not_le, ← hceil b (by omega)]
    omega
  refine ⟨_, z, hproduct, (scaleDuration_real hproduct).trans hz, ?_, ?_, ?_⟩
  · rw [hexact]
    apply abs_sub_le_one (by omega) _ _ hceil
    · exact le_roundUnits Nat.one_pos (fits_mul_one (by omega))
        ((Nat.mul_one _).trans_le (htenths.le_of_lt hdk hlow))
    · exact roundUnits_le Nat.one_pos (fits_mul_one (by omega))
        ((htenths.le_succ hdk hhigh).trans_eq (Nat.mul_one _).symm)
  · rw [hexact, ← hiff]
    exact Int.natCast_inj
  · intro hsmall
    rw [hexact, Int.natCast_inj, hiff, isQuiet_finite_iff]
    exact ⟨lt_roundUnits_of_noise (by omega) (htenths.lt_of_small hsmall hlow),
      roundUnits_le_of_noise (by omega) (htenths.le_of_small hsmall hhigh)⟩

/-- A second, one tenth longer. -/
theorem scaleDuration_tenths_second :
    scaleDuration (.whole 1000) (.real (tenths 11)) = .ok 1100 := by
  obtain ⟨p, z, -, hz, -, -, hexact⟩ := scaleDuration_tenths (show 0 < 1000 by decide)
    (show 0 < 11 by decide) (by decide)
  have hceil : ⌈((1000 : ℕ) * (11 : ℕ) : ℚ) / 10⌉ = 1100 := by norm_num
  rw [hceil] at hexact
  rw [← hexact (by decide)]
  exact hz

/-- An hour and a half, one tenth longer, is off by one: the product is the exact one, which is whole,
and the next number after it, which is more than the noise that is removed. -/
theorem not_scaleDuration_tenths : ¬ ∀ d k : ℕ, 0 < d → 0 < k → d * k < 2 ^ 53 →
    scaleDuration (.whole d) (.real (tenths k)) = .ok ⌈(d * k : ℚ) / 10⌉ := by
  intro h
  have hexact := h 5242950 11 (by decide) (by decide) (by decide)
  have hceil : ⌈((5242950 : ℕ) * (11 : ℕ) : ℚ) / 10⌉ = 5767245 := by norm_num
  have hscaled : scaleDuration (.whole (5242950 : ℕ)) (.real (tenths 11)) = .ok 5767246 := by
    decide +kernel
  rw [hceil, hscaled] at hexact
  cases hexact

end Monody.Melody
