import Monody.Midi.Tempo
import Monody.Proofs.Number

/-!
# Ticks in order

At a positive resolution and a positive tempo a time is scaled, shifted by one half and cut off to a
tick. However coarse the ticks and however late the times are, each of these steps keeps the order, and
so no time is written as a later tick than a time after it, and none as a tick before the first.

## Main results

* `exists_scale` — one scale for all times
* `tick_nonneg`, `tick_le_tick` — ticks are in the order of the times
-/

namespace Monody

open Binary64

-- evaluated, the numbers of units are too long to be looked at
attribute [local irreducible] one bound

namespace Number

variable {x y : Binary64} {j k : ℤ}

/-- The whole part of a time is not negative. -/
theorem floor_nonneg (hx : IsTime x) (hk : floor x = .ok k) : 0 ≤ k := by
  obtain ⟨s, n, hn, rfl, rfl⟩ := exists_of_floor hk
  cases hx
  rw [Int.fdiv_eq_ediv_of_nonneg _ (Int.natCast_nonneg _)]
  exact Int.ediv_nonneg (Int.natCast_nonneg n) (Int.natCast_nonneg _)

/-- Whole parts are in the order of the numbers. -/
theorem floor_le_floor (h : x ≤ y) (hj : floor x = .ok j) (hk : floor y = .ok k) : j ≤ k := by
  obtain ⟨s, m, hm, rfl, rfl⟩ := exists_of_floor hj
  obtain ⟨t, n, hn, rfl, rfl⟩ := exists_of_floor hk
  rw [Binary64.le_iff_rank (finite_ne_nan _ _) (finite_ne_nan _ _)] at h
  rw [Int.fdiv_eq_ediv_of_nonneg _ (Int.natCast_nonneg _),
    Int.fdiv_eq_ediv_of_nonneg _ (Int.natCast_nonneg _)]
  exact Int.ediv_le_ediv (Int.natCast_pos.mpr one_pos) h

theorem roundHalfUp_nonneg (hx : IsTime x) (hk : roundHalfUp x = .ok k) : 0 ≤ k :=
  floor_nonneg (hx.add isTime_half) hk

theorem roundHalfUp_le_roundHalfUp (hx : IsTime x) (hy : IsTime y) (h : x ≤ y)
    (hj : roundHalfUp x = .ok j) (hk : roundHalfUp y = .ok k) : j ≤ k :=
  floor_le_floor (hx.add_le_add_right isFinite_half hy h) hj hk

end Number

namespace Midi

variable {x y : Binary64} {resolution : Number} {tempo j k : ℤ}

theorem thousand_pos : thousand.isFinite ∧ 0 < thousand :=
  Number.isFinite_of_realOfInt (n := 1000) (by decide) (Number.realOfInt_of_natAbs_le (by decide))

/-- A time has a tick only in finitely many parts of a beat. -/
theorem isFinite_of_ticksOfMs {r : Binary64} (hreal : resolution.toReal = .ok r)
    (h : ticksOfMs x resolution tempo = .ok k) : r.isFinite := by
  rw [ticksOfMs, hreal, ok_bind] at h
  obtain ⟨t, -, h⟩ := exists_of_bind_eq_ok h
  obtain ⟨z, hz, h⟩ := exists_of_bind_eq_ok h
  obtain ⟨s, n, hn, hsum, -⟩ := Number.exists_of_floor h
  rw [Number.divide] at hz
  split at hz
  · cases hz
  · obtain rfl := Except.ok.inj hz
    -- each operation leaves the range only once and for all
    have hfinite : (x * thousand * r / t + Number.half).isFinite := by rw [hsum]; rfl
    exact isFinite_of_isFinite_mul (isFinite_of_isFinite_div (isFinite_of_isFinite_add hfinite))

/-- Where one time has a tick, all times are scaled by the same finite positive numbers. -/
theorem exists_scale (hresolution : 0 < resolution) (htempo : 0 < tempo)
    (h : ticksOfMs x resolution tempo = .ok k) :
    ∃ r t : Binary64, (r.isFinite ∧ 0 < r) ∧ (t.isFinite ∧ 0 < t) ∧
      ∀ y, ticksOfMs y resolution tempo = Number.roundHalfUp (y * thousand * r / t) := by
  have hscale := h
  rw [ticksOfMs] at hscale
  obtain ⟨r, hr, hscale⟩ := exists_of_bind_eq_ok hscale
  obtain ⟨t, ht, -⟩ := exists_of_bind_eq_ok hscale
  have htpos := Number.isFinite_of_realOfInt htempo ht
  refine ⟨r, t, ⟨isFinite_of_ticksOfMs hr h, Number.pos_of_toReal hresolution hr⟩, htpos, fun y => ?_⟩
  have hnonzero : t.isZero = false := by
    obtain ⟨n, hn, rfl, hn0⟩ := exists_units_of_pos htpos.1 htpos.2
    exact beq_eq_false_iff_ne.mpr hn0.ne'
  rw [ticksOfMs, hr, ok_bind, ht, ok_bind, Number.divide, hnonzero, if_neg Bool.false_ne_true, ok_bind]

/-- No time is written as a tick before the first. -/
theorem tick_nonneg (hresolution : 0 < resolution) (htempo : 0 < tempo) (hx : IsTime x)
    (h : ticksOfMs x resolution tempo = .ok k) : 0 ≤ k := by
  obtain ⟨r, t, hr, ht, hscale⟩ := exists_scale hresolution htempo h
  rw [hscale] at h
  have hbeats := (hx.mul thousand_pos.1 thousand_pos.2).mul hr.1 hr.2
  exact Number.roundHalfUp_nonneg (hbeats.div ht.1 ht.2) h

/-- No time is written as a later tick than a time after it. -/
theorem tick_le_tick (hresolution : 0 < resolution) (htempo : 0 < tempo) (hx : IsTime x)
    (hy : IsTime y) (h : x ≤ y) (hj : ticksOfMs x resolution tempo = .ok j)
    (hk : ticksOfMs y resolution tempo = .ok k) : j ≤ k := by
  obtain ⟨r, t, hr, ht, hscale⟩ := exists_scale hresolution htempo hj
  rw [hscale] at hj hk
  have hx' := hx.mul thousand_pos.1 thousand_pos.2
  have hy' := hy.mul thousand_pos.1 thousand_pos.2
  have hmicroseconds := hx.mul_le_mul thousand_pos.1 thousand_pos.2 hy h
  have hbeats := hx'.mul_le_mul hr.1 hr.2 hy' hmicroseconds
  have hticks := (hx'.mul hr.1 hr.2).div_le_div ht.1 ht.2 (hy'.mul hr.1 hr.2) hbeats
  exact Number.roundHalfUp_le_roundHalfUp ((hx'.mul hr.1 hr.2).div ht.1 ht.2)
    ((hy'.mul hr.1 hr.2).div ht.1 ht.2) hticks hj hk

end Midi

end Monody
