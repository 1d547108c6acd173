import Monody.Proofs.Binary64.Range
import Monody.Proofs.Midi.Ticks

/-!
# Times of written ticks

At any resolution and tempo that a file can state, the ticks that a score is written at have times when
they are read. These are in the order of the ticks, and none of them leaves the range: reading a tick
divides by what writing it has multiplied by, and what was multiplied did not leave the range.

## Main results

* `timeOfTick_le_timeOfTick` — times are in the order of the ticks
* `isFinite_timeOfTick` — the time of a written tick is finite
-/

namespace Monody.Midi

open Binary64

-- evaluated, the numbers of units are too long to be looked at
attribute [local irreducible] one bound

variable {resolution tempo bits j k : ℕ} {x : Binary64}

/-- Times are in the order of the ticks. -/
theorem timeOfTick_le_timeOfTick (h : IsStatable resolution tempo) (hjk : j ≤ k) :
    timeOfTick resolution tempo j ≤ timeOfTick resolution tempo k := by
  have hseconds := secondsOfTick_pos h
  have hticks := (isTime_ofInt j).mul_le_mul hseconds.1 hseconds.2 (isTime_ofInt k) (ofInt_le_ofInt hjk)
  rw [(timeOfTick_eq h j).2, (timeOfTick_eq h k).2]
  exact ((isTime_ofInt j).mul hseconds.1 hseconds.2).mul_le_mul thousand_pos.1 thousand_pos.2
    ((isTime_ofInt k).mul hseconds.1 hseconds.2) hticks

/-! ## Places -/

theorem isUnder_thousand : IsUnder (10 + unitPlaces) thousand :=
  isUnder_ofInt (k := 1000) thousand_pos.1 (by decide)

/-- A tick of a slower tempo lasts longer, by as many places. -/
theorem isUnder_secondsOfTick (h : IsStatable resolution tempo) (htempo : tempo ≤ 2 ^ (bits + 1))
    (hbits : bits < 24) : IsUnder (bits + unitPlaces - 18) (secondsOfTick resolution tempo) := by
  have hunits : unitPlaces = 1074 := rfl
  have hrange : rangePlaces = 2098 := rfl
  have hfinite := isFinite_ofInt (fits_mul_one h.tempo_le_two_pow)
  have hbeat : IsUnder (bits + unitPlaces - 18) (.ofInt tempo * Tempo.millionth) :=
    (isUnder_ofInt hfinite htempo).mul Tempo.isUnder_millionth (by omega) (by omega)
  have hseconds := (secondsOfTick_pos h).1
  rw [secondsOfTick, ofInt_natCast h.resolution_le_two_pow, ofNat] at hseconds ⊢
  have hone : 2 ^ unitPlaces ≤ resolution * one := by
    rw [← one_eq]
    exact Nat.le_mul_of_pos_left _ h.resolution_pos
  exact hbeat.div _ hone (by omega) hseconds

/-- The ticks of a slower tempo are fewer, by as many places. -/
theorem exists_units_of_ticksOfMs (h : IsStatable resolution tempo) (htempo : 2 ^ bits ≤ tempo)
    (hbits : bits < 24) (hx : IsTime x)
    (hk : ticksOfMs x (.whole resolution) tempo = .ok (k : ℤ)) :
    ∃ n, Fits n ∧ k * one ≤ n ∧ n ≤ 2 ^ (rangePlaces - bits + 1) := by
  have hunits : unitPlaces = 1074 := rfl
  have hrange : rangePlaces = 2098 := rfl
  have hpositive : 0 < Number.whole resolution := Number.whole_pos (Int.natCast_pos.mpr h.resolution_pos)
  have hreal : Number.realOfInt tempo = .ok (.ofInt tempo) :=
    Number.realOfInt_of_natAbs_le (by simpa using h.tempo_le_two_pow)
  have htick := hk
  rw [ticksOfMs] at htick
  obtain ⟨r, hr, htick⟩ := exists_of_bind_eq_ok htick
  have hbeats := (hx.mul thousand_pos.1 thousand_pos.2).mul (isFinite_of_ticksOfMs hr hk)
    (Number.pos_of_toReal hpositive hr)
  have hone : 2 ^ (bits + unitPlaces) ≤ tempo * one := by
    rw [Nat.pow_add, ← one_eq]
    exact Nat.mul_le_mul_right _ htempo
  have hnonzero : (ofNat tempo h.tempo_le_two_pow).isZero = false :=
    beq_eq_false_iff_ne.mpr (Nat.mul_pos h.tempo_pos Binary64.one_pos).ne'
  rw [hreal, ok_bind, ofInt_natCast h.tempo_le_two_pow, Number.divide, hnonzero,
    if_neg Bool.false_ne_true, ok_bind, ofNat] at htick
  obtain ⟨s, n, hn, hsum, hfloor⟩ := Number.exists_of_floor htick
  -- none of the steps has left the range, since the last of them is in it
  have hsumFinite : (x * thousand * r / finite false (tempo * one) (fits_mul_one h.tempo_le_two_pow) +
      Number.half).isFinite := by
    rw [hsum]
    rfl
  have hfinite := isFinite_of_isFinite_add hsumFinite
  have hticks := (hbeats.isUnder (isFinite_of_isFinite_div hfinite)).div _ hone
    (k := rangePlaces - bits) (by omega) hfinite
  have hhalf : IsUnder (rangePlaces - bits) Number.half := isUnder_half.mono (by omega)
  have hunder := hticks.add hhalf hsumFinite
  rw [hsum] at hunder
  cases hunder with
  | intro _ hle =>
    refine ⟨n, hn, ?_, hle⟩
    rw [signedUnits, if_neg Bool.false_ne_true, Int.fdiv_eq_ediv_of_nonneg _ (Int.natCast_nonneg _)] at hfloor
    have hdiv : k = n / one := by exact_mod_cast hfloor
    rw [hdiv]
    exact Nat.div_mul_le_self n one

/-- **The time of a written tick is finite**, and so are those of the ticks before it and of the one
after it. -/
theorem isFinite_timeOfTick (h : IsStatable resolution tempo) (hx : IsTime x)
    (hk : ticksOfMs x (.whole resolution) tempo = .ok (k : ℤ)) (hj : j ≤ k + 1) :
    (Binary64.ofInt j).isFinite ∧ (timeOfTick resolution tempo j).isFinite := by
  have hunits : unitPlaces = 1074 := rfl
  have hrange : rangePlaces = 2098 := rfl
  have hbits : tempo.log2 < 24 := (Nat.log2_lt h.tempo_pos.ne').mpr h.tempo_lt
  obtain ⟨n, hn, hkn, hle⟩ :=
    exists_units_of_ticksOfMs h (Nat.log2_self_le h.tempo_pos.ne') hbits hx hk
  have hnext : (Binary64.ofInt (k + 1 : ℕ)).isFinite := isFinite_ofInt_succ hn hkn
  have hplaces : k + 1 ≤ 2 ^ (rangePlaces - tempo.log2 + 2 - unitPlaces) := by
    have hmul : k * one ≤ 2 ^ (rangePlaces - tempo.log2 + 1 - unitPlaces) * one := by
      rw [one_eq, ← Nat.pow_add]
      rw [one_eq] at hkn
      refine hkn.trans (hle.trans (Nat.pow_le_pow_right (by decide) (by omega)))
    have hk' := Nat.le_of_mul_le_mul_right hmul one_pos
    have hsucc : rangePlaces - tempo.log2 + 2 - unitPlaces =
        rangePlaces - tempo.log2 + 1 - unitPlaces + 1 := by omega
    have hpos := Nat.two_pow_pos (rangePlaces - tempo.log2 + 1 - unitPlaces)
    rw [hsucc, Nat.pow_succ]
    omega
  -- the places that a slow tempo takes from the number of ticks are those that it adds to their length
  have hseconds := isUnder_secondsOfTick h Nat.lt_log2_self.le hbits
  have hlast : IsUnder (rangePlaces - 6) (timeOfTick resolution tempo (k + 1)) := by
    rw [(timeOfTick_eq h _).2]
    exact ((isUnder_ofInt hnext hplaces).mul hseconds (k := rangePlaces - 16) (by omega)
      (by omega)).mul isUnder_thousand (by omega) (by omega)
  exact ⟨(isTime_ofInt j).isFinite_of_le hnext (ofInt_le_ofInt hj),
    (timeOfTick_eq h j).1.isFinite_of_le hlast.isFinite (timeOfTick_le_timeOfTick h hj)⟩

end Monody.Midi
