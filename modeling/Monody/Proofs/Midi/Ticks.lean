import Monody.Midi.Export
import Monody.Proofs.Midi.Library
import Monody.Proofs.Midi.TickOrder

/-!
# Ticks of any length

At one tempo a time is written as the nearest tick, and the time of a tick is read back. Both are
calculated in binary64 numbers, with a few roundings each. Where a tick lasts at least a tenth of a
millisecond and at most five quarters of one, and for the first `10 ^ 9` milliseconds, the roundings are
less than a few thousandths. Written times are then in the order of the times, and times that are at
least two milliseconds apart are written as different ticks.

## Main definitions

* `greatestTime` — the last millisecond that is known to be found again
* `tickMs` — the exact length of a tick
* `IsStatable` — a resolution and a tempo that a file can state
* `IsFine` — a resolution and a tempo at which ticks are short enough
* `tickOf` — the tick that a time is written as
* `timeOfTick` — the time that a tick is read as

## Main results

* `ticksOfMs_eq`, `abs_tickOf_sub_le` — times to ticks
* `toMs_eq`, `isWithin_timeOfTick` — ticks to times
* `tickOf_le_tickOf`, `tickOf_lt_tickOf` — the order of ticks
* `exists_length_of_ticks` — lengths that are written and read back
-/

namespace Monody.Midi

open Binary64

-- evaluated, the numbers of units are too long to be looked at
attribute [local irreducible] one bound

variable {resolution tempo k s t : ℕ}

/-- The greatest time in milliseconds that files are known to keep. -/
def greatestTime : ℕ := 1000000000

/-- The exact length of a tick in milliseconds. -/
def tickMs (resolution tempo : ℤ) : ℚ := tempo / (1000 * resolution)

/-- A resolution and a tempo that a file can state, neither of them zero. -/
structure IsStatable (resolution tempo : ℕ) : Prop where
  resolution_pos : 0 < resolution
  resolution_le : resolution ≤ 32767
  tempo_pos : 0 < tempo
  tempo_le : tempo ≤ Tempo.greatest

namespace IsStatable

theorem resolution_le_two_pow (h : IsStatable resolution tempo) : resolution ≤ 2 ^ 53 :=
  h.resolution_le.trans (by decide)

theorem tempo_lt (h : IsStatable resolution tempo) : tempo < 2 ^ 24 := by
  have hle := h.tempo_le
  rw [Tempo.greatest] at hle
  omega

theorem tempo_le_two_pow (h : IsStatable resolution tempo) : tempo ≤ 2 ^ 53 :=
  h.tempo_lt.le.trans (by decide)

end IsStatable

/-- A resolution and a tempo that a file can state, where a tick lasts at least a tenth of a millisecond
and at most five quarters of one. -/
structure IsFine (resolution tempo : ℕ) : Prop where
  resolution_le : resolution ≤ 32767
  tempo_le : tempo ≤ Tempo.greatest
  low : 1 / 10 ≤ tickMs resolution tempo
  high : tickMs resolution tempo ≤ 5 / 4

namespace IsFine

theorem tickMs_pos (h : IsFine resolution tempo) : 0 < tickMs resolution tempo :=
  lt_of_lt_of_le (by norm_num) h.low

theorem isStatable (h : IsFine resolution tempo) : IsStatable resolution tempo := by
  have hpos := h.tickMs_pos
  refine ⟨Nat.pos_of_ne_zero ?_, h.resolution_le, Nat.pos_of_ne_zero ?_, h.tempo_le⟩
  · rintro rfl
    simp [tickMs] at hpos
  · rintro rfl
    simp [tickMs] at hpos

theorem resolution_pos (h : IsFine resolution tempo) : 0 < resolution := h.isStatable.resolution_pos

theorem tempo_pos (h : IsFine resolution tempo) : 0 < tempo := h.isStatable.tempo_pos

theorem resolution_le_two_pow (h : IsFine resolution tempo) : resolution ≤ 2 ^ 53 :=
  h.isStatable.resolution_le_two_pow

theorem tempo_le_two_pow (h : IsFine resolution tempo) : tempo ≤ 2 ^ 53 := h.isStatable.tempo_le_two_pow

/-- Times of the first `10 ^ 9` milliseconds, counted in ticks. -/
theorem div_tickMs_le (h : IsFine resolution tempo) (hs : s ≤ greatestTime) :
    (s : ℚ) / tickMs resolution tempo ≤ 10 ^ 10 := by
  have hsℚ : (s : ℚ) ≤ 10 ^ 9 := by exact_mod_cast hs
  rw [div_le_iff₀ h.tickMs_pos]
  linarith [h.low]

end IsFine

theorem isModerate_natCast (hk : k ≤ 2 ^ 60) : IsModerate k := by
  rcases Nat.eq_zero_or_pos k with rfl | hpos
  · exact .inl Nat.cast_zero
  · have hone : (1 : ℚ) ≤ k := by exact_mod_cast hpos
    exact .of_le (le_trans (by norm_num) hone) (by exact_mod_cast hk)

theorem thousand_eq : thousand = ofNat 1000 (by decide) := ofInt_natCast _

/-! ## Writing -/

/-- The scaled time is off the exact number of ticks by at most three roundings. -/
theorem exists_scaled (h : IsFine resolution tempo) (hs : s ≤ greatestTime) :
    ∃ x, Number.divide (.ofInt s * thousand * .ofInt resolution) (.ofInt tempo) = .ok x ∧
      IsOff 3 x (s / tickMs resolution tempo) := by
  have hsmall : s * 1000 * resolution ≤ 2 ^ 60 := by
    calc s * 1000 * resolution ≤ greatestTime * 1000 * 32767 :=
          Nat.mul_le_mul (Nat.mul_le_mul_right _ hs) h.resolution_le
      _ ≤ 2 ^ 60 := by decide
  have hs' : s ≤ 2 ^ 53 := hs.trans (by decide)
  -- each product is rounded once, and the quotient once more
  have hmicroseconds : IsOff 1 (ofNat s hs' * ofNat 1000 (by decide)) ((s : ℚ) * (1000 : ℕ)) := by
    refine (isOff_ofNat _).mul (isOff_ofNat _) (by decide) ?_
    rw [← Nat.cast_mul]
    refine isModerate_natCast (le_trans ?_ hsmall)
    exact Nat.le_mul_of_pos_right _ h.resolution_pos
  have hscaled := hmicroseconds.mul (isOff_ofNat h.resolution_le_two_pow) (by decide) (by
    rw [← Nat.cast_mul, ← Nat.cast_mul]
    exact isModerate_natCast hsmall)
  have htempo : (0 : ℚ) < tempo := by exact_mod_cast h.tempo_pos
  have hresolution : (0 : ℚ) < resolution := by exact_mod_cast h.resolution_pos
  have hvalue : (s : ℚ) * (1000 : ℕ) * resolution / tempo = s / tickMs resolution tempo := by
    rw [tickMs]
    push_cast
    field_simp
  -- a time that is not `0` has a millisecond at least, which is most of a tick
  have hmoderate : IsModerate ((s : ℚ) * (1000 : ℕ) * resolution / tempo) := by
    rw [hvalue]
    rcases Nat.eq_zero_or_pos s with rfl | hpos
    · exact .inl (by rw [Nat.cast_zero, zero_div])
    · have hone : (1 : ℚ) ≤ s := by exact_mod_cast hpos
      refine .of_le ?_ ((h.div_tickMs_le hs).trans (by norm_num))
      rw [le_div_iff₀ h.tickMs_pos]
      linarith [h.high]
  obtain ⟨hdivide, hoff⟩ :=
    hscaled.divide (isOff_ofNat h.tempo_le_two_pow) (by decide) htempo hmoderate
  rw [hvalue] at hoff
  rw [thousand_eq, ofInt_natCast hs', ofInt_natCast h.resolution_le_two_pow,
    ofInt_natCast h.tempo_le_two_pow]
  exact ⟨_, hdivide, hoff⟩

/-- The tick that a time of whole milliseconds is written as. -/
def tickOf (resolution tempo s : ℕ) : ℕ :=
  ((ticksOfMs (.ofInt s) (.whole resolution) tempo).toOption.getD 0).toNat

/-- A time is written as a tick that is at most one half away, up to two thousandths. -/
theorem ticksOfMs_eq (h : IsFine resolution tempo) (hs : s ≤ greatestTime) :
    ticksOfMs (.ofInt s) (.whole resolution) tempo = .ok (tickOf resolution tempo s) ∧
      |(tickOf resolution tempo s : ℚ) - s / tickMs resolution tempo| ≤ 1 / 2 + 1 / 500 := by
  obtain ⟨x, hdivide, hoff⟩ := exists_scaled h hs
  have hle := h.div_tickMs_le hs
  obtain ⟨k, hround, hnear⟩ :=
    (hoff.isWithin (by decide) (hle.trans (by norm_num))).roundHalfUp (by linarith)
  have hreal : Number.toReal (.whole resolution) = .ok (.ofInt resolution) :=
    Number.realOfInt_of_natAbs_le (by simpa using h.resolution_le_two_pow)
  have htempo : Number.realOfInt tempo = .ok (.ofInt tempo) :=
    Number.realOfInt_of_natAbs_le (by simpa using h.tempo_le_two_pow)
  have hticks : ticksOfMs (.ofInt s) (.whole resolution) tempo = .ok (k : ℤ) := by
    rw [ticksOfMs, hreal, ok_bind, htempo, ok_bind, hdivide, ok_bind, hround]
  have hk : tickOf resolution tempo s = k := by
    rw [tickOf, hticks]
    exact Int.toNat_natCast k
  rw [hticks, hk]
  exact ⟨rfl, hnear.trans (by norm_num)⟩

theorem abs_tickOf_sub_le (h : IsFine resolution tempo) (hs : s ≤ greatestTime) :
    |(tickOf resolution tempo s : ℚ) - s / tickMs resolution tempo| ≤ 1 / 2 + 1 / 500 :=
  (ticksOfMs_eq h hs).2

/-- The last tick that is written. -/
def lastTick : ℕ := 10 ^ 10 + 1

theorem tickOf_le_lastTick (h : IsFine resolution tempo) (hs : s ≤ greatestTime) :
    tickOf resolution tempo s ≤ lastTick := by
  have hnear := (abs_le.mp (abs_tickOf_sub_le h hs)).2
  have hle := h.div_tickMs_le hs
  have hlt : (tickOf resolution tempo s : ℚ) < lastTick := by
    rw [lastTick]
    push_cast
    linarith
  exact_mod_cast hlt.le

/-- Ticks are apart by what the times are apart, but for the two roundings. -/
theorem div_le_tickOf_sub (h : IsFine resolution tempo) {d : ℕ} (hst : s + d ≤ t)
    (ht : t ≤ greatestTime) :
    d * (4 / 5) - (1 + 1 / 250) ≤ (tickOf resolution tempo t : ℚ) - tickOf resolution tempo s := by
  have hpos := h.tickMs_pos
  have hnear := (abs_le.mp (abs_tickOf_sub_le h ht)).1
  have hnear' := (abs_le.mp (abs_tickOf_sub_le h (by omega : s ≤ greatestTime))).2
  have hdℚ : (s : ℚ) + d ≤ t := by exact_mod_cast hst
  have hticks : (d : ℚ) * (4 / 5) ≤ t / tickMs resolution tempo - s / tickMs resolution tempo := by
    rw [← sub_div, le_div_iff₀ hpos]
    calc (d : ℚ) * (4 / 5) * tickMs resolution tempo ≤ d * (4 / 5) * (5 / 4) :=
          mul_le_mul_of_nonneg_left h.high (by positivity)
      _ ≤ t - s := by linarith
  linarith

/-- Later times are not written as earlier ticks. -/
theorem tickOf_le_tickOf (h : IsFine resolution tempo) (hst : s ≤ t) (ht : t ≤ greatestTime) :
    tickOf resolution tempo s ≤ tickOf resolution tempo t := by
  rcases hst.eq_or_lt with rfl | hlt
  · exact le_rfl
  · -- the ticks are less than one apart in the wrong direction, and so not at all
    have hle := div_le_tickOf_sub h (d := 1) hlt ht
    have hlt' : (tickOf resolution tempo s : ℚ) < tickOf resolution tempo t + 1 := by
      push_cast at hle
      linarith
    exact Nat.lt_succ_iff.mp (by exact_mod_cast hlt')

/-- Times that are two milliseconds apart are written as different ticks. -/
theorem tickOf_lt_tickOf (h : IsFine resolution tempo) (hst : s + 2 ≤ t) (ht : t ≤ greatestTime) :
    tickOf resolution tempo s < tickOf resolution tempo t := by
  have hle := div_le_tickOf_sub h hst ht
  have hlt : (tickOf resolution tempo s : ℚ) < tickOf resolution tempo t := by
    push_cast at hle
    linarith
  exact_mod_cast hlt

/-! ## Reading -/

/-- The length of a tick in seconds. -/
def secondsOfTick (resolution tempo : ℕ) : Binary64 :=
  .ofInt tempo * Tempo.millionth / .ofInt resolution

/-- The time of a tick in milliseconds, at a tempo that holds from the beginning. -/
def timeOfTick (resolution tempo k : ℕ) : Binary64 :=
  0 + .ofInt k * secondsOfTick resolution tempo * thousand

/-- The tempo map of a file with one tempo that holds from the beginning. -/
def steadyMap (resolution tempo : ℕ) : TempoMap := ⟨resolution, ⟨0, tempo, 0⟩, []⟩

theorem segmentAt_steadyMap (tick : ℤ) : (steadyMap resolution tempo).segmentAt tick = ⟨0, tempo, 0⟩ := by
  rw [TempoMap.segmentAt]
  -- wherever the search ends, there is no other segment
  generalize TempoMap.bisect _ _ _ _ _ - 1 = place
  cases place <;> rfl

/-- The length of a tick in seconds has three roundings. -/
theorem exists_secondsOfTick (h : IsStatable resolution tempo) :
    Number.divide (.ofInt tempo * Tempo.millionth) (.ofInt resolution) =
        .ok (secondsOfTick resolution tempo) ∧
      IsOff 3 (secondsOfTick resolution tempo) (tickMs resolution tempo / 1000) := by
  have hresolution : (1 : ℚ) ≤ resolution := by exact_mod_cast h.resolution_pos
  have hresolution' : (resolution : ℚ) ≤ 2 ^ 15 := by
    exact_mod_cast h.resolution_le.trans (by decide : 32767 ≤ 2 ^ 15)
  have htempo : (1 : ℚ) ≤ tempo := by exact_mod_cast h.tempo_pos
  have htempo' : (tempo : ℚ) ≤ 2 ^ 24 := by exact_mod_cast h.tempo_lt.le
  have hpos : (0 : ℚ) < resolution := by linarith
  -- one rounding is in the millionth itself, one in the product and one in the quotient
  have hbeat : IsOff 2 (ofNat tempo h.tempo_le_two_pow * Tempo.millionth) ((tempo : ℚ) * (1 / 10 ^ 6)) :=
    (isOff_ofNat _).mul Tempo.isOff_millionth (by decide) (.of_le (by linarith) (by linarith))
  have hvalue : (tempo : ℚ) * (1 / 10 ^ 6) / resolution = tickMs resolution tempo / 1000 := by
    rw [tickMs]
    push_cast
    field_simp
    norm_num
  have hmoderate : IsModerate ((tempo : ℚ) * (1 / 10 ^ 6) / resolution) := by
    refine .of_le ?_ ?_
    · rw [le_div_iff₀ hpos]
      linarith
    · rw [div_le_iff₀ hpos]
      linarith
  obtain ⟨hdivide, hoff⟩ :=
    hbeat.divide (isOff_ofNat h.resolution_le_two_pow) (by decide) hpos hmoderate
  rw [hvalue] at hoff
  rw [secondsOfTick, ofInt_natCast h.tempo_le_two_pow, ofInt_natCast h.resolution_le_two_pow]
  exact ⟨hdivide, hoff⟩

theorem tickMs_pos (h : IsStatable resolution tempo) : 0 < tickMs resolution tempo := by
  have hresolution : (0 : ℚ) < resolution := by exact_mod_cast h.resolution_pos
  have htempo : (0 : ℚ) < tempo := by exact_mod_cast h.tempo_pos
  rw [tickMs]
  push_cast
  positivity

/-- A tick lasts some time. -/
theorem secondsOfTick_pos (h : IsStatable resolution tempo) :
    (secondsOfTick resolution tempo).isFinite ∧ 0 < secondsOfTick resolution tempo := by
  have hpos : 0 < tickMs resolution tempo / 1000 := div_pos (tickMs_pos h) (by norm_num)
  obtain ⟨-, hoff⟩ := exists_secondsOfTick h
  generalize secondsOfTick resolution tempo = x at hoff
  exact ⟨hoff.isFinite, hoff.pos hpos⟩

/-- Nothing precedes the first segment. -/
theorem timeOfTick_eq (h : IsStatable resolution tempo) (k : ℕ) :
    IsTime (timeOfTick resolution tempo k) ∧
      timeOfTick resolution tempo k = .ofInt k * secondsOfTick resolution tempo * thousand := by
  have hseconds := secondsOfTick_pos h
  have htime := ((isTime_ofInt k).mul hseconds.1 hseconds.2).mul thousand_pos.1 thousand_pos.2
  have heq : timeOfTick resolution tempo k = _ := htime.zero_add
  exact ⟨heq ▸ htime, heq⟩

/-- No ticks take no time. -/
theorem timeOfTick_zero (h : IsStatable resolution tempo) : timeOfTick resolution tempo 0 = 0 := by
  have hnone {q : ℚ} : IsModerate ((0 : ℕ) * q) := .inl (by rw [Nat.cast_zero, zero_mul])
  have hseconds := (isOff_ofNat (Nat.zero_le (2 ^ 53))).mul (exists_secondsOfTick h).2 (by decide) hnone
  have hms := hseconds.mul (isOff_ofNat (by decide : 1000 ≤ 2 ^ 53)) (by decide) (by
    rw [mul_assoc]
    exact hnone)
  rw [mul_assoc, Nat.cast_zero, zero_mul, ← thousand_eq, ← ofInt_natCast] at hms
  rw [(timeOfTick_eq h 0).2, hms.eq_zero]

/-- The time of a tick has five roundings. -/
theorem isOff_timeOfTick (h : IsFine resolution tempo) (hk : k ≤ 2 ^ 53) :
    IsOff 5 (timeOfTick resolution tempo k) (k * tickMs resolution tempo) := by
  have hlow := h.low
  have hhigh := h.high
  have hkℚ : (k : ℚ) ≤ 2 ^ 53 := by exact_mod_cast hk
  -- a number of ticks is moderate in any unit near that of a tick
  have hmoderate {a : ℚ} (halow : 1 / 10000 ≤ a) (hahigh : a ≤ 5 / 4) : IsModerate (k * a) := by
    rcases Nat.eq_zero_or_pos k with rfl | hpos
    · exact .inl (by rw [Nat.cast_zero, zero_mul])
    · have hone : (1 : ℚ) ≤ k := by exact_mod_cast hpos
      refine .of_le ?_ ?_
      · calc (1 : ℚ) / 2 ^ 60 ≤ 1 * (1 / 10000) := by norm_num
          _ ≤ k * a := mul_le_mul hone halow (by norm_num) (by positivity)
      · calc (k : ℚ) * a ≤ 2 ^ 53 * (5 / 4) :=
              mul_le_mul hkℚ hahigh (le_trans (by norm_num) halow) (by norm_num)
          _ ≤ 2 ^ 60 := by norm_num
  have hseconds : IsOff 4 (ofNat k hk * secondsOfTick resolution tempo)
      (k * (tickMs resolution tempo / 1000)) :=
    (isOff_ofNat hk).mul (exists_secondsOfTick h.isStatable).2 (by decide)
      (hmoderate (by linarith) (by linarith))
  have hvalue : (k : ℚ) * (tickMs resolution tempo / 1000) * (1000 : ℕ) =
      k * tickMs resolution tempo := by
    push_cast
    ring
  have hms := hseconds.mul (isOff_ofNat (by decide : 1000 ≤ 2 ^ 53)) (by decide) (by
    rw [hvalue]
    exact hmoderate (by linarith) hhigh)
  rw [hvalue, ← thousand_eq, ← ofInt_natCast hk] at hms
  rw [(timeOfTick_eq h.isStatable k).2]
  exact hms

theorem msOfTicks_eq (h : IsStatable resolution tempo) (hk : (Binary64.ofInt k).isFinite) :
    msOfTicks k resolution tempo = .ok (timeOfTick resolution tempo k) := by
  have hreal {n : ℕ} (hn : n ≤ 2 ^ 53) : Number.realOfInt n = .ok (.ofInt n) :=
    Number.realOfInt_of_natAbs_le (by simpa using hn)
  have hticks : Number.realOfInt k = .ok (.ofInt k) := if_pos hk
  rw [msOfTicks, Tempo.secondsOfTicks_eq (hreal h.tempo_le_two_pow) (hreal h.resolution_le_two_pow),
    (exists_secondsOfTick h).1, ok_bind, hticks, (timeOfTick_eq h k).2]
  rfl

/-- A tick is read as its time. -/
theorem toMs_eq (h : IsStatable resolution tempo) (hk : (Binary64.ofInt k).isFinite) :
    (steadyMap resolution tempo).toMs k = .ok (timeOfTick resolution tempo k) := by
  have hms : msOfTicks (k - 0) resolution tempo = .ok (timeOfTick resolution tempo k) := by
    rw [Int.sub_zero, msOfTicks_eq h hk]
  rw [TempoMap.toMs, segmentAt_steadyMap]
  refine (congrArg (· >>= fun x => .ok (0 + x)) hms).trans ?_
  rw [ok_bind, (timeOfTick_eq h k).1.zero_add]

theorem mul_tickMs_le (h : IsFine resolution tempo) (hk : k ≤ lastTick) :
    (k : ℚ) * tickMs resolution tempo ≤ 2 ^ 34 := by
  have hkℚ : (k : ℚ) ≤ 10 ^ 10 + 1 := by exact_mod_cast hk
  calc (k : ℚ) * tickMs resolution tempo ≤ (10 ^ 10 + 1) * (5 / 4) :=
        mul_le_mul hkℚ h.high h.tickMs_pos.le (by norm_num)
    _ ≤ 2 ^ 34 := by norm_num

/-- The time of a tick is off by at most a thousandth of a millisecond. -/
theorem isWithin_timeOfTick (h : IsFine resolution tempo) (hk : k ≤ lastTick) :
    IsWithin (1 / 1000) (timeOfTick resolution tempo k) (k * tickMs resolution tempo) :=
  (isOff_timeOfTick h (hk.trans (by decide))).isWithin (by decide) (mul_tickMs_le h hk)

/-- A time of milliseconds is read back from its tick less than two thirds of a millisecond away, but
for the error of the reading. -/
theorem abs_tickOf_mul_sub_le (h : IsFine resolution tempo) (hs : s ≤ greatestTime) :
    |(tickOf resolution tempo s : ℚ) * tickMs resolution tempo - s| ≤ 63 / 100 := by
  have hpos := h.tickMs_pos
  have hvalue : (tickOf resolution tempo s : ℚ) * tickMs resolution tempo - s =
      (tickOf resolution tempo s - s / tickMs resolution tempo) * tickMs resolution tempo := by
    rw [sub_mul, div_mul_cancel₀ _ hpos.ne']
  rw [hvalue, abs_mul, abs_of_pos hpos]
  calc _ ≤ (1 / 2 + 1 / 500) * (5 / 4 : ℚ) :=
        mul_le_mul (abs_tickOf_sub_le h hs) h.high hpos.le (by norm_num)
    _ ≤ 63 / 100 := by norm_num

/-- The length of two milliseconds or more is read back to the millisecond, or one more or less. -/
theorem exists_length_of_ticks (h : IsFine resolution tempo) (hst : s + 2 ≤ t)
    (ht : t ≤ greatestTime) :
    ∃ k : ℕ, Number.roundHalfUp (timeOfTick resolution tempo (tickOf resolution tempo t) -
        timeOfTick resolution tempo (tickOf resolution tempo s)) = .ok k ∧
      0 < k ∧ |(k : ℤ) - (t - s : ℕ)| ≤ 1 := by
  have hs : s ≤ greatestTime := by omega
  have hlast := tickOf_le_lastTick h ht
  have hsmall := mul_tickMs_le h hlast
  have hnonneg : 0 ≤ (tickOf resolution tempo s : ℚ) * tickMs resolution tempo :=
    mul_nonneg (Nat.cast_nonneg _) h.tickMs_pos.le
  have hticks : ((tickOf resolution tempo s : ℚ) + 1) * tickMs resolution tempo ≤
      tickOf resolution tempo t * tickMs resolution tempo := by
    refine mul_le_mul_of_nonneg_right ?_ h.tickMs_pos.le
    exact_mod_cast tickOf_lt_tickOf h hst ht
  have hlow := h.low
  have hdifference := (isWithin_timeOfTick h hlast).sub
    (isWithin_timeOfTick h (tickOf_le_lastTick h hs)) (by linarith) (by linarith)
  obtain ⟨k, hround, hnear⟩ := hdifference.roundHalfUp (by linarith)
  obtain ⟨hslow, hshigh⟩ := abs_le.mp (abs_tickOf_mul_sub_le h hs)
  obtain ⟨htlow, hthigh⟩ := abs_le.mp (abs_tickOf_mul_sub_le h ht)
  obtain ⟨hklow, hkhigh⟩ := abs_le.mp hnear
  have hlength : ((t - s : ℕ) : ℚ) = t - s := Nat.cast_sub (by omega)
  -- all errors together are less than two milliseconds
  have hbelow : ((t - s : ℕ) : ℚ) < k + 2 := by linarith
  have habove : (k : ℚ) < (t - s : ℕ) + 2 := by linarith
  have hbelow' : t - s < k + 2 := by exact_mod_cast hbelow
  have habove' : k < t - s + 2 := by exact_mod_cast habove
  exact ⟨k, hround, by omega, abs_le.mpr ⟨by omega, by omega⟩⟩

/-- A tempo that is stated at the beginning holds throughout. -/
theorem ofChanges_steady (h : IsStatable resolution tempo) :
    TempoMap.ofChanges resolution [(0, (tempo : ℤ))] = .ok (steadyMap resolution tempo) := by
  have hzero : msOfTicks (0 - 0) resolution tempo = .ok 0 := by
    have hms := msOfTicks_eq (k := 0) h (isFinite_ofInt (fits_mul_one (Nat.zero_le _)))
    rw [timeOfTick_zero h] at hms
    exact hms
  have hsum : (0 : Binary64) + 0 = 0 := isTime_zero.zero_add
  have hstart : TempoMap.next resolution ⟨0, tempo, 0⟩ (0, (tempo : ℤ)) = .ok ⟨0, tempo, 0⟩ := by
    rw [TempoMap.next, hzero, ok_bind, hsum]
    rfl
  have horder : TempoMap.inOrder [(0, (tempo : ℤ))] = ((0, (tempo : ℤ)), []) := by
    rw [TempoMap.inOrder, List.mergeSort_singleton]
    rfl
  rw [TempoMap.ofChanges, horder]
  simp only [hstart, ok_bind]
  rfl

end Monody.Midi
