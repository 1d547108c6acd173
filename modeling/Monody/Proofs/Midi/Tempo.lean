import Monody.Proofs.Midi.Ticks

/-!
# The tempo of a file that is not told otherwise

One tick is then one millisecond. A time of whole milliseconds is written as that number of ticks.
Read back, a tick is multiplied by a length that is not quite one thousandth, so that its time is
only near the millisecond, but for times up to `10 ^ 9` milliseconds it stays closer than a sixteenth
of one.

## Main definitions

* `defaultMap` — the tempo map of such a file
* `tickTime` — the time of a tick in milliseconds

## Main results

* `ticksOfMs_natCast` — whole milliseconds to ticks
* `toMs_natCast`, `near_tickTime` — ticks to times near whole milliseconds
-/

namespace Monody.Midi

open Binary64

-- evaluated, the numbers of units are too long to be looked at
attribute [local irreducible] one bound

variable {k : ℕ}

/-- The tempo of `defaultBpm`, in microseconds a beat. -/
def defaultTempo : ℕ := 480000

theorem ofBpm_defaultBpm : Tempo.ofBpm (.whole defaultBpm) = .ok defaultTempo :=
  Tempo.ofBpm_of_mul_eq (by decide : 480000 * 125 = 60000000)

/-! ## Writing -/

/-- A time that is a whole number of ticks is written as that number. -/
theorem ticksOfMs_of_mul_eq {j k resolution tempo : ℕ} (h : k * 1000 * resolution = j * tempo)
    (hsmall : j * tempo ≤ 2 ^ 50) (hresolution : 0 < resolution) (htempo : 0 < tempo)
    (htempo' : tempo ≤ 2 ^ 53) (hresolution' : resolution ≤ 2 ^ 53) :
    ticksOfMs (ofInt k) (.whole resolution) tempo = .ok j := by
  have hk : k * 1000 ≤ k * 1000 * resolution := Nat.le_mul_of_pos_right _ hresolution
  have hj : j ≤ j * tempo := Nat.le_mul_of_pos_right _ htempo
  have hthousand : thousand = ofNat 1000 (by decide) := ofInt_natCast _
  have hmicroseconds : ofNat k (by omega) * ofNat 1000 (by decide) = ofNat (k * 1000) (by omega) :=
    ofNat_mul_ofNat _ _ _
  have hscaled : ofNat (k * 1000) (by omega) * ofNat resolution hresolution' =
      ofNat (k * 1000 * resolution) (by omega) := ofNat_mul_ofNat _ _ _
  have htotal : ofNat (k * 1000 * resolution) (by omega) = ofNat (j * tempo) (by omega) := by
    congr
  have hreal : Number.toReal (.whole resolution) = .ok (ofNat resolution hresolution') :=
    Number.realOfInt_natCast _
  rw [ticksOfMs, hreal, ok_bind, Number.realOfInt_natCast htempo', ok_bind,
    ofInt_natCast (by omega), hthousand, hmicroseconds, hscaled, htotal,
    Number.divide_ofNat _ _ (by omega) htempo, ok_bind]
  exact (near_ofNat _).roundHalfUp (by omega)

/-- A time of whole milliseconds is written as that number of ticks. -/
theorem ticksOfMs_natCast (hk : k ≤ greatestTime) :
    ticksOfMs (ofInt k) (.whole defaultResolution) defaultTempo = .ok k := by
  rw [greatestTime] at hk
  have htempo : defaultTempo = 1000 * 480 := rfl
  refine ticksOfMs_of_mul_eq ?_ ?_ (by decide) (by decide) (by decide) (by decide)
  · rw [htempo, Nat.mul_assoc]
  · rw [htempo]
    omega

/-! ## Reading -/

/-- A tick is one millisecond. -/
theorem isFine_default : IsFine 480 defaultTempo := by
  have hvalue : tickMs (480 : ℕ) (defaultTempo : ℕ) = 1 := by norm_num [tickMs, defaultTempo]
  refine ⟨by decide, by decide, ?_, ?_⟩ <;> rw [hvalue] <;> norm_num

/-- The tempo map of a file with one tempo, that of `defaultBpm`, from its beginning. -/
def defaultMap : TempoMap := steadyMap 480 defaultTempo

theorem ofChanges_default :
    TempoMap.ofChanges defaultResolution [(0, (defaultTempo : ℤ))] = .ok defaultMap :=
  ofChanges_steady isFine_default.isStatable

/-- The time of a tick in milliseconds. -/
def tickTime (k : ℕ) : Binary64 := timeOfTick 480 defaultTempo k

theorem toMs_natCast (hk : k ≤ greatestTime) : defaultMap.toMs k = .ok (tickTime k) :=
  toMs_eq isFine_default.isStatable (isFinite_ofInt (fits_mul_one (hk.trans (by decide))))

/-- The time of a tick is near the millisecond of that number. -/
theorem near_tickTime (hk : k ≤ greatestTime) : Near 16 (tickTime k) k := by
  have hwithin := isWithin_timeOfTick isFine_default (hk.trans (by decide))
  have hvalue : (k : ℚ) * tickMs (480 : ℕ) (defaultTempo : ℕ) = k := by
    norm_num [tickMs, defaultTempo]
  rw [hvalue] at hwithin
  exact hwithin.near (by norm_num)

end Monody.Midi
