import Monody.Midi.Tempo
import Monody.Outcome
import Monody.Proofs.Binary64.Halves

/-!
# The nearest tick

A time in milliseconds is scaled to a number of ticks, which is a quotient of binary numbers, and that goes
to the nearest tick, a half going up. How near the quotient is to the exact one is not looked at here. What
is made of it is the nearest tick for all quotients but the number before one half, whose tick is `1`
instead of `0`, and the odd numbers beyond `2 ^ 52`, whose tick is the one after them. The first of these
is the quotient of a time that can be written: at the resolution and the tempo of a file that is not told
otherwise, it is that of the number before one half.

## Main definitions

* `tickQuotient` — a time as a number of ticks, before it is taken to a whole one

## Main results

* `ticksOfMs_eq_bind` — ticks are the nearest integers of quotients
* `nearest_iff` — the nearest integer and the nearest tick are found exactly where no half is lost
-/

namespace Monody.Midi

open Binary64

variable {x : Binary64}

/-- A time in milliseconds as a number of ticks, which need not be whole. -/
def tickQuotient (ms : Binary64) (resolution : Number) (tempo : Int) : Except Number.Fault Binary64 := do
  let scaled := ms * thousand * (← resolution.toReal)
  Number.divide scaled (← Number.realOfInt tempo)

theorem ticksOfMs_eq_bind (ms : Binary64) (resolution : Number) (tempo : Int) :
    ticksOfMs ms resolution tempo = (tickQuotient ms resolution tempo >>= Number.roundHalfUp) := by
  simp only [ticksOfMs, tickQuotient, bind_assoc]

/-- Every finite number has a nearest integer, and it is the floor of the exact sum with one half unless
the number loses its half; then it is one more. Of a time whose number of ticks it is, it is the tick. -/
theorem nearest_iff (hx : x.isFinite) :
    ∃ z, Number.roundHalfUp x = .ok z ∧ (z = ⌊x.value + 1 / 2⌋ ↔ ¬ LosesHalf x) ∧
      (LosesHalf x → z = ⌊x.value + 1 / 2⌋ + 1) ∧
      ∀ ms resolution tempo, tickQuotient ms resolution tempo = .ok x →
        ticksOfMs ms resolution tempo = .ok z := by
  obtain ⟨z, hz, hkept, hlost⟩ := roundHalfUp_eq hx
  refine ⟨z, hz, ⟨fun heq h => ?_, hkept⟩, hlost, fun ms resolution tempo hquotient => ?_⟩
  · have := hlost h
    omega
  · rw [ticksOfMs_eq_bind, hquotient, ok_bind, hz]

/-- The first even number after `2 ^ 52` has no room for a half, and is its own nearest integer. -/
theorem nearest_even :
    Number.roundHalfUp (ofNat (2 ^ 52 + 2) (by decide)) = .ok ((2 ^ 52 + 2 : ℕ) : ℤ) := by
  obtain ⟨z, hz, hexact, -, -⟩ := nearest_iff (x := ofNat (2 ^ 52 + 2) (by decide)) rfl
  have hkept : ¬ LosesHalf (ofNat (2 ^ 52 + 2) (by decide)) := by
    rw [losesHalf_ofNat_iff _ (by decide)]
    decide
  have hfloor : ⌊((2 ^ 52 + 2 : ℕ) : ℚ) + 1 / 2⌋ = ((2 ^ 52 + 2 : ℕ) : ℤ) := by
    norm_num [Int.floor_eq_iff]
  rw [hz, hexact.mpr hkept, value_ofNat, hfloor]

/-- The number before one half is rounded to `1`, although it is nearer to `0`. -/
theorem not_nearest : ¬ ∀ x : Binary64, x.isFinite → Number.roundHalfUp x = .ok ⌊x.value + 1 / 2⌋ := by
  intro h
  have hexact := h (.finite false (2 * quarter - crumb) (by decide +kernel)) rfl
  rw [floor_value_add_half] at hexact
  revert hexact
  decide +kernel

end Monody.Midi
