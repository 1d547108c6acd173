import Monody.Midi.Library
import Monody.Proofs.Binary64.Error
import Monody.Proofs.Binary64.Range

/-!
# Tempi and the length of ticks

The tempo of beats that divide a minute is exact. The length of ticks is their number times the length of
one tick, which is a quotient; one of its factors is a millionth, up to a rounding.

## Main results

* `ofBpm_of_mul_eq` — the tempo of beats that divide a minute
* `secondsOfTicks_eq`, `exists_of_secondsOfTicks` — the length of ticks whose tempo and resolution a real
  holds, and of no others
* `isOff_millionth`, `isUnder_millionth` — how far the millionth is off, and how small it is
* `ofTempo?_eq_some_iff` — the tempi that an event can state
-/

namespace Monody.Midi

open Binary64

-- evaluated, the numbers of units are too long to be looked at
attribute [local irreducible] one bound

namespace Tempo

variable {ticks resolution tempo : ℤ} {b r x : Binary64}

/-! ## Beats -/

/-- Beats that divide a minute have that part of its microseconds. -/
theorem ofBpm_of_mul_eq {k n : ℕ} (h : k * n = 60000000) : ofBpm (.whole n) = .ok k := by
  have hn : 0 < n := Nat.pos_of_ne_zero (by rintro rfl; simp at h)
  have hk : k ≤ 60000000 := h ▸ Nat.le_mul_of_pos_right k hn
  have hn' : n ≤ 2 ^ 53 := by
    have hle : n ≤ k * n := Nat.le_mul_of_pos_left n (Nat.pos_of_ne_zero (by rintro rfl; simp at h))
    omega
  have hminute : minute = ofNat (k * n) (by omega) := by
    rw [minute, ← ofInt_natCast (by omega), h]
    rfl
  have hbpm : Number.toReal (.whole n) = .ok (ofNat n hn') := Number.realOfInt_natCast _
  have hfour : (4 : Binary64) = ofNat 4 (by decide) := ofInt_natCast _
  have hmeasure : ofNat k (by omega) * ofNat 4 (by decide) / ofNat 4 (by decide) = ofNat k (by omega) := by
    rw [ofNat_mul_ofNat _ _ (by omega), ofNat_mul_div_ofNat _ _ _ (by decide)]
  have hbeat : Number.divide (ofNat (k * n) (by omega)) (ofNat n hn') = .ok (ofNat k (by omega)) :=
    Number.divide_ofNat _ _ _ hn
  rw [ofBpm, hbpm, ok_bind, hminute, hbeat, ok_bind, hfour, hmeasure]
  exact Number.round_ofNat _

/-! ## Ticks -/

/-- Where a real holds tempo and resolution, the length of ticks is their number times that of one. -/
theorem secondsOfTicks_eq (hb : Number.realOfInt tempo = .ok b)
    (hr : Number.realOfInt resolution = .ok r) : secondsOfTicks ticks resolution tempo =
      (Number.divide (b * millionth) r >>= fun tick => (Number.realOfInt ticks).map (· * tick)) := by
  rw [secondsOfTicks, hb, ok_bind, hr, ok_bind]
  refine congrArg _ (funext fun tick => ?_)
  cases Number.realOfInt ticks <;> rfl

/-- Ticks have a length only where a real holds tempo and resolution. -/
theorem exists_of_secondsOfTicks (h : secondsOfTicks ticks resolution tempo = .ok x) :
    ∃ b r, Number.realOfInt tempo = .ok b ∧ Number.realOfInt resolution = .ok r := by
  obtain ⟨b, hb, h⟩ := exists_of_bind_eq_ok h
  obtain ⟨r, hr, -⟩ := exists_of_bind_eq_ok h
  exact ⟨b, r, hb, hr⟩

/-! ## The millionth -/

/-- At most one rounding away from one millionth. -/
def isNearMillionth : Binary64 → Bool
  | finite false n _ =>
    one * 2 ^ 52 ≤ n * 10 ^ 6 * (2 ^ 52 + 1) ∧ n * 10 ^ 6 * 2 ^ 52 ≤ one * (2 ^ 52 + 1)
  | _ => false

theorem isOff_millionth : IsOff 1 millionth (1 / 10 ^ 6) := by
  have hnear : isNearMillionth millionth := by decide +kernel
  unfold isNearMillionth at hnear
  split at hnear
  · next n hn heq =>
    obtain ⟨hlow, hhigh⟩ := of_decide_eq_true hnear
    have hlowℚ : (one : ℚ) * 2 ^ 52 ≤ n * 10 ^ 6 * (2 ^ 52 + 1) := by exact_mod_cast hlow
    have hhighℚ : (n : ℚ) * 10 ^ 6 * 2 ^ 52 ≤ one * (2 ^ 52 + 1) := by exact_mod_cast hhigh
    rw [heq]
    refine .intro hn ?_ ?_ <;> rw [pow_one, slack] <;> linarith
  · cases hnear

theorem isUnder_millionth : IsUnder (unitPlaces - 19) millionth := by
  have hoff := isOff_millionth
  generalize millionth = x at hoff
  generalize hq : (1 / 10 ^ 6 : ℚ) = q at hoff
  cases hoff with
  | @intro n _ hn _ hhigh =>
    refine .intro hn ?_
    have hone : one = 2 ^ 19 * 2 ^ (unitPlaces - 19) := by
      rw [one_eq, ← Nat.pow_add]
      exact congrArg (2 ^ ·) (by decide : unitPlaces = 19 + (unitPlaces - 19))
    -- it is far enough below this power of two for the error of its rounding
    have hle : (n : ℚ) ≤ (2 ^ (unitPlaces - 19) : ℕ) := by
      rw [hone] at hhigh
      generalize 2 ^ (unitPlaces - 19) = u at hhigh
      have hu : (0 : ℚ) ≤ u := Nat.cast_nonneg u
      subst hq
      rw [pow_one, slack] at hhigh
      push_cast at hhigh
      linarith
    exact_mod_cast hle

end Tempo

/-! ## Events -/

theorem TrackEvent.ofTempo?_eq_some_iff {tempo : ℤ} {e : TrackEvent} :
    TrackEvent.ofTempo? tempo = some e ↔
      (0 ≤ tempo ∧ tempo ≤ Tempo.greatest) ∧ e = .tempo tempo.toNat := by
  rw [TrackEvent.ofTempo?]
  split
  · next hrange => exact ⟨fun h => ⟨hrange, (Option.some.inj h).symm⟩, fun h => congrArg some h.2.symm⟩
  · next hrange => exact iff_of_false nofun fun h => hrange h.1

end Monody.Midi
