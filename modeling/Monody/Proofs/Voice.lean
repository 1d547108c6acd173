import Monody.Proofs.Binary64.Whole
import Monody.Voice

/-!
# Voices that can be heard

Where the volume of a voice lies between 0 and 1, its notes have a velocity.
-/

namespace Monody

/-- The volume is from 0 to 1. -/
def Voice.IsAudible (v : Voice) : Prop := 0 ≤ v.volume ∧ v.volume ≤ 1

namespace Voice

/-- A real volume is at most 1 in absolute value. -/
theorem units_le_one {s : Bool} {n : Nat} {hn : Binary64.Fits n}
    (hhigh : .real (.finite s n hn) ≤ (1 : Number)) (hlow : 0 ≤ Number.real (.finite s n hn)) :
    n ≤ Binary64.one := by
  have hlow' : 0 ≤ Binary64.signedUnits s n := by
    rcases hlow with h | h
    · rw [← Int.zero_mul (Binary64.one : Int)]
      exact (compare_lt_iff_lt.mp (Option.some.inj h)).le
    · rw [← Int.zero_mul (Binary64.one : Int)]
      exact (compare_eq_iff_eq.mp (Option.some.inj h)).le
  have hhigh' : Binary64.signedUnits s n ≤ (Binary64.one : Nat) := by
    rcases hhigh with h | h
    · rw [← Int.one_mul (Binary64.one : Int)]
      exact (compare_lt_iff_lt.mp (Option.some.inj h)).le
    · rw [← Int.one_mul (Binary64.one : Int)]
      exact (compare_eq_iff_eq.mp (Option.some.inj h)).le
  generalize Binary64.one = one at hhigh' ⊢
  cases s <;> simp only [Binary64.signedUnits, ite_true, Bool.false_eq_true, ite_false] at hlow' hhigh' <;>
    omega

/-- The velocity of an instrument times a volume between 0 and 1 has a result. -/
theorem velocity_ok {v : Voice} (h : v.IsAudible) : ∃ d, v.velocity = .ok d := by
  obtain ⟨hlow, hhigh⟩ := h
  have hvelocity : v.instrument.velocity ≤ 2 ^ 53 := by cases v.instrument <;> decide
  unfold velocity
  generalize v.volume = volume at hlow hhigh
  generalize v.instrument.velocity = k at hvelocity
  cases volume with
  | whole n => exact ⟨_, rfl⟩
  | real x =>
    cases x with
    | nan => exact absurd hlow (by decide)
    | infinite s => cases s <;> first | exact absurd hlow (by decide) | exact absurd hhigh (by decide)
    | finite s n hn =>
      have hle : k * Binary64.one * n ≤ k * Binary64.one * Binary64.one :=
        Nat.mul_le_mul_left _ (units_le_one hhigh hlow)
      obtain ⟨hfits, hproduct, -⟩ := Binary64.ofRatio_of_le (false != s) Binary64.one_pos
        (Binary64.fits_mul_one hvelocity) hle
      rw [Number.whole_mul_real hvelocity, Binary64.ofNat_mul_finite, hproduct]
      exact ⟨_, rfl⟩

end Voice

end Monody
