import Mathlib.Tactic.Ring
import Monody.Text.Numeral

/-!
# Written numbers read back

The decimal digits that a number is written with are digits among all those that are read, and they
are read as that number. Zeros before them do not matter, and zeros after them are factors of ten.

## Main results

* `digitsValue_toDigits` — what is written is read as the same number
* `digitsValue_append`, `digitsValue_replicate_append` — digits after and zeros before others
* `isShown_iff` — which integers are shown
-/

namespace Monody.Text

variable {c : Char} {cs ds : List Char}

theorem toNat_of_isDigit (h : c.isDigit) : 48 ≤ c.toNat ∧ c.toNat ≤ 57 := by
  simp only [Char.isDigit, Bool.and_eq_true, decide_eq_true_eq, ge_iff_le,
    UInt32.le_iff_toNat_le] at h
  exact h

theorem digitValue?_of_isDigit (h : c.isDigit) : digitValue? c = some (c.toNat - 48) := by
  have hrange := toNat_of_isDigit h
  have hfirst : (decide (48 ≤ c.toNat) && decide (c.toNat < 48 + 10)) = true := by
    rw [Bool.and_eq_true, decide_eq_true_iff, decide_eq_true_iff]
    omega
  have hzeros : zeroPoints = 48 :: zeroPoints.tail := rfl
  rw [digitValue?, hzeros, List.find?_cons, hfirst]
  rfl

/-- The decimal digits are among the digits that are read. -/
theorem isDigit_of_isDigit (h : c.isDigit) : isDigit c := by
  rw [isDigit, digitValue?_of_isDigit h]
  rfl

theorem foldl_digitValue (h : ∀ c ∈ cs, c.isDigit) (n : Nat) :
    cs.foldl (fun n c => 10 * n + (digitValue? c).getD 0) n = Nat.ofDigitChars 10 cs n := by
  induction cs generalizing n with
  | nil => rfl
  | cons c cs ih =>
    have hc := digitValue?_of_isDigit (h c List.mem_cons_self)
    rw [List.foldl_cons, hc, Nat.ofDigitChars_cons]
    exact ih (fun c hc => h c (List.mem_cons_of_mem _ hc)) _

theorem digitsValue_eq_ofDigitChars (h : ∀ c ∈ cs, c.isDigit) :
    digitsValue cs = Nat.ofDigitChars 10 cs 0 :=
  foldl_digitValue h 0

theorem isDigit_of_mem_toDigits {n : Nat} (h : c ∈ Nat.toDigits 10 n) : c.isDigit :=
  Nat.isDigit_of_mem_toDigits (by decide) (by decide) h

theorem isDigit_of_mem_replicate {k : Nat} (h : c ∈ List.replicate k '0') : c.isDigit := by
  rw [List.eq_of_mem_replicate h]
  rfl

/-- What a number is written with is read as that number. -/
theorem digitsValue_toDigits (n : Nat) : digitsValue (Nat.toDigits 10 n) = n := by
  rw [digitsValue_eq_ofDigitChars fun _ => isDigit_of_mem_toDigits, Nat.ofDigitChars_ten_toDigits]

theorem digitsValue_append (hcs : ∀ c ∈ cs, c.isDigit) (hds : ∀ c ∈ ds, c.isDigit) :
    digitsValue (cs ++ ds) = 10 ^ ds.length * digitsValue cs + digitsValue ds := by
  have hall : ∀ c ∈ cs ++ ds, c.isDigit := by
    intro c hc
    exact (List.mem_append.mp hc).elim (hcs c) (hds c)
  rw [digitsValue_eq_ofDigitChars hall, digitsValue_eq_ofDigitChars hcs,
    digitsValue_eq_ofDigitChars hds, Nat.ofDigitChars_append, Nat.ofDigitChars_eq_ofDigitChars_zero]

/-- Zeros at the end are factors of ten. -/
theorem digitsValue_append_replicate (hcs : ∀ c ∈ cs, c.isDigit) (k : Nat) :
    digitsValue (cs ++ List.replicate k '0') = digitsValue cs * 10 ^ k := by
  have hzeros : digitsValue (List.replicate k '0') = 0 := by
    rw [digitsValue_eq_ofDigitChars fun _ => isDigit_of_mem_replicate,
      Nat.ofDigitChars_replicate_zero, Nat.mul_zero]
  rw [digitsValue_append hcs fun _ => isDigit_of_mem_replicate, hzeros, List.length_replicate,
    Nat.add_zero, Nat.mul_comm]

/-- Zeros at the beginning do not matter. -/
theorem digitsValue_replicate_append (hcs : ∀ c ∈ cs, c.isDigit) (k : Nat) :
    digitsValue (List.replicate k '0' ++ cs) = digitsValue cs := by
  have hall : ∀ c ∈ List.replicate k '0' ++ cs, c.isDigit := by
    intro c hc
    exact (List.mem_append.mp hc).elim isDigit_of_mem_replicate (hcs c)
  rw [digitsValue_eq_ofDigitChars hall, digitsValue_eq_ofDigitChars hcs, Nat.ofDigitChars_append,
    Nat.ofDigitChars_replicate_zero, Nat.mul_zero]

/-! ## Integers that are shown -/

/-- An integer is shown up to the greatest with as many digits as are converted. -/
theorem isShown_iff {n : Int} : isShown n ↔ n.natAbs < 10 ^ integerPlaces := by
  have hlength : (toString n.natAbs).length = (Nat.toDigits 10 n.natAbs).length := by
    rw [← String.length_toList]
    exact congrArg List.length Nat.toList_repr
  rw [isShown, hlength, decide_eq_true_iff]
  exact Nat.length_toDigits_le_iff (by decide) (by decide)

theorem isShown_of_le {j k : ℕ} (hjk : j ≤ k) (hk : isShown k) : isShown j :=
  isShown_iff.mpr (lt_of_le_of_lt hjk (isShown_iff.mp hk))

@[simp] theorem isShown_neg (n : Int) : isShown (-n) = isShown n := by
  rw [isShown, isShown, Int.natAbs_neg]

/-- Two integers that are shown may have a sum that is not. -/
theorem exists_isShown_not_isShown_add : ∃ n, isShown n ∧ ¬ isShown (n + n) := by
  obtain ⟨k, hk⟩ : ∃ k, integerPlaces = k + 1 := ⟨4299, rfl⟩
  have hpos : 0 < 10 ^ k := Nat.pow_pos (by decide)
  refine ⟨(5 * 10 ^ k : ℕ), isShown_iff.mpr ?_, fun h => ?_⟩
  · rw [Int.natAbs_natCast, hk, pow_succ]
    omega
  · have hlt := isShown_iff.mp h
    rw [← Nat.cast_add, Int.natAbs_natCast, hk, pow_succ] at hlt
    omega

/-- Two positive factors that are shown may have a product that is not. -/
theorem exists_isShown_not_isShown_mul :
    ∃ n : ℕ, 0 < n ∧ isShown n ∧ ¬ isShown (n * n : ℕ) := by
  obtain ⟨k, hk, hpos⟩ : ∃ k, integerPlaces = k + k ∧ 0 < k := ⟨2150, rfl, by decide⟩
  refine ⟨10 ^ k, Nat.pow_pos (by decide), isShown_iff.mpr ?_, fun h => ?_⟩
  · rw [Int.natAbs_natCast]
    exact Nat.pow_lt_pow_right (by decide) (by omega)
  · have hlt := isShown_iff.mp h
    rw [Int.natAbs_natCast, ← pow_add, hk] at hlt
    exact lt_irrefl _ hlt

end Monody.Text
