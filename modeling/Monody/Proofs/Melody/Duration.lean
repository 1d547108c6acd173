import Mathlib.Data.List.TakeWhile
import Monody.Melody.Printer
import Monody.Outcome
import Monody.Proofs.Binary64.Decimal
import Monody.Proofs.Text.Digits

/-!
# Durations that read back

A duration is written as a whole number or as digits with a point, and both are read as the duration
that was written. The default duration is not written at all, and read where none stands.

## Main definitions

* `IsDurationShape` — what looks like a duration in a token
* `IsDurationText` — what may be written for a duration

## Main results

* `readDuration?_positional` — digits with a point are read as the decimal they write
* `writeDuration_whole` — a whole number is written, and read back as the number nearest to it
* `writeDuration_ok` — a finite positive duration is written, and read back
-/

namespace Monody.Melody

open Text Binary64

attribute [local irreducible] one bound

variable {n : Nat} {whole part : List Char} {x : Binary64} {w : List Char}

/-! ## Reading -/

theorem isDigit_ne {c d : Char} (hd : isDigit d = false) (hc : isDigit c) : c ≠ d := by
  rintro rfl
  rw [hd] at hc
  exact Bool.noConfusion hc

/-- Digits are not followed by a line break when none is among them. -/
theorem getLast?_ne_newline {cs : List Char} (h : ∀ c ∈ cs, isDigit c ∨ c = '.') :
    cs.getLast? ≠ some '\n' := by
  intro hlast
  rcases h '\n' (List.mem_of_getLast? hlast) with hdigit | hpoint
  · exact isDigit_ne (by decide +kernel) hdigit rfl
  · exact absurd hpoint (by decide)

/-- Digits alone write a whole number. -/
theorem readDuration?_digits (hwhole : ∀ c ∈ whole, isDigit c) (hne : whole ≠ []) :
    readDuration? whole =
      let value := ofDecimal false ⟨digitsValue whole, 0⟩
      if value ≤ 0 then none else some value := by
  have hlast := getLast?_ne_newline fun c hc => .inl (hwhole c hc)
  have htake : whole.takeWhile isDigit = whole := List.takeWhile_eq_self_iff.mpr hwhole
  have hdrop : whole.dropWhile isDigit = [] := List.dropWhile_eq_nil_iff.mpr hwhole
  simp [readDuration?, hlast, htake, hdrop, hne]

/-- Digits with a point among them write a decimal with as many places as stand after it. -/
theorem readDuration?_point (hwhole : ∀ c ∈ whole, isDigit c) (hne : whole ≠ [])
    (hpart : ∀ c ∈ part, isDigit c) (hne' : part ≠ []) :
    readDuration? (whole ++ '.' :: part) =
      let value := ofDecimal false ⟨digitsValue (whole ++ part), -part.length⟩
      if value ≤ 0 then none else some value := by
  have hlast : (whole ++ '.' :: part).getLast? ≠ some '\n' := by
    refine getLast?_ne_newline fun c hc => ?_
    rcases List.mem_append.mp hc with hc | hc
    · exact .inl (hwhole c hc)
    · rcases List.mem_cons.mp hc with rfl | hc
      · exact .inr rfl
      · exact .inl (hpart c hc)
  have hpoint : isDigit '.' = false := by decide +kernel
  have htake : (whole ++ '.' :: part).takeWhile isDigit = whole := by
    rw [List.takeWhile_append_of_pos hwhole, List.takeWhile_cons_of_neg (by simp [hpoint]),
      List.append_nil]
  have hdrop : (whole ++ '.' :: part).dropWhile isDigit = '.' :: part := by
    rw [List.dropWhile_append_of_pos hwhole, List.dropWhile_cons_of_neg (by simp [hpoint])]
  have hall : part.all isDigit = true := List.all_eq_true.mpr hpart
  simp only [readDuration?, if_neg hlast, htake, hdrop]
  simp [hne, hne', hall]

/-- A decimal without places is written with zeros to its point and one behind it. -/
theorem readDuration?_positional_ofNat (digits e : ℕ) :
    readDuration? (Decimal.positional ⟨digits, .ofNat e⟩) =
      let value := ofDecimal false ⟨digits, e⟩
      if value ≤ 0 then none else some value := by
  have hdigits : ∀ c ∈ Decimal.digitList digits, c.isDigit := fun _ => isDigit_of_mem_toDigits
  have hwhole : ∀ c ∈ Decimal.digitList digits ++ List.replicate e '0', isDigit c := fun c hc =>
    isDigit_of_isDigit ((List.mem_append.mp hc).elim (hdigits c) isDigit_of_mem_replicate)
  have hne : Decimal.digitList digits ++ List.replicate e '0' ≠ [] :=
    List.append_ne_nil_of_left_ne_nil Nat.toDigits_ne_nil _
  have hvalue : digitsValue (Decimal.digitList digits ++ List.replicate e '0' ++ ['0']) =
      digits * 10 ^ (e + 1) := by
    rw [List.append_assoc, ← List.replicate_succ', digitsValue_append_replicate hdigits,
      Decimal.digitList, digitsValue_toDigits]
  have hexponent : -(['0'].length : ℤ) = (e : ℤ) - (e + 1 : ℕ) := by
    simp only [List.length_singleton]
    omega
  have hzero : ∀ c ∈ ['0'], isDigit c := List.forall_mem_singleton.mpr rfl
  rw [show Decimal.positional ⟨digits, .ofNat e⟩ =
      Decimal.digitList digits ++ List.replicate e '0' ++ '.' :: ['0'] from rfl,
    readDuration?_point hwhole hne hzero (by simp), hvalue, hexponent,
    ofDecimal_shift false digits e (e + 1)]

/-- A decimal with places is written with zeros in front, so that a digit stands before its point. -/
theorem readDuration?_positional_negSucc (digits e : ℕ) :
    readDuration? (Decimal.positional ⟨digits, .negSucc e⟩) =
      let value := ofDecimal false ⟨digits, .negSucc e⟩
      if value ≤ 0 then none else some value := by
  have hdigits : ∀ c ∈ Decimal.digitList digits, c.isDigit := fun _ => isDigit_of_mem_toDigits
  -- there are more characters than places, so that the point has digits on both sides
  let zeros := List.replicate (e + 1 + 1 - (Decimal.digitList digits).length) '0'
  let padded := zeros ++ Decimal.digitList digits
  have hall : ∀ c ∈ padded, isDigit c := fun c hc =>
    isDigit_of_isDigit ((List.mem_append.mp hc).elim isDigit_of_mem_replicate (hdigits c))
  have hlength : e + 1 < padded.length := by
    rw [List.length_append, List.length_replicate]
    omega
  have hwhole : padded.take (padded.length - (e + 1)) ≠ [] := by
    rw [← List.length_pos_iff, List.length_take]
    omega
  have hplaces : (padded.drop (padded.length - (e + 1))).length = e + 1 := by
    rw [List.length_drop]
    omega
  have hpart : padded.drop (padded.length - (e + 1)) ≠ [] := by
    rw [← List.length_pos_iff, hplaces]
    exact Nat.succ_pos e
  have hvalue : digitsValue padded = digits := by
    rw [digitsValue_replicate_append hdigits, Decimal.digitList, digitsValue_toDigits]
  rw [show Decimal.positional ⟨digits, .negSucc e⟩ =
      padded.take (padded.length - (e + 1)) ++ '.' :: padded.drop (padded.length - (e + 1)) from rfl,
    readDuration?_point (fun c hc => hall c (List.mem_of_mem_take hc)) hwhole
      (fun c hc => hall c (List.mem_of_mem_drop hc)) hpart,
    List.take_append_drop, hplaces, hvalue]
  rfl

/-- What a decimal is written as positionally is read as that decimal. -/
theorem readDuration?_positional (d : Decimal) :
    readDuration? d.positional =
      let value := ofDecimal false d
      if value ≤ 0 then none else some value := by
  obtain ⟨digits, exponent⟩ := d
  cases exponent with
  | ofNat e => exact readDuration?_positional_ofNat digits e
  | negSucc e => exact readDuration?_positional_negSucc digits e

/-- The characters of a decimal that is written positionally. -/
theorem isDigit_of_mem_positional (d : Decimal) :
    ∀ c ∈ d.positional, isDigit c ∨ c = '.' := by
  obtain ⟨digits, exponent⟩ := d
  have hdigits : ∀ c ∈ Decimal.digitList digits, isDigit c :=
    fun _ hc => isDigit_of_isDigit (isDigit_of_mem_toDigits hc)
  have hzeros (k : ℕ) : ∀ c ∈ List.replicate k '0', isDigit c :=
    fun _ hc => isDigit_of_isDigit (isDigit_of_mem_replicate hc)
  intro c hc
  cases exponent with
  | ofNat e =>
    simp only [Decimal.positional, List.mem_append] at hc
    rcases hc with (hc | hc) | hc
    · exact .inl (hdigits c hc)
    · exact .inl (hzeros e c hc)
    · rcases List.mem_cons.mp hc with rfl | hc
      · exact .inr rfl
      · rw [List.mem_singleton.mp hc]
        exact .inl (isDigit_of_isDigit rfl)
  | negSucc e =>
    have hpadded (k : ℕ) : ∀ c ∈ List.replicate k '0' ++ Decimal.digitList digits, isDigit c :=
      fun c hc => (List.mem_append.mp hc).elim (hzeros k c) (hdigits c)
    rcases List.mem_append.mp hc with hc | hc
    · exact .inl (hpadded _ c (List.mem_of_mem_take hc))
    · rcases List.mem_cons.mp hc with rfl | hc
      · exact .inr rfl
      · exact .inl (hpadded _ c (List.mem_of_mem_drop hc))

/-! ## Writing -/

/-- What looks like a duration in a token: nothing, or digits and points in parentheses. -/
inductive IsDurationShape : List Char → Prop
  | default : IsDurationShape []
  | stated (digits : List Char) (hdigits : ∀ c ∈ digits, isDigit c ∨ c = '.') :
      IsDurationShape ('(' :: digits ++ [')'])

/-- What is written for a duration: nothing, or digits in parentheses that are read as it. -/
inductive IsDurationText (x : Binary64) : List Char → Prop
  | default (h : x = defaultDuration) : IsDurationText x []
  | stated (digits : List Char) (hdigits : ∀ c ∈ digits, isDigit c ∨ c = '.')
      (hread : readDuration? digits = some x) : IsDurationText x ('(' :: digits ++ [')'])

theorem IsDurationText.shape (h : IsDurationText x w) : IsDurationShape w := by
  cases h with
  | default => exact .default
  | stated digits hdigits => exact .stated digits hdigits

/-- The digits of a whole number are read as the number nearest to it. -/
theorem readDuration?_toDigits {k : ℕ} (hpos : 0 < k) (hk : (Binary64.ofInt k).isFinite) :
    readDuration? (Nat.toDigits 10 k) = some (.ofInt k) := by
  obtain ⟨n, hn, hfinite, hpos', -, hlt⟩ := exists_ofInt_eq_finite hpos hk
  have hlength : (Nat.toDigits 10 k).length ≤ 311 :=
    (Nat.length_toDigits_le_iff (by decide) (by decide)).mpr (hlt.trans two_pow_lt_ten_pow)
  have hvalue : ofDecimal false ⟨k, 0⟩ = Binary64.ofInt k := by
    have hleading : Decimal.leading ⟨k, 0⟩ = (Nat.toDigits 10 k).length - 1 + 0 := rfl
    have hunits : k * Nat.pow 10 0 * one = k * one := by
      rw [Nat.pow_eq, Nat.pow_zero, Nat.mul_one]
    rw [ofDecimal, if_neg hpos.ne', hleading, decimalTop, decimalBottom, if_neg (by omega),
      if_neg (by omega), ofInt_eq_ofRatio]
    exact congrArg (ofRatio false · 1) hunits
  rw [readDuration?_digits (fun c hc => isDigit_of_isDigit (isDigit_of_mem_toDigits hc))
    Nat.toDigits_ne_nil, digitsValue_toDigits]
  simp only [hvalue, hfinite, if_neg (not_le_zero hpos' hn)]

theorem isWhole_mul_one {k : ℕ} (hk : Fits (k * one)) : (finite false (k * one) hk).isWhole := by
  rw [isWhole, Nat.mul_mod_left]
  rfl

theorem ofReal_mul_one {k : ℕ} (hk : Fits (k * one)) :
    Number.ofReal (finite false (k * one) hk) = .whole k := by
  have htruncate : (finite false (k * one) hk).truncate? = some (k : ℤ) := by
    have hdiv : ((k * one : ℕ) : ℤ).tdiv (one : ℕ) = k := by
      rw [← Int.ofNat_tdiv, Nat.mul_div_cancel _ Binary64.one_pos]
    exact congrArg some hdiv
  rw [Number.ofReal, isWhole_mul_one, htruncate]

theorem ofReal_ofInt {k : ℕ} (hk : Fits (k * one)) : Number.ofReal (.ofInt k) = .whole k := by
  rw [ofInt_of_fits hk, ofReal_mul_one]

theorem writeNumber_whole {k : ℕ} (hpos : 0 < k) (hk : (Binary64.ofInt k).isFinite) :
    writeNumber (.whole k) = .ok (Nat.toDigits 10 k) := by
  obtain ⟨n, hn, hfinite, -, hdvd, -⟩ := exists_ofInt_eq_finite hpos hk
  have htext : (toString (k : ℤ)).toList = Nat.toDigits 10 k := Nat.toList_repr
  have hreal : (Number.whole k).toReal = .ok (finite false n hn) := by
    rw [← hfinite]
    exact if_pos hk
  have hwhole : (finite false n hn).isWhole := by
    rw [isWhole, Nat.mod_eq_zero_of_dvd hdvd]
    rfl
  rw [writeNumber, hreal, ok_bind, if_pos hwhole]
  exact congrArg Except.ok htext

theorem writeNumber_real (hwhole : ¬ n % one = 0) (hn : Fits n) :
    writeNumber (.real (finite false n hn)) = .ok (shortest n).positional := by
  have hnot : ¬ (finite false n hn).isWhole := by
    rw [isWhole]
    simpa using hwhole
  change (if (finite false n hn).isWhole then _ else _) = _
  rw [if_neg hnot]
  rfl

/-- A positive whole number of milliseconds is written with its own digits, and what is written is read
as the number nearest to it. -/
theorem writeDuration_whole {k : ℕ} (hpos : 0 < k) (hk : (Binary64.ofInt k).isFinite) :
    ∃ w, writeDuration (.whole k) = .ok w ∧ IsDurationText (.ofInt k) w := by
  rw [writeDuration]
  by_cases hdefault : (Number.whole k).order (.whole 1000) = some .eq
  · refine ⟨[], if_pos hdefault, .default ?_⟩
    have hthousand : (k : ℤ) = 1000 := compare_eq_iff_eq.mp (Option.some.inj hdefault)
    rw [hthousand]
    rfl
  · refine ⟨_, (if_neg hdefault).trans ?_, .stated (Nat.toDigits 10 k) ?_ ?_⟩
    · rw [writeNumber_whole hpos hk]
      rfl
    · exact fun c hc => .inl (isDigit_of_isDigit (isDigit_of_mem_toDigits hc))
    · exact readDuration?_toDigits hpos hk

/-- A finite number is given as a whole number if it is one. -/
theorem ofReal_cases (hn : Fits n) :
    (∃ k, n = k * one ∧ Number.ofReal (finite false n hn) = .whole k) ∨
      (n % one ≠ 0 ∧ Number.ofReal (finite false n hn) = .real (finite false n hn)) := by
  by_cases hwhole : n % one = 0
  · obtain ⟨k, rfl⟩ : ∃ k, n = k * one :=
      ⟨n / one, (Nat.div_mul_cancel (Nat.dvd_of_mod_eq_zero hwhole)).symm⟩
    exact .inl ⟨k, rfl, ofReal_mul_one hn⟩
  · have hnot : (finite false n hn).isWhole = false := by
      rw [isWhole]
      simpa using hwhole
    refine .inr ⟨hwhole, ?_⟩
    rw [Number.ofReal, hnot]

/-- A finite positive duration is written, and what is written is read as it. -/
theorem writeDuration_ok (hpos : 0 < n) (hn : Fits n) :
    ∃ w, writeDuration (.ofReal (finite false n hn)) = .ok w ∧
      IsDurationText (finite false n hn) w := by
  rcases ofReal_cases hn with ⟨k, rfl, hwhole⟩ | ⟨hwhole, hreal⟩
  · have hk : 0 < k := Nat.pos_of_mul_pos_right hpos
    rw [hwhole, ← ofInt_of_fits hn]
    exact writeDuration_whole hk (isFinite_ofInt hn)
  · have hdefault : ¬ (Number.real (finite false n hn)).order (.whole 1000) = some .eq := by
      intro heq
      have hthousand : (n : ℤ) = 1000 * (one : ℕ) := compare_eq_iff_eq.mp (Option.some.inj heq)
      have hmul : n = 1000 * one := by exact_mod_cast hthousand
      exact hwhole (hmul ▸ Nat.mul_mod_left ..)
    refine ⟨_, ?_, .stated (shortest n).positional (isDigit_of_mem_positional _) ?_⟩
    · rw [hreal, writeDuration, if_neg hdefault, writeNumber_real hwhole hn]
      rfl
    · rw [readDuration?_positional]
      simp only [ofDecimal_shortest hpos hn, if_neg (not_le_zero hpos hn)]

end Monody.Melody
