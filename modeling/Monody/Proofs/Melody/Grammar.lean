import Monody.Proofs.Binary64.Midpoint
import Monody.Proofs.Binary64.Time
import Monody.Proofs.Melody.Octave

/-!
# Which texts are notes and pauses

The notation of notes and pauses is a letter with a few parts after it, and what is read without a flaw
is a little more than the notation promises. An octave may be written with several digits, or with a
minus sign if it is zero. Digits of any script are digits. A line break may stand before the closing
parenthesis. In one way it is less: a duration that is next to zero in binary is no positive number, even
if some of its digits are not zero.

Both notations have the same shape. They differ in what counts as a digit, as an octave, as the end of a
number, and as positive, and these are the parameters of a grammar.

## Main definitions

* `Grammar` — the parts of the notation that are left open
* `Grammar.IsNote`, `Grammar.IsPause` — the texts of notes and pauses
* `documented`, `accepted` — the notation as it is described, and as it is read
* `IsTidy`, `IsTiny` — texts that make use of no liberty, and durations that are too short

## Main results

* `isPlayable_iff`, `isRest_iff` — what a token is read as without a flaw
* `recognizes_of_parse` — the notes and pauses of a score without a flaw
-/

namespace Monody.Melody

open Text Binary64

/-- The parts of the notation that are left open. -/
structure Grammar where
  /-- The characters that are digits of a duration. -/
  IsDigit : Char → Prop
  /-- The texts of octaves. -/
  IsOctave : List Char → Prop
  /-- What may stand between a duration and the parenthesis that closes it. -/
  IsEnding : List Char → Prop
  /-- The decimals that are durations. -/
  IsPositive : Decimal → Prop

namespace Grammar

/-- A number: digits, and a point with digits after it or none. -/
inductive IsNumber (g : Grammar) : List Char → Decimal → Prop
  | whole {digits : List Char} (hdigits : ∀ c ∈ digits, g.IsDigit c) (hne : digits ≠ []) :
      IsNumber g digits ⟨digitsValue digits, 0⟩
  | point {whole part : List Char} (hwhole : ∀ c ∈ whole, g.IsDigit c) (hne : whole ≠ [])
      (hpart : ∀ c ∈ part, g.IsDigit c) (hne' : part ≠ []) :
      IsNumber g (whole ++ '.' :: part) ⟨digitsValue (whole ++ part), -part.length⟩

/-- A duration in parentheses, or none. -/
inductive IsDuration (g : Grammar) : List Char → Prop
  | default : IsDuration g []
  | stated {number ending : List Char} {d : Decimal} (hnumber : g.IsNumber number d)
      (hending : g.IsEnding ending) (hpos : g.IsPositive d) :
      IsDuration g ('(' :: (number ++ ending ++ [')']))

/-- A note: a letter from A to G in either case, then a sharp sign, an octave and a duration, each of which
may be missing. -/
inductive IsNote (g : Grammar) : List Char → Prop
  | intro {c : Char} (sharp : Bool) {octave duration : List Char} (hletter : c ∈ "ABCDEFGabcdefg".toList)
      (hoctave : octave = [] ∨ g.IsOctave octave) (hduration : g.IsDuration duration) :
      IsNote g (c :: ((if sharp then ['#'] else []) ++ (octave ++ duration)))

/-- A pause: the letter P in either case, and a duration or none. -/
inductive IsPause (g : Grammar) : List Char → Prop
  | intro {c : Char} {duration : List Char} (hletter : c = 'P' ∨ c = 'p')
      (hduration : g.IsDuration duration) : IsPause g (c :: duration)

/-- The notation as it is described: the digits 0 to 9, an octave of one digit, nothing after a duration,
and durations that are not zero. -/
def documented : Grammar where
  IsDigit c := c.isDigit
  IsOctave cs := ∃ c ∈ "012345678".toList, cs = [c]
  IsEnding cs := cs = []
  IsPositive d := 0 < d.digits

/-- The notation as it is read. An octave is an integer of up to 4300 digits, and what counts is its
value. -/
def accepted : Grammar where
  IsDigit c := isDigit c
  IsOctave cs := ∃ (negative : Bool) (digits : List Char), cs = (if negative then ['-'] else []) ++ digits ∧
    digits ≠ [] ∧ (∀ c ∈ digits, isDigit c) ∧ digits.length ≤ 4300 ∧ digitsValue digits ≤ 8 ∧
      (negative = true → digitsValue digits = 0)
  IsEnding cs := cs = [] ∨ cs = ['\n']
  IsPositive d := vanishing < d.value

/-- An event is a note without a flaw if its text is a note, and a pause without a flaw if it is a
pause. -/
structure Recognizes (g : Grammar) (token : Token) (e : Event) : Prop where
  note : e.isPlayable ↔ g.IsNote token.text
  pause : e.content = .pause ∧ e.flaw = none ↔ g.IsPause token.text

end Grammar

open Grammar

variable {cs number : List Char} {c : Char} {d : Decimal} {time x : Binary64} {e : Event}
  {token : Token} {text : List Char}

/-! ## Durations -/

/-- A line break after a number is not looked at. -/
theorem readDuration?_newline (hlast : cs.getLast? ≠ some '\n') :
    readDuration? (cs ++ ['\n']) = readDuration? cs := by
  have hbreak : (cs ++ ['\n']).getLast? = some '\n' := List.getLast?_concat
  simp only [readDuration?, hbreak, if_true, if_neg hlast, List.dropLast_concat]

/-- A number is read as its decimal, if that is positive in binary. -/
theorem readDuration?_of_isNumber (hnumber : accepted.IsNumber number d) :
    readDuration? number = (if ofDecimal false d ≤ 0 then none else some (ofDecimal false d)) ∧
      number.getLast? ≠ some '\n' := by
  cases hnumber with
  | whole hdigits hne =>
    exact ⟨readDuration?_digits hdigits hne, getLast?_ne_newline fun c hc => .inl (hdigits c hc)⟩
  | point hwhole hne hpart hne' =>
    refine ⟨readDuration?_point hwhole hne hpart hne', getLast?_ne_newline fun c hc => ?_⟩
    rcases List.mem_append.mp hc with hc | hc
    · exact .inl (hwhole c hc)
    · rcases List.mem_cons.mp hc with rfl | hc
      · exact .inr rfl
      · exact .inl (hpart c hc)

theorem isPositive_accepted_iff : accepted.IsPositive d ↔ ¬ ofDecimal false d ≤ 0 := by
  have hne := (isTime_ofDecimal d).ne_nan
  rw [← Binary64.not_lt isTime_zero.ne_nan hne, not_not, pos_ofDecimal_iff]
  rfl

/-- What a positive number is read from. -/
theorem exists_isNumber (h : (readDuration? cs).isSome) :
    ∃ number ending d, cs = number ++ ending ∧ accepted.IsNumber number d ∧
      accepted.IsEnding ending ∧ accepted.IsPositive d := by
  -- one newline at the end is ignored; before it there are digits, and a point with digits or nothing
  obtain ⟨body, ending, hcs, hending, hbody⟩ : ∃ body ending, cs = body ++ ending ∧
      accepted.IsEnding ending ∧ (if cs.getLast? = some '\n' then cs.dropLast else cs) = body := by
    split
    · next hlast => exact ⟨_, ['\n'], (List.dropLast_append_getLast? _ hlast).symm, .inr rfl, rfl⟩
    · exact ⟨cs, [], (List.append_nil cs).symm, .inl rfl, rfl⟩
  have hsplit : body.takeWhile isDigit ++ body.dropWhile isDigit = body := List.takeWhile_append_dropWhile
  have hwhole : ∀ c ∈ body.takeWhile isDigit, isDigit c := fun c hc => List.mem_takeWhile_imp hc
  simp only [readDuration?, hbody] at h
  refine ⟨body, ending, ?_⟩
  generalize body.takeWhile isDigit = whole at h hsplit hwhole
  rcases hrest : body.dropWhile isDigit with _ | ⟨c, part⟩
  · rw [hrest] at h hsplit
    rw [List.append_nil] at hsplit
    subst hsplit
    -- whatever else stands there, nothing is read
    by_cases hne : whole = []
    · simp [hne] at h
    by_cases hle : ofDecimal false ⟨digitsValue whole, 0⟩ ≤ 0
    · simp [hle] at h
    · exact ⟨_, hcs, .whole hwhole hne, hending, isPositive_accepted_iff.mpr hle⟩
  · rw [hrest] at h hsplit
    subst hsplit
    by_cases hpoint : c = '.'
    · subst hpoint
      by_cases hne' : part = []
      · simp [hne'] at h
      by_cases hne : whole = []
      · simp [hne, hne'] at h
      by_cases hall : part.all isDigit = false
      · simp [hne', hall] at h
      have hpart : ∀ c ∈ part, isDigit c := List.all_eq_true.mp (Bool.not_eq_false _ ▸ hall)
      by_cases hle : ofDecimal false ⟨digitsValue (whole ++ part), -part.length⟩ ≤ 0
      · simp [hle, hne'] at h
      · exact ⟨_, hcs, .point hwhole hne hpart hne', hending, isPositive_accepted_iff.mpr hle⟩
    · simp [hpoint] at h

/-- The texts that are read as positive numbers, and the numbers that they are read as. -/
theorem readDuration?_eq_some_iff : readDuration? cs = some x ↔
    ∃ number ending d, cs = number ++ ending ∧ accepted.IsNumber number d ∧
      accepted.IsEnding ending ∧ accepted.IsPositive d ∧ ofDecimal false d = x := by
  have hread {number ending : List Char} {d : Decimal} (hnumber : accepted.IsNumber number d)
      (hending : accepted.IsEnding ending) (hpos : accepted.IsPositive d) :
      readDuration? (number ++ ending) = some (ofDecimal false d) := by
    obtain ⟨hread, hlast⟩ := readDuration?_of_isNumber hnumber
    rw [if_neg (isPositive_accepted_iff.mp hpos)] at hread
    rcases hending with rfl | rfl
    · rw [List.append_nil, hread]
    · rw [readDuration?_newline hlast, hread]
  constructor
  · intro h
    obtain ⟨number, ending, d, rfl, hnumber, hending, hpos⟩ :=
      exists_isNumber (Option.isSome_of_eq_some h)
    rw [hread hnumber hending hpos] at h
    exact ⟨number, ending, d, rfl, hnumber, hending, hpos, Option.some.inj h⟩
  · rintro ⟨number, ending, d, rfl, hnumber, hending, hpos, rfl⟩
    exact hread hnumber hending hpos

/-- The texts that are read as durations. -/
theorem isDuration_accepted_iff : accepted.IsDuration cs ↔
    ∃ stated, durationText? cs = some stated ∧ (resolveDuration? stated).isSome := by
  constructor
  · intro h
    cases h with
    | default => exact ⟨none, rfl, rfl⟩
    | stated hnumber hending hpos =>
      exact ⟨_, durationText?_parenthesized _, Option.isSome_of_eq_some
        (readDuration?_eq_some_iff.mpr ⟨_, _, _, rfl, hnumber, hending, hpos, rfl⟩)⟩
  · rintro ⟨stated, hstated, hread⟩
    obtain ⟨x, hread⟩ := Option.isSome_iff_exists.mp hread
    rcases durationText?_eq_some_iff.mp hstated with ⟨rfl, rfl⟩ | ⟨inner, rfl, rfl⟩
    · exact .default
    · obtain ⟨number, ending, d, rfl, hnumber, hending, hpos, -⟩ := readDuration?_eq_some_iff.mp hread
      exact .stated hnumber hending hpos

/-! ## Octaves and letters -/

theorem isSome_ofChar?_iff : (Letter.ofChar? c).isSome ↔ c ∈ "ABCDEFGabcdefg".toList := by
  constructor
  · unfold Letter.ofChar?
    split <;> simp
  · have hletters : "ABCDEFGabcdefg".toList.all (fun c => (Letter.ofChar? c).isSome) = true := by decide
    exact List.all_eq_true.mp hletters c

/-- The octaves that are in range when they are read. -/
theorem isOctave_accepted_iff : cs = [] ∨ accepted.IsOctave cs ↔
    ∃ octave n, cs = spellOctave octave ∧ HasDigits octave ∧ resolveOctave octave = .ok n ∧
      0 ≤ n ∧ n ≤ 8 := by
  constructor
  · rintro (rfl | ⟨negative, digits, rfl, hne, hdigits, hshort, hvalue, hzero⟩)
    · exact ⟨none, 4, rfl, nofun, rfl, by decide, by decide⟩
    · refine ⟨some (negative, digits), _, rfl, ?_, if_neg (not_lt.mpr hshort), ?_⟩
      · rintro _ ⟨⟩
        exact ⟨hne, hdigits⟩
      · cases negative with
        | false => simp only [Bool.false_eq_true, if_false]; omega
        -- with a minus sign only zero is in range
        | true => simp only [if_true, hzero rfl]; omega
  · rintro ⟨octave, n, rfl, hdigits, hresolve, hlow, hhigh⟩
    rcases octave with _ | ⟨negative, digits⟩
    · exact .inl rfl
    · right
      rw [resolveOctave] at hresolve
      split at hresolve
      · cases hresolve
      · next hlong =>
        obtain rfl := Except.ok.inj hresolve
        obtain ⟨hne, hall⟩ := hdigits _ rfl
        refine ⟨negative, digits, rfl, hne, hall, not_lt.mp hlong, ?_, ?_⟩
        · cases negative with
          | false => simp only [Bool.false_eq_true, if_false] at hhigh; omega
          | true => simp only [if_true] at hlow; omega
        · rintro rfl
          simp only [if_true] at hlow
          omega

/-! ## Notes and pauses -/

/-- The texts of notes without a flaw. -/
theorem isNote_accepted_iff : accepted.IsNote cs ↔
    ∃ parts n, note? cs = some parts ∧ resolveOctave parts.octave = .ok n ∧ 0 ≤ n ∧ n ≤ 8 ∧
      (resolveDuration? parts.duration).isSome := by
  constructor
  · rintro ⟨sharp, hletter, hoctave, hduration⟩
    obtain ⟨letter, hletter⟩ := Option.isSome_iff_exists.mp (isSome_ofChar?_iff.mpr hletter)
    obtain ⟨octave, n, rfl, hdigits, hresolve, hlow, hhigh⟩ := isOctave_accepted_iff.mp hoctave
    obtain ⟨stated, hstated, hread⟩ := isDuration_accepted_iff.mp hduration
    exact ⟨⟨letter, sharp, octave, stated⟩, n,
      note?_eq_some_iff.mpr ⟨hdigits, _, _, hletter, hstated, rfl⟩, hresolve, hlow, hhigh, hread⟩
  · rintro ⟨parts, n, hnote, hresolve, hlow, hhigh, hread⟩
    obtain ⟨hdigits, c, rest, hletter, hstated, rfl⟩ := note?_eq_some_iff.mp hnote
    exact .intro parts.sharp (isSome_ofChar?_iff.mp (Option.isSome_of_eq_some hletter))
      (isOctave_accepted_iff.mpr ⟨_, n, rfl, hdigits, hresolve, hlow, hhigh⟩)
      (isDuration_accepted_iff.mpr ⟨_, hstated, hread⟩)

/-- The texts of pauses without a flaw. -/
theorem isPause_accepted_iff : accepted.IsPause cs ↔
    ∃ stated, pause? cs = some stated ∧ (resolveDuration? stated).isSome := by
  constructor
  · rintro ⟨hletter, hduration⟩
    obtain ⟨stated, hstated, hread⟩ := isDuration_accepted_iff.mp hduration
    exact ⟨stated, pause?_eq_some_iff.mpr ⟨_, _, hletter, hstated, rfl⟩, hread⟩
  · rintro ⟨stated, hpause, hread⟩
    obtain ⟨c, rest, hletter, hstated, rfl⟩ := pause?_eq_some_iff.mp hpause
    exact .intro hletter (isDuration_accepted_iff.mpr ⟨stated, hstated, hread⟩)

/-- A note has no flaw if its octave is in range and its duration is read. -/
theorem isPlayable_placed_iff {letter : Letter} {sharp : Bool} {n : Int} {stated : Option (List Char)} :
    (placed token time (.note letter sharp n) (resolveDuration? stated)
      (if n < Pitch.minOctave ∨ Pitch.maxOctave < n then some (.octave n)
        else flawOfDuration .duration stated)).isPlayable ↔
      (0 ≤ n ∧ n ≤ 8) ∧ (resolveDuration? stated).isSome := by
  rw [Pitch.minOctave, Pitch.maxOctave]
  by_cases hrange : n < 0 ∨ 8 < n
  · have hrange' : ¬ (0 ≤ n ∧ n ≤ 8) := by omega
    simp [placed, Event.isPlayable, hrange, hrange']
  · rw [if_neg hrange, flawOfDuration]
    have hrange' : 0 ≤ n ∧ n ≤ 8 := by omega
    cases resolveDuration? stated <;> simp [placed, Event.isPlayable, Event.isNote, hrange']

/-- A token is read as a note without a flaw if its text is one. -/
theorem isPlayable_iff (h : eventOf token time = .ok e) :
    e.isPlayable ↔ accepted.IsNote token.text := by
  rw [isNote_accepted_iff]
  rcases eventOf_eq_cases h with ⟨hcomment, rfl⟩ | ⟨stated, hpause, rfl⟩ | ⟨parts, n, hnote, hn, rfl⟩ |
    ⟨-, -, hnote, rfl⟩
  · simp [Event.isPlayable, Event.isNote, (not_pause_of_comment hcomment).2]
  · simp [placed, Event.isPlayable, Event.isNote, (not_comment_of_pause? hpause).2]
  · rw [isPlayable_placed_iff]
    simp [hnote, hn, and_assoc]
  · simp [placed, Event.isPlayable, hnote]

/-- A token is read as a pause without a flaw if its text is one. -/
theorem isRest_iff (h : eventOf token time = .ok e) :
    e.content = .pause ∧ e.flaw = none ↔ accepted.IsPause token.text := by
  rw [isPause_accepted_iff]
  rcases eventOf_eq_cases h with ⟨hcomment, rfl⟩ | ⟨stated, hpause, rfl⟩ | ⟨parts, n, hnote, -, rfl⟩ |
    ⟨-, hpause, -, rfl⟩
  · simp [(not_pause_of_comment hcomment).1]
  · rw [flawOfDuration]
    cases hread : resolveDuration? stated <;> simp [placed, hpause, hread]
  · simp [placed, (not_comment_of_note? hnote).2]
  · simp [placed, hpause]

/-! ## Texts that make use of no liberty -/

/-- A text that makes use of no liberty: its digits are those from 0 to 9, it has no minus sign and no line
break, and at most one digit stands before a parenthesis. -/
structure IsTidy (cs : List Char) : Prop where
  digits : ∀ c ∈ cs, isDigit c → c.isDigit
  minus : '-' ∉ cs
  newline : '\n' ∉ cs
  octave : (cs.takeWhile (· ≠ '(')).countP isDigit ≤ 1

theorem isTidy_iff : IsTidy cs ↔ cs.all (fun c => !isDigit c || c.isDigit) ∧ '-' ∉ cs ∧ '\n' ∉ cs ∧
    (cs.takeWhile (· ≠ '(')).countP isDigit ≤ 1 := by
  have hdigits : cs.all (fun c => !isDigit c || c.isDigit) ↔ ∀ c ∈ cs, isDigit c → c.isDigit := by
    simp [or_iff_not_imp_left]
  rw [hdigits]
  constructor
  · intro h
    exact ⟨h.digits, h.minus, h.newline, h.octave⟩
  · rintro ⟨hdigits, hminus, hnewline, hoctave⟩
    exact ⟨hdigits, hminus, hnewline, hoctave⟩

instance : DecidablePred IsTidy := fun _ => decidable_of_iff _ isTidy_iff.symm

/-- A text with a duration that is not zero and is read as zero. -/
def IsTiny (cs : List Char) : Prop :=
  ∃ before number d, cs = before ++ '(' :: (number ++ [')']) ∧ documented.IsNumber number d ∧
    0 < d.digits ∧ d.value ≤ vanishing

theorem IsTiny.append (before : List Char) (h : IsTiny cs) : IsTiny (before ++ cs) := by
  obtain ⟨before', number, d, rfl, htiny⟩ := h
  exact ⟨before ++ before', number, d, (List.append_assoc ..).symm, htiny⟩

theorem Grammar.IsNumber.mono {g g' : Grammar} (h : g.IsNumber number d)
    (hdigit : ∀ c ∈ number, g.IsDigit c → g'.IsDigit c) : g'.IsNumber number d := by
  cases h with
  | whole hdigits hne => exact .whole (fun c hc => hdigit c hc (hdigits c hc)) hne
  | point hwhole hne hpart hne' =>
    refine .point (fun c hc => hdigit c ?_ (hwhole c hc)) hne (fun c hc => hdigit c ?_ (hpart c hc)) hne'
    · exact List.mem_append_left _ hc
    · exact List.mem_append_right _ (List.mem_cons_of_mem _ hc)

/-- Without liberties, durations are read as they are described. -/
theorem isDuration_documented_iff (hdigits : ∀ c ∈ cs, isDigit c → c.isDigit) (hnewline : '\n' ∉ cs)
    (htiny : ¬ IsTiny cs) : documented.IsDuration cs ↔ accepted.IsDuration cs := by
  constructor
  · intro h
    cases h with
    | default => exact .default
    | stated hnumber hending hpos =>
      obtain rfl := hending
      refine .stated (hnumber.mono fun c _ => isDigit_of_isDigit) (.inl rfl) ?_
      -- a positive number that is read as zero would be a liberty
      by_contra hsmall
      refine htiny ⟨[], _, _, ?_, hnumber, hpos, not_lt.mp hsmall⟩
      rw [List.append_nil, List.nil_append]
  · intro h
    cases h with
    | default => exact .default
    | @stated number ending d hnumber hending hpos =>
      obtain rfl : ending = [] := by
        rcases hending with rfl | rfl
        · rfl
        · simp at hnewline
      refine .stated (hnumber.mono fun c hc => hdigits c ?_) rfl (Nat.pos_of_ne_zero ?_)
      · simp [hc]
      · intro hzero
        -- zero itself is not accepted either
        have hpos : vanishing < d.value := hpos
        rw [Decimal.value_zero hzero, vanishing] at hpos
        exact absurd hpos (not_lt.mpr (by positivity))

/-- The octaves of one digit. -/
theorem mem_octaves_iff : c ∈ "012345678".toList ↔ c.isDigit ∧ digitsValue [c] ≤ 8 := by
  constructor
  · have hoctaves : "012345678".toList.all (fun c => c.isDigit ∧ digitsValue [c] ≤ 8) = true := by decide
    intro hc
    exact of_decide_eq_true (List.all_eq_true.mp hoctaves c hc)
  · rintro ⟨hdigit, hvalue⟩
    obtain ⟨hlow, hhigh⟩ := toNat_of_isDigit hdigit
    have hdigits : digitsValue [c] = c.toNat - 48 := by
      simp [digitsValue, digitValue?_of_isDigit hdigit]
    rw [hdigits] at hvalue
    rw [← Char.ofNat_toNat c]
    generalize c.toNat = n at hlow hvalue
    obtain ⟨k, rfl⟩ := Nat.exists_eq_add_of_le hlow
    have hk : k < 9 := by omega
    clear hlow hhigh hdigits hvalue
    revert k
    decide

/-- Without liberties, an octave has one digit. -/
theorem isOctave_documented_iff {before octave rest : List Char} (hbefore : '(' ∉ before)
    (htidy : IsTidy (before ++ (octave ++ rest))) :
    documented.IsOctave octave ↔ accepted.IsOctave octave := by
  constructor
  · rintro ⟨c, hc, rfl⟩
    obtain ⟨hdigit, hvalue⟩ := mem_octaves_iff.mp hc
    exact ⟨false, [c], rfl, by simp, List.forall_mem_singleton.mpr (isDigit_of_isDigit hdigit),
      by simp, hvalue, nofun⟩
  · rintro ⟨negative, digits, rfl, hne, hdigits, -, hvalue, -⟩
    cases negative with
    | true => exact absurd htidy.minus (by simp)
    | false =>
      have hopen : ∀ c ∈ before ++ digits, c ≠ '(' := by
        rintro c hc rfl
        rcases List.mem_append.mp hc with hc | hc
        · exact hbefore hc
        · exact isDigit_ne (by decide +kernel) (hdigits _ hc) rfl
      -- the digits stand before any parenthesis, where there is at most one
      have hcount : digits.length ≤ 1 := by
        have hoctave := htidy.octave
        rw [← List.append_assoc, List.takeWhile_append_of_pos (by simpa using hopen)] at hoctave
        have hall : digits.countP isDigit = digits.length := List.countP_eq_length.mpr hdigits
        simp only [Bool.false_eq_true, if_false, List.nil_append, List.countP_append] at hoctave
        omega
      obtain ⟨c, rfl⟩ : ∃ c, digits = [c] :=
        List.length_eq_one_iff.mp (Nat.le_antisymm hcount (List.length_pos_iff.mpr hne))
      have hc := htidy.digits c (by simp) (hdigits c (List.mem_singleton_self c))
      exact ⟨c, mem_octaves_iff.mpr ⟨hc, hvalue⟩, rfl⟩

/-- Without liberties, notes are read as they are described. -/
theorem isNote_documented_iff (htidy : IsTidy cs) (htiny : ¬ IsTiny cs) :
    documented.IsNote cs ↔ accepted.IsNote cs := by
  have hparts {c : Char} {sharp : Bool} {octave duration : List Char}
      (hletter : c ∈ "ABCDEFGabcdefg".toList)
      (hcs : cs = c :: ((if sharp then ['#'] else []) ++ (octave ++ duration))) :
      (documented.IsOctave octave ↔ accepted.IsOctave octave) ∧
        (documented.IsDuration duration ↔ accepted.IsDuration duration) := by
    have hopen : '(' ∉ c :: (if sharp then ['#'] else []) := by
      have hletters : '(' ∉ "ABCDEFGabcdefg".toList := by decide
      cases sharp <;> simp [ne_of_mem_of_not_mem hletter hletters |>.symm]
    rw [← List.cons_append] at hcs
    subst hcs
    refine ⟨isOctave_documented_iff hopen htidy, ?_⟩
    rw [← List.append_assoc] at htidy htiny
    exact isDuration_documented_iff (fun d hd => htidy.digits d (List.mem_append_right _ hd))
      (fun hd => htidy.newline (List.mem_append_right _ hd)) (mt (IsTiny.append _) htiny)
  constructor
  · rintro ⟨sharp, hletter, hoctave, hduration⟩
    obtain ⟨hoctaves, hdurations⟩ := hparts hletter rfl
    exact .intro sharp hletter (hoctave.imp_right hoctaves.mp) (hdurations.mp hduration)
  · rintro ⟨sharp, hletter, hoctave, hduration⟩
    obtain ⟨hoctaves, hdurations⟩ := hparts hletter rfl
    exact .intro sharp hletter (hoctave.imp_right hoctaves.mpr) (hdurations.mpr hduration)

/-- Without liberties, pauses are read as they are described. -/
theorem isPause_documented_iff (htidy : IsTidy cs) (htiny : ¬ IsTiny cs) :
    documented.IsPause cs ↔ accepted.IsPause cs := by
  have hduration (c : Char) {duration : List Char} (hcs : cs = c :: duration) :
      documented.IsDuration duration ↔ accepted.IsDuration duration := by
    subst hcs
    exact isDuration_documented_iff (fun d hd => htidy.digits d (List.mem_cons_of_mem _ hd))
      (List.not_mem_of_not_mem_cons htidy.newline) (mt (IsTiny.append [c]) htiny)
  constructor
  · intro h
    cases h with
    | intro hletter h => exact .intro hletter ((hduration _ rfl).mp h)
  · intro h
    cases h with
    | intro hletter h => exact .intro hletter ((hduration _ rfl).mpr h)

/-! ## Scores -/

/-- **The notes and pauses of a score without a flaw.** A score is read unless one of its notes has a long
octave. Then the texts of its tokens tell which events are notes and which are pauses without a flaw, by
the notation that is accepted. For a text that makes use of no liberty and has no tiny duration this is
the notation that is described. -/
theorem recognizes_of_parse (text : List Char) :
    ((parse text).isOk ↔ ∀ token ∈ tokens text, ¬ HasLongOctave token.text) ∧
    ∀ m, parse text = .ok m → List.Forall₂ (fun token e => accepted.Recognizes token e ∧
      (IsTidy token.text → ¬ IsTiny token.text → documented.Recognizes token e))
        (tokens text) m.events := by
  refine ⟨isOk_parse_iff, fun m hparse => ?_⟩
  refine (forall₂_eventOf (readEvents_of_parse hparse)).imp ?_
  rintro token e ⟨time, h⟩
  refine ⟨⟨isPlayable_iff h, isRest_iff h⟩, fun htidy htiny => ⟨?_, ?_⟩⟩
  · rw [isNote_documented_iff htidy htiny]
    exact isPlayable_iff h
  · rw [isPause_documented_iff htidy htiny]
    exact isRest_iff h

/-- A sharp note with an octave, and a pause. -/
theorem recognizes_of_parse_tune : ∃ m, parse "c#5 p".toList = .ok m ∧
    List.Forall₂ documented.Recognizes (tokens "c#5 p".toList) m.events := by
  obtain ⟨m, hparse⟩ : ∃ m, parse "c#5 p".toList = .ok m := ⟨⟨_, _⟩, rfl⟩
  refine ⟨m, hparse, ?_⟩
  have htexts : ∀ token ∈ tokens "c#5 p".toList, '(' ∉ token.text ∧ IsTidy token.text := by
    decide +kernel
  have hrecognizes := (recognizes_of_parse "c#5 p".toList).2 m hparse
  rw [List.forall₂_iff_zip] at hrecognizes ⊢
  refine ⟨hrecognizes.1, fun {token e} hmem => ?_⟩
  obtain ⟨hopen, htidy⟩ := htexts token (List.of_mem_zip hmem).1
  apply (hrecognizes.2 hmem).2 htidy
  -- a tiny duration stands in parentheses
  rintro ⟨before, number, d, htext, -⟩
  exact hopen (by simp [htext])

theorem newline_not_mem_number (h : documented.IsNumber number d) : '\n' ∉ number := by
  have hdigit : ¬ '\n'.isDigit := by decide
  cases h with
  | whole hdigits => exact fun hmem => hdigit (hdigits _ hmem)
  | point hwhole _ hpart =>
    intro hmem
    rcases List.mem_append.mp hmem with hmem | hmem
    · exact hdigit (hwhole _ hmem)
    · exact hdigit (hpart _ (List.mem_of_ne_of_mem (by decide) hmem))

/-- A note as it is described has no line break in it. -/
theorem newline_not_mem_note (h : documented.IsNote cs) : '\n' ∉ cs := by
  have hletters : '\n' ∉ "ABCDEFGabcdefg".toList := by decide
  have hoctaves : '\n' ∉ "012345678".toList := by decide
  rcases h with ⟨sharp, hletter, hoctave, hduration⟩
  rw [List.mem_cons, List.mem_append, List.mem_append]
  rintro (rfl | hmem | hmem | hmem)
  · exact hletters hletter
  · cases sharp <;> simp at hmem
  · rcases hoctave with rfl | ⟨c, hc, rfl⟩
    · cases hmem
    · exact hoctaves (List.mem_singleton.mp hmem ▸ hc)
  · cases hduration with
    | default => cases hmem
    | stated hnumber hending _ =>
      obtain rfl := hending
      simp [newline_not_mem_number hnumber] at hmem

/-- A line break before the closing parenthesis is accepted. -/
theorem not_recognizes_of_parse : ¬ ∀ (text : List Char) (m : Melody), parse text = .ok m →
    List.Forall₂ documented.Recognizes (tokens text) m.events := by
  intro h
  obtain ⟨m, hparse, e, hevents, hplay⟩ : ∃ m, parse "C(5\n)".toList = .ok m ∧
      ∃ e, m.events = [e] ∧ e.isPlayable := by
    refine ⟨⟨_, _⟩, rfl, _, rfl, ?_⟩
    decide +kernel
  have htokens : tokens "C(5\n)".toList = [⟨"C(5\n)".toList, "C(5\n)".toList, 0, 5⟩] := by decide
  have hrecognizes := h _ m hparse
  rw [htokens, hevents, List.forall₂_cons] at hrecognizes
  exact newline_not_mem_note (hrecognizes.1.note.mp hplay) (by decide)

end Monody.Melody
