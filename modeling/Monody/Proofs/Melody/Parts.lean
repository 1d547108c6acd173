import Monody.Proofs.Melody.Duration

/-!
# The parts of a token

A note is read part by part, from the left: its letter, a sharp sign, an octave, and a duration in
parentheses. The letter is there, and the others may be missing. Since no part begins as the ones after it
do, the parts that are read are those that are written.

## Main definitions

* `spellOctave` — an octave as it is written
* `HasDigits` — an octave that is not without digits
* `IsTail` — what may end a note or a pause

## Main results

* `note?_eq_some_iff`, `pause?_eq_some_iff` — a note or a pause is read as the parts that it is written with
* `not_comment_of_note?`, `not_comment_of_pause?` — a text is read as one thing at most
-/

namespace Monody.Melody

open Text

variable {cs digits rest : List Char} {c sign : Char} {first negative : Bool}
  {octave : Option (Bool × List Char)}

/-! ## Signs and octaves -/

theorem splitFirst_of_head?_ne (h : cs.head? ≠ some sign) :
    splitFirst sign cs = (false, cs) := by
  cases cs with
  | nil => rfl
  | cons c cs => exact if_neg fun heq => h (congrArg some heq)

/-- What is left when a sign is taken off, if it is there. -/
theorem eq_append_of_splitFirst (h : splitFirst sign cs = (first, rest)) :
    cs = (if first then [sign] else []) ++ rest := by
  cases cs with
  | nil =>
    obtain ⟨rfl, rfl⟩ := Prod.mk.inj h
    rfl
  | cons c cs =>
    rw [splitFirst] at h
    split at h
    · next hc =>
      obtain ⟨rfl, rfl⟩ := Prod.mk.inj h
      exact congrArg (· :: cs) hc
    · obtain ⟨rfl, rfl⟩ := Prod.mk.inj h
      rfl

/-- An octave as it is written: a minus sign or none, and its digits. -/
def spellOctave : Option (Bool × List Char) → List Char
  | none => []
  | some (negative, digits) => (if negative then ['-'] else []) ++ digits

/-- An octave that is there has digits. -/
def HasDigits (octave : Option (Bool × List Char)) : Prop :=
  ∀ o ∈ octave, o.2 ≠ [] ∧ ∀ d ∈ o.2, isDigit d

/-- What is left when an octave is taken off. -/
theorem eq_append_of_splitOctave (h : splitOctave cs = (octave, rest)) :
    cs = spellOctave octave ++ rest ∧ HasDigits octave := by
  rcases hsplit : splitFirst '-' cs with ⟨negative, body⟩
  rw [splitOctave, hsplit] at h
  dsimp only at h
  split at h
  · obtain ⟨rfl, rfl⟩ := Prod.mk.inj h
    exact ⟨rfl, nofun⟩
  · next hne =>
    obtain ⟨rfl, rfl⟩ := Prod.mk.inj h
    constructor
    · rw [spellOctave, List.append_assoc, List.takeWhile_append_dropWhile]
      exact eq_append_of_splitFirst hsplit
    · rintro _ ⟨⟩
      exact ⟨by simpa using hne, fun d hd => List.mem_takeWhile_imp hd⟩

/-- Where digits stand, no sign does. -/
theorem head?_digits_ne (hdigits : ∀ d ∈ digits, isDigit d) (hne : digits ≠ [])
    (hsign : isDigit sign = false) : (digits ++ rest).head? ≠ some sign := by
  rw [List.head?_append_of_ne_nil _ hne]
  intro hhead
  exact isDigit_ne hsign (hdigits sign (List.mem_of_head? hhead)) rfl

/-- An octave ends where its digits do. -/
theorem splitOctave_of_digits (hdigits : ∀ d ∈ digits, isDigit d) (hne : digits ≠ [])
    (hrest : ∀ d ∈ rest.head?, isDigit d = false) :
    splitOctave ((if negative then ['-'] else []) ++ (digits ++ rest)) =
      (some (negative, digits), rest) := by
  have hhead : (digits ++ rest).head? ≠ some '-' :=
    head?_digits_ne hdigits hne (by decide +kernel)
  have hsplit : splitFirst '-' ((if negative then ['-'] else []) ++ (digits ++ rest)) =
      (negative, digits ++ rest) := by
    cases negative with
    | false => exact splitFirst_of_head?_ne hhead
    | true => rfl
  have hstop : rest.takeWhile isDigit = [] ∧ rest.dropWhile isDigit = rest := by
    cases rest with
    | nil => exact ⟨rfl, rfl⟩
    | cons d rest => simp [hrest d rfl]
  have htake : (digits ++ rest).takeWhile isDigit = digits := by
    rw [List.takeWhile_append_of_pos hdigits, hstop.1, List.append_nil]
  have hdrop : (digits ++ rest).dropWhile isDigit = rest := by
    rw [List.dropWhile_append_of_pos hdigits, hstop.2]
  simp only [splitOctave, hsplit, htake, hdrop]
  exact if_neg (by simpa using hne)

/-! ## Notes and pauses -/

/-- What may end a note or a pause: nothing, or something in parentheses. -/
def IsTail (cs : List Char) : Prop := cs = [] ∨ ∃ inner, cs = '(' :: (inner ++ [')'])

theorem durationText?_parenthesized (inner : List Char) :
    durationText? ('(' :: (inner ++ [')'])) = some (some inner) := by
  simp [durationText?, parenthesized?]

theorem isSome_durationText?_iff : (durationText? cs).isSome ↔ IsTail cs := by
  constructor
  · intro h
    cases cs with
    | nil => exact .inl rfl
    | cons c cs =>
      right
      by_cases hopen : c = '('
      · subst hopen
        by_cases hclose : cs.getLast? = some ')'
        · exact ⟨cs.dropLast, by rw [List.dropLast_append_getLast? _ hclose]⟩
        · simp [durationText?, parenthesized?, hclose] at h
      · simp [durationText?, parenthesized?, hopen] at h
  · rintro (rfl | ⟨inner, rfl⟩)
    · rfl
    · rw [durationText?_parenthesized]
      rfl

theorem durationText?_eq_some_iff {stated : Option (List Char)} : durationText? cs = some stated ↔
    (cs = [] ∧ stated = none) ∨ ∃ inner, cs = '(' :: (inner ++ [')']) ∧ stated = some inner := by
  constructor
  · intro h
    rcases isSome_durationText?_iff.mp (Option.isSome_of_eq_some h) with rfl | ⟨inner, rfl⟩
    · exact .inl ⟨rfl, (Option.some.inj h).symm⟩
    · rw [durationText?_parenthesized] at h
      exact .inr ⟨inner, rfl, (Option.some.inj h).symm⟩
  · rintro (⟨rfl, rfl⟩ | ⟨inner, rfl, rfl⟩)
    · rfl
    · exact durationText?_parenthesized inner

/-- A pause is read as the duration that is written after its letter. -/
theorem pause?_eq_some_iff {stated : Option (List Char)} : pause? cs = some stated ↔
    ∃ c rest, (c = 'P' ∨ c = 'p') ∧ durationText? rest = some stated ∧ cs = c :: rest := by
  constructor
  · intro h
    cases cs with
    | nil => cases h
    | cons c rest =>
      rw [pause?] at h
      split at h
      · next hletter => exact ⟨c, rest, hletter, h, rfl⟩
      · cases h
  · rintro ⟨c, rest, hletter, hduration, rfl⟩
    rw [pause?, if_pos hletter]
    exact hduration

/-- A note is read part by part. -/
theorem note?_cons : note? (c :: cs) = (Letter.ofChar? c).bind fun letter =>
    (durationText? (splitOctave (splitFirst '#' cs).2).2).map fun duration =>
      ⟨letter, (splitFirst '#' cs).1, (splitOctave (splitFirst '#' cs).2).1, duration⟩ := by
  rw [note?]
  cases Letter.ofChar? c with
  | none => rfl
  | some letter =>
    cases h : durationText? (splitOctave (splitFirst '#' cs).2).2 <;> simp [h]

/-- What ends a note is neither an octave nor a sign. -/
theorem head?_of_durationText? (h : (durationText? rest).isSome) (hc : c ≠ '(') :
    rest.head? ≠ some c := by
  rcases isSome_durationText?_iff.mp h with rfl | ⟨inner, rfl⟩
  · simp
  · simpa using hc.symm

/-- An octave is read where it is written, and none where none is. -/
theorem splitOctave_spellOctave (hoctave : HasDigits octave) (hrest : (durationText? rest).isSome) :
    splitOctave (spellOctave octave ++ rest) = (octave, rest) := by
  have hstop : ∀ d ∈ rest.head?, isDigit d = false := by
    intro d hd
    obtain rfl : d = '(' := by
      by_contra hne
      exact head?_of_durationText? hrest hne hd
    decide +kernel
  rcases octave with _ | ⟨negative, digits⟩
  · have hsplit : splitFirst '-' rest = (false, rest) :=
      splitFirst_of_head?_ne (head?_of_durationText? hrest (by decide))
    have htake : rest.takeWhile isDigit = [] := by
      cases rest with
      | nil => rfl
      | cons d rest => simp [hstop d rfl]
    simp [spellOctave, splitOctave, hsplit, htake]
  · obtain ⟨hne, hdigits⟩ := hoctave _ rfl
    rw [spellOctave, List.append_assoc]
    exact splitOctave_of_digits hdigits hne hstop

/-- Nothing after the letter of a note is taken for a sharp sign but one that is written there. -/
theorem head?_ne_sharp (hoctave : HasDigits octave) (hrest : (durationText? rest).isSome) :
    (spellOctave octave ++ rest).head? ≠ some '#' := by
  rcases octave with _ | ⟨negative, digits⟩
  · exact head?_of_durationText? hrest (by decide)
  · obtain ⟨hne, hdigits⟩ := hoctave _ rfl
    cases negative with
    | false => exact @head?_digits_ne digits rest '#' hdigits hne (by decide +kernel)
    | true => simp [spellOctave]

/-- A note is read as the parts that it is written with, one after the other. -/
theorem note?_eq_some_iff {parts : NoteText} : note? cs = some parts ↔
    HasDigits parts.octave ∧ ∃ c rest, Letter.ofChar? c = some parts.letter ∧
      durationText? rest = some parts.duration ∧
      cs = c :: ((if parts.sharp then ['#'] else []) ++ (spellOctave parts.octave ++ rest)) := by
  constructor
  · intro h
    cases cs with
    | nil => cases h
    | cons c cs =>
      rw [note?_cons] at h
      obtain ⟨letter, hletter, h⟩ := Option.bind_eq_some_iff.mp h
      obtain ⟨duration, hduration, rfl⟩ := Option.map_eq_some_iff.mp h
      rcases hsharp : splitFirst '#' cs with ⟨sharp, body⟩
      rw [hsharp] at hduration
      rcases hbody : splitOctave body with ⟨octave, rest⟩
      rw [hbody] at hduration
      obtain ⟨hspell, hdigits⟩ := eq_append_of_splitOctave hbody
      refine ⟨hdigits, c, rest, hletter, hduration, ?_⟩
      rw [eq_append_of_splitFirst hsharp, hspell]
  · rintro ⟨hdigits, c, rest, hletter, hduration, rfl⟩
    -- no part takes a character of the next one: they begin with different characters
    have hrest : (durationText? rest).isSome := Option.isSome_of_eq_some hduration
    have hsharp : splitFirst '#' ((if parts.sharp then ['#'] else []) ++
        (spellOctave parts.octave ++ rest)) = (parts.sharp, spellOctave parts.octave ++ rest) := by
      cases parts.sharp with
      | false => exact splitFirst_of_head?_ne (head?_ne_sharp hdigits hrest)
      | true => rfl
    rw [note?_cons, hletter, hsharp, splitOctave_spellOctave hdigits hrest, hduration]
    rfl

theorem isCommentText_eq_false (h : cs.head? ≠ some '/') : isCommentText cs = false := by
  cases cs with
  | nil => rfl
  | cons c cs =>
    have hc : c ≠ '/' := fun heq => h (congrArg some heq)
    simp [isCommentText, hc]

theorem head?_ne_of_pause? {stated : Option (List Char)} (h : pause? cs = some stated) :
    cs.head? ≠ some '/' := by
  obtain ⟨c, rest, hletter, -, rfl⟩ := pause?_eq_some_iff.mp h
  rcases hletter with rfl | rfl <;> simp

theorem head?_ne_of_note? {parts : NoteText} (h : note? cs = some parts) :
    cs.head? ≠ some '/' := by
  cases cs with
  | nil => simp
  | cons c cs =>
    intro hc
    obtain rfl : c = '/' := Option.some.inj hc
    cases h

/-- What is read as a note is neither a comment nor a pause. -/
theorem not_comment_of_note? {parts : NoteText} (h : note? cs = some parts) :
    isCommentText cs = false ∧ pause? cs = none := by
  refine ⟨isCommentText_eq_false (head?_ne_of_note? h), ?_⟩
  cases cs with
  | nil => cases h
  | cons c cs =>
    refine if_neg ?_
    rintro (rfl | rfl) <;> cases h

/-- A text is read as at most one of a comment, a pause and a note. -/
theorem not_comment_of_pause? {stated : Option (List Char)} (h : pause? cs = some stated) :
    isCommentText cs = false ∧ note? cs = none := by
  refine ⟨isCommentText_eq_false (head?_ne_of_pause? h), ?_⟩
  rw [Option.eq_none_iff_forall_ne_some]
  intro parts hnote
  cases (not_comment_of_note? hnote).2.symm.trans h

theorem not_pause_of_comment (h : isCommentText cs = true) : pause? cs = none ∧ note? cs = none := by
  constructor <;> rw [Option.eq_none_iff_forall_ne_some]
  · intro stated hpause
    cases h.symm.trans (not_comment_of_pause? hpause).1
  · intro parts hnote
    cases h.symm.trans (not_comment_of_note? hnote).1

end Monody.Melody
