import Monody.Proofs.Melody.Events

/-!
# Octaves that cannot be read

Whatever a token is, it has an event, with a flaw if need be. The one exception is a note whose octave
has more digits than an integer may have: it is read as a note before the range of its octave is looked
at, and there is no number to look at.

## Main definitions

* `HasLongOctave` — a note with too many digits in its octave

## Main results

* `exists_note?_iff` — which texts are read as a note with a long octave
* `isOk_eventOf_iff`, `isOk_parse_iff` — a token has an event unless it is one, and so has a score
-/

namespace Monody.Melody

open Text

variable {cs text : List Char} {token : Token} {octave : Option (Bool × List Char)} {ts : List Token}
  {time : Binary64}

/-- A note with more digits in its octave than an integer may have: a letter, a sharp sign or none, a
minus sign or none, the digits, and a duration in parentheses or none. -/
inductive HasLongOctave : List Char → Prop
  | intro {c : Char} {sharp negative : Bool} {digits rest : List Char}
      (hletter : (Letter.ofChar? c).isSome) (hdigits : ∀ d ∈ digits, isDigit d)
      (hlong : 4300 < digits.length) (hrest : rest = [] ∨ ∃ inner, rest = '(' :: (inner ++ [')'])) :
      HasLongOctave (c :: ((if sharp then ['#'] else []) ++
        ((if negative then ['-'] else []) ++ (digits ++ rest))))

/-- The texts that are read as a note with too many digits in its octave. -/
theorem exists_note?_iff : (∃ parts, note? cs = some parts ∧
    ∃ octave, parts.octave = some octave ∧ 4300 < octave.2.length) ↔ HasLongOctave cs := by
  constructor
  · rintro ⟨parts, hnote, ⟨negative, digits⟩, hoctave, hlong⟩
    obtain ⟨hdigits, c, rest, hletter, hduration, rfl⟩ := note?_eq_some_iff.mp hnote
    rw [hoctave, spellOctave, List.append_assoc]
    exact .intro (by simp [hletter]) (hdigits _ hoctave).2 hlong
      (isSome_durationText?_iff.mp (Option.isSome_of_eq_some hduration))
  · intro h
    cases h with
    | @intro c sharp negative digits rest hletter hdigits hlong hrest =>
      obtain ⟨letter, hletter⟩ := Option.isSome_iff_exists.mp hletter
      obtain ⟨duration, hduration⟩ :=
        Option.isSome_iff_exists.mp (isSome_durationText?_iff.mpr hrest)
      have hne : digits ≠ [] := List.length_pos_iff.mp (by omega)
      refine ⟨⟨letter, sharp, some (negative, digits), duration⟩, ?_, (negative, digits), rfl, hlong⟩
      refine note?_eq_some_iff.mpr ⟨?_, c, rest, hletter, hduration, ?_⟩
      · rintro _ ⟨⟩
        exact ⟨hne, hdigits⟩
      · rw [spellOctave, List.append_assoc]

/-! ## Tokens without an event -/

/-- An octave is read unless it has too many digits. -/
theorem isOk_resolveOctave_iff :
    (resolveOctave octave).isOk ↔ ∀ o, octave = some o → ¬ 4300 < o.2.length := by
  cases octave with
  | none => exact iff_of_true rfl nofun
  | some o =>
    obtain ⟨negative, digits⟩ := o
    rw [resolveOctave, Text.integerPlaces]
    split
    · next hlong => exact iff_of_false Bool.false_ne_true fun h => h _ rfl hlong
    · next hlong => exact iff_of_true rfl fun o ho => Option.some.inj ho ▸ hlong

/-- **A token has an event** unless it is a note with a long octave. -/
theorem isOk_eventOf_iff : (eventOf token time).isOk ↔ ¬ HasLongOctave token.text := by
  rw [← exists_note?_iff, eventOf]
  cases hnote : note? token.text with
  | none =>
    refine iff_of_true ?_ (by rintro ⟨parts, hparts, -⟩; cases hparts)
    split
    · rfl
    · split <;> rfl
  | some parts =>
    obtain ⟨hcomment, hpause⟩ := not_comment_of_note? hnote
    rw [if_neg (by simp [hcomment]), hpause]
    have hoctave := @isOk_resolveOctave_iff parts.octave
    constructor
    · rintro h ⟨parts', hparts, octave, heq, hlong⟩
      obtain rfl := Option.some.inj hparts
      obtain ⟨n, hn, -⟩ := isOk_bind_iff.mp h
      exact hoctave.mp (hn ▸ rfl) octave heq hlong
    · intro h
      obtain ⟨n, hn⟩ := exists_ok_of_isOk
        (hoctave.mpr fun octave heq hlong => h ⟨parts, rfl, octave, heq, hlong⟩)
      exact isOk_bind_iff.mpr ⟨n, hn, rfl⟩

/-- Tokens have events unless one of them has a long octave. -/
theorem isOk_eventsFrom_iff :
    (eventsFrom time ts).isOk ↔ ∀ token ∈ ts, ¬ HasLongOctave token.text := by
  induction ts generalizing time with
  | nil => exact iff_of_true rfl fun token htoken => absurd htoken List.not_mem_nil
  | cons token ts ih =>
    rw [eventsFrom, isOk_bind_iff, List.forall_mem_cons]
    constructor
    · rintro ⟨e, he, h⟩
      obtain ⟨es, hes, -⟩ := isOk_bind_iff.mp h
      exact ⟨isOk_eventOf_iff.mp (by rw [he]; rfl), ih.mp (by rw [hes]; rfl)⟩
    · rintro ⟨htoken, hts⟩
      obtain ⟨e, he⟩ := exists_ok_of_isOk (isOk_eventOf_iff.mpr htoken)
      obtain ⟨es, hes⟩ := exists_ok_of_isOk (ih.mpr hts)
      exact ⟨e, he, isOk_bind_iff.mpr ⟨es, hes, rfl⟩⟩

/-- A score is read unless one of its notes has a long octave. -/
theorem isOk_parse_iff :
    (parse text).isOk ↔ ∀ token ∈ tokens text, ¬ HasLongOctave token.text := by
  rw [← @isOk_eventsFrom_iff (tokens text) 0, parse, readEvents]
  cases eventsFrom 0 (tokens text) <;> rfl

end Monody.Melody
