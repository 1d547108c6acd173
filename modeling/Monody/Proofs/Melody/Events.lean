import Monody.Outcome
import Monody.Proofs.Melody.Parts
import Monody.Proofs.Melody.Tokens
import Monody.Proofs.Outcome
import Monody.Proofs.Pitch

/-!
# Events that read back

An event without a flaw is a comment, or a pause or a note with a positive duration. Notes and pauses
are written as one token, which is read as the same note or pause.

## Main definitions

* `noteText` — a note without its duration

## Main results

* `eventOf_eq_cases`, `eventOf_cases` — what an event is read from, and what one without a flaw
* `exists_representable` — the number of a note that is played
* `eventOf_note`, `eventOf_pause` — notes and pauses are read with the durations after them
* `eventOf_noteText`, `eventOf_pauseText` — written notes and pauses are read as themselves
* `isPlainText_append` — they are one token
-/

namespace Monody.Melody

open Text Binary64

attribute [local irreducible] one bound

variable {cs w : List Char} {c : Char} {x time : Binary64} {e : Event} {token : Token}

/-! ## One token -/

/-- A character that neither starts nor ends anything. -/
def IsInert (c : Char) : Prop := isStarter c = false ∧ isBlank c = false ∧ c ≠ '/' ∧ c ≠ '('

instance (c : Char) : Decidable (IsInert c) := inferInstanceAs (Decidable (_ ∧ _))

theorem isInert_of_isDigit (h : c.isDigit) : IsInert c := by
  obtain ⟨hlow, hhigh⟩ := toNat_of_isDigit h
  have hne {d : Char} (hd : d.toNat < 48) : c ≠ d := by
    rintro rfl
    omega
  refine ⟨?_, ?_, hne (by decide), hne (by decide)⟩
  · rw [Bool.eq_false_iff, ne_eq, isStarter_iff]
    omega
  · rw [Bool.eq_false_iff, ne_eq]
    simp only [isBlank, blankRanges, List.any_cons, List.any_nil, Bool.or_eq_true,
      Bool.and_eq_true, decide_eq_true_eq, Bool.false_eq_true, or_false]
    omega

theorem advance_inert (h : ∀ c ∈ cs, IsInert c) {pos start : ℕ} {text raw : List Char}
    {next : Option Char} :
    advance pos (some ⟨start, .plain, text, raw, []⟩) next cs =
      ([], some ⟨start, .plain, cs.reverse ++ text, cs.reverse ++ raw, []⟩) := by
  induction cs generalizing pos text raw with
  | nil => rfl
  | cons c cs ih =>
    obtain ⟨hstarter, hblank, hslash, hopen⟩ := h c List.mem_cons_self
    have hmode : modeAfter c = .plain := if_neg hopen
    have hreceives : Receives false (some ⟨start, .plain, text, raw, []⟩) := .of_plain rfl
    simp only [advance, hreceives.step]
    rw [stepPlain_of_not (fun hand => hslash hand.1) (by simp [hstarter]) (by simp [hblank]), hmode]
    simp only [OpenToken.push, List.nil_append]
    rw [ih fun d hd => h d (List.mem_cons_of_mem _ hd)]
    simp

theorem advance_parenthesis (h : ∀ c ∈ cs, c ≠ ')') {pos start : ℕ} {text raw : List Char}
    {next : Option Char} :
    advance pos (some ⟨start, .parenthesis, text, raw, []⟩) next cs =
      ([], some ⟨start, .parenthesis, cs.reverse ++ text, cs.reverse ++ raw, []⟩) := by
  induction cs generalizing pos text raw with
  | nil => rfl
  | cons c cs ih =>
    simp only [advance, step, if_neg (h c List.mem_cons_self), OpenToken.push, List.nil_append]
    rw [ih fun d hd => h d (List.mem_cons_of_mem _ hd)]
    simp

/-- What stays in a token that it is written after: nothing, or something in parentheses that are not
closed before its end. -/
inductive IsClosed : List Char → Prop
  | nothing : IsClosed []
  | parenthesized (inner : List Char) (hclose : ∀ d ∈ inner, d ≠ ')') : IsClosed ('(' :: inner ++ [')'])

theorem IsDurationShape.isClosed (hw : IsDurationShape w) : IsClosed w := by
  cases hw with
  | default => exact .nothing
  | stated digits hdigits =>
    refine .parenthesized digits ?_
    rintro d hd rfl
    rcases hdigits _ hd with hdigit | hpoint
    · exact isDigit_ne (by decide +kernel) hdigit rfl
    · exact absurd hpoint (by decide)

/-- A starter with inert characters after it, and what may stay with them, is one token. -/
theorem isPlainText_append (hc : isStarter c) (hcs : ∀ d ∈ cs, IsInert d) (hw : IsClosed w) :
    IsPlainText (c :: cs ++ w) := by
  intro pos t next ht
  have hfirst (next : Option Char) : advance pos t next (c :: cs) =
      (flush t, some ⟨pos, .plain, cs.reverse ++ [c], cs.reverse ++ [c], []⟩) := by
    simp only [advance, ht.step, stepPlain_of_isStarter hc, OpenToken.first]
    rw [advance_inert hcs]
    simp
  rw [advance_append, hfirst]
  cases hw with
  | nothing => simp [advance]
  | parenthesized inner hclose =>
    have hopen : stepPlain (pos + (c :: cs).length)
        (some ⟨pos, .plain, cs.reverse ++ [c], cs.reverse ++ [c], []⟩) '('
          ((inner ++ [')']).head?.or next) =
        ([], some ⟨pos, .parenthesis, '(' :: (cs.reverse ++ [c]), '(' :: (cs.reverse ++ [c]), []⟩) := by
      rw [stepPlain_of_not (by simp) (by decide) (by decide)]
      rfl
    have hreceives : Receives false
        (some ⟨pos, .plain, cs.reverse ++ [c], cs.reverse ++ [c], []⟩) := .of_plain rfl
    simp only [List.cons_append, advance]
    simp only [hreceives.step, hopen, advance_append, advance_parenthesis hclose]
    simp [advance, step, OpenToken.push]

/-! ## Durations -/

/-- What is written for a duration is read as it. -/
theorem IsDurationText.resolve (h : IsDurationText x w) :
    ∃ stated, durationText? w = some stated ∧ resolveDuration? stated = some x := by
  cases h with
  | default h => exact ⟨none, rfl, congrArg some h.symm⟩
  | stated digits hdigits hread =>
    refine ⟨some digits, ?_, hread⟩
    simp [durationText?, parenthesized?]

/-- A duration that is left out is the default, and one that is stated is a positive decimal. -/
theorem eq_of_resolveDuration? {stated : Option (List Char)} (h : resolveDuration? stated = some x) :
    x = defaultDuration ∨ ∃ d, x = ofDecimal false d ∧ ¬ x ≤ 0 := by
  cases stated with
  | none => exact .inl (Option.some.inj h).symm
  | some cs =>
    simp only [resolveDuration?, readDuration?] at h
    generalize (if cs.getLast? = some '\n' then cs.dropLast else cs) = body at h
    split at h
    · cases h
    split at h
    · cases h
    split at h
    · cases h
    · next hpos =>
      obtain rfl := Option.some.inj h
      exact .inr ⟨_, rfl, hpos⟩

theorem defaultDuration_eq : defaultDuration = Binary64.ofNat 1000 (by decide) :=
  ofInt_natCast (by decide)

/-- A duration that is stated or left out is positive if it is finite. -/
theorem eq_finite_of_resolveDuration? {stated : Option (List Char)}
    (h : resolveDuration? stated = some x) (hx : x.isFinite) :
    ∃ n hn, x = .finite false n hn ∧ 0 < n := by
  rcases eq_of_resolveDuration? h with rfl | ⟨d, hd, hpos⟩
  · refine ⟨1000 * one, fits_mul_one (by decide), defaultDuration_eq, ?_⟩
    exact Nat.mul_pos (by decide) Binary64.one_pos
  · cases x with
    | nan => cases hx
    | infinite s => cases hx
    | finite s n hn =>
      obtain rfl : s = false := sign_of_ofDecimal hd.symm
      refine ⟨n, hn, rfl, Nat.pos_of_ne_zero fun hzero => hpos ?_⟩
      subst hzero
      refine .inr ?_
      rw [zero_eq]
      rfl

/-! ## Notes and pauses -/

/-- An octave as it is written. -/
def octaveText (octave : Int) : List Char :=
  if octave = defaultOctave then [] else (toString octave).toList

/-- A note without its duration. -/
def noteText (letter : Letter) (sharp : Bool) (octave : Int) : List Char :=
  (letter.toChar :: if sharp then ['#'] else []) ++ octaveText octave

theorem octaveText_of_ne {k : ℕ} (h : (k : ℤ) ≠ defaultOctave) :
    octaveText k = Nat.toDigits 10 k :=
  (if_neg h).trans Nat.toList_repr

theorem isDigit_of_mem_octaveText {octave : Int} (hlow : 0 ≤ octave) :
    ∀ c ∈ octaveText octave, c.isDigit := by
  obtain ⟨k, rfl⟩ : ∃ k : ℕ, octave = k := ⟨octave.toNat, (Int.toNat_of_nonneg hlow).symm⟩
  intro c hc
  by_cases hdefault : (k : ℤ) = defaultOctave
  · rw [octaveText, if_pos hdefault] at hc
    exact absurd hc List.not_mem_nil
  · rw [octaveText_of_ne hdefault] at hc
    exact isDigit_of_mem_toDigits hc

/-- The octave of a note as it is read: as it is stated, or none for the default. -/
theorem exists_spellOctave {octave : Int} (hlow : 0 ≤ octave) (hhigh : octave ≤ 8) :
    ∃ stated, octaveText octave = spellOctave stated ∧ HasDigits stated ∧
      resolveOctave stated = .ok octave := by
  obtain ⟨k, rfl⟩ : ∃ k : ℕ, octave = k := ⟨octave.toNat, (Int.toNat_of_nonneg hlow).symm⟩
  by_cases hdefault : (k : ℤ) = defaultOctave
  · rw [octaveText, if_pos hdefault, hdefault]
    exact ⟨none, rfl, nofun, rfl⟩
  · have hlength : (Nat.toDigits 10 k).length ≤ 1 :=
      (Nat.length_toDigits_le_iff (by decide) (by decide)).mpr (by omega)
    have hshort : ¬ integerPlaces < (Nat.toDigits 10 k).length := by
      rw [integerPlaces]
      omega
    refine ⟨some (false, Nat.toDigits 10 k), octaveText_of_ne hdefault, ?_, ?_⟩
    · rintro _ ⟨⟩
      exact ⟨Nat.toDigits_ne_nil, fun c hc => isDigit_of_isDigit (isDigit_of_mem_toDigits hc)⟩
    · rw [resolveOctave, if_neg hshort, digitsValue_toDigits]
      rfl

/-- A written note is read as the parts it was written from. -/
theorem note?_noteText (letter : Letter) (sharp : Bool) {octave : Int} (hlow : 0 ≤ octave)
    (hhigh : octave ≤ 8) {duration : Option (List Char)} (hduration : durationText? w = some duration) :
    ∃ stated, note? (noteText letter sharp octave ++ w) = some ⟨letter, sharp, stated, duration⟩ ∧
      resolveOctave stated = .ok octave := by
  obtain ⟨stated, hspell, hdigits, hresolve⟩ := exists_spellOctave hlow hhigh
  have hletter : Letter.ofChar? letter.toChar = some letter := by cases letter <;> rfl
  refine ⟨stated, note?_eq_some_iff.mpr ⟨hdigits, _, w, hletter, hduration, ?_⟩, hresolve⟩
  rw [noteText, hspell, List.cons_append, List.cons_append, List.append_assoc]

theorem toChar_ne (letter : Letter) : letter.toChar ≠ '/' ∧ isStarter letter.toChar := by
  cases letter <;> decide

/-- The flaw of a duration that cannot be read. -/
def flawOfDuration (cause : List Char → Flaw.Cause) (stated : Option (List Char)) :
    Option Flaw.Cause :=
  if (resolveDuration? stated).isNone then some (cause (stated.getD [])) else none

/-- A written note is read as that note, with the duration that stands after it. -/
theorem eventOf_note (letter : Letter) (sharp : Bool) {octave : Int} (hlow : 0 ≤ octave)
    (hhigh : octave ≤ 8) {stated : Option (List Char)}
    (hstated : durationText? w = some stated)
    (htext : token.text = noteText letter sharp octave ++ w) :
    eventOf token time = .ok (placed token time (.note letter sharp octave) (resolveDuration? stated)
      (flawOfDuration .duration stated)) := by
  obtain ⟨octave?, hnote, hoctave⟩ := note?_noteText letter sharp hlow hhigh hstated
  obtain ⟨hcomment, hpause⟩ := not_comment_of_note? hnote
  have hrange : ¬ (octave < Pitch.minOctave ∨ Pitch.maxOctave < octave) := by
    rw [Pitch.minOctave, Pitch.maxOctave]
    omega
  rw [eventOf, htext, if_neg (by simp [hcomment]), hpause]
  simp only [hnote, hoctave, ok_bind, if_neg hrange]
  rfl

/-- A written pause is read as a pause, with the duration that stands after it. -/
theorem eventOf_pause {stated : Option (List Char)} (hstated : durationText? w = some stated)
    (htext : token.text = 'P' :: w) :
    eventOf token time = .ok (placed token time .pause (resolveDuration? stated)
      (flawOfDuration .pauseDuration stated)) := by
  have hpause : pause? ('P' :: w) = some stated := hstated
  have hcomment := (not_comment_of_pause? hpause).1
  rw [eventOf, htext, if_neg (by simp [hcomment]), hpause]
  rfl

/-- A written note is read as an event without a flaw. -/
theorem eventOf_noteText (letter : Letter) (sharp : Bool) {octave : Int} (hlow : 0 ≤ octave)
    (hhigh : octave ≤ 8) (hw : IsDurationText x w)
    (htext : token.text = noteText letter sharp octave ++ w) :
    eventOf token time = .ok (placed token time (.note letter sharp octave) (some x) none) := by
  obtain ⟨stated, hstated, hresolve⟩ := hw.resolve
  rw [eventOf_note letter sharp hlow hhigh hstated htext, flawOfDuration, hresolve]
  rfl

theorem eventOf_pauseText (hw : IsDurationText x w) (htext : token.text = 'P' :: w) :
    eventOf token time = .ok (placed token time .pause (some x) none) := by
  obtain ⟨stated, hstated, hresolve⟩ := hw.resolve
  rw [eventOf_pause hstated htext, flawOfDuration, hresolve]
  rfl

theorem isPlainText_noteText (letter : Letter) (sharp : Bool) {octave : Int} (hlow : 0 ≤ octave)
    (hw : IsClosed w) : IsPlainText (noteText letter sharp octave ++ w) := by
  refine isPlainText_append (toChar_ne letter).2 (fun c hc => ?_) hw
  rcases List.mem_append.mp hc with hc | hc
  · cases sharp with
    | false => exact absurd hc List.not_mem_nil
    | true => exact List.mem_singleton.mp hc ▸ by decide
  · exact isInert_of_isDigit (isDigit_of_mem_octaveText hlow c hc)

theorem isPlainText_pauseText (hw : IsClosed w) : IsPlainText ('P' :: w) :=
  isPlainText_append (by decide) (fun _ hc => absurd hc List.not_mem_nil) hw

/-! ## Events without a flaw -/

/-- A pause, or a note in an octave of a score. -/
inductive IsTimed : Content → Prop
  | pause : IsTimed .pause
  | note (letter : Letter) (sharp : Bool) {octave : Int} (hlow : 0 ≤ octave) (hhigh : octave ≤ 8) :
      IsTimed (.note letter sharp octave)

/-- What the event of a token is: a comment, a pause or a note by the first of these that its text is read
as, and otherwise nothing that can be read. -/
theorem eventOf_eq_cases (h : eventOf token time = .ok e) :
    (isCommentText token.text = true ∧
      e = ⟨.comment, time, time, 0, none, token.raw, (token.start, token.stop)⟩) ∨
    (∃ stated, pause? token.text = some stated ∧
      e = placed token time .pause (resolveDuration? stated) (flawOfDuration .pauseDuration stated)) ∨
    (∃ parts n, note? token.text = some parts ∧ resolveOctave parts.octave = .ok n ∧
      e = placed token time (.note parts.letter parts.sharp n) (resolveDuration? parts.duration)
        (if n < Pitch.minOctave ∨ Pitch.maxOctave < n then some (.octave n)
          else flawOfDuration .duration parts.duration)) ∨
    (isCommentText token.text = false ∧ pause? token.text = none ∧ note? token.text = none ∧
      e = placed token time .unreadable none (some .unreadable)) := by
  -- in the order in which the readings are tried
  rw [eventOf] at h
  split at h
  · next hcomment => exact .inl ⟨hcomment, (Except.ok.inj h).symm⟩
  · next hcomment =>
    right
    cases hpause : pause? token.text with
    | some stated =>
      rw [hpause] at h
      exact .inl ⟨stated, rfl, (Except.ok.inj h).symm⟩
    | none =>
      right
      rw [hpause] at h
      cases hnote : note? token.text with
      | some parts =>
        rw [hnote] at h
        obtain ⟨n, hn, h⟩ := exists_of_bind_eq_ok h
        exact .inl ⟨parts, n, rfl, hn, (Except.ok.inj h).symm⟩
      | none =>
        rw [hnote] at h
        exact .inr ⟨Bool.eq_false_iff.mpr hcomment, rfl, rfl, (Except.ok.inj h).symm⟩

/-- An event without a flaw is a comment, or it is a pause or a note with a duration that its token
states or leaves out. -/
theorem eventOf_cases (h : eventOf token time = .ok e) (hflaw : e.flaw = none) :
    (isCommentText token.text = true ∧
      e = ⟨.comment, time, time, 0, none, token.raw, (token.start, token.stop)⟩) ∨
    (isCommentText token.text = false ∧ token.text.head? ≠ some '/' ∧
      ∃ content x stated, IsTimed content ∧ resolveDuration? stated = some x ∧
        e = placed token time content (some x) none) := by
  rcases eventOf_eq_cases h with ⟨hcomment, rfl⟩ | ⟨stated, hpause, rfl⟩ | ⟨parts, n, hnote, -, rfl⟩ |
    ⟨-, -, -, rfl⟩
  · exact .inl ⟨hcomment, rfl⟩
  · refine .inr ⟨(not_comment_of_pause? hpause).1, head?_ne_of_pause? hpause, .pause, ?_⟩
    rw [flawOfDuration] at hflaw ⊢
    cases hx : resolveDuration? stated with
    | none => simp [hx, placed] at hflaw
    | some x => exact ⟨x, stated, .pause, hx, rfl⟩
  · refine .inr ⟨(not_comment_of_note? hnote).1, head?_ne_of_note? hnote,
      .note parts.letter parts.sharp n, ?_⟩
    rw [flawOfDuration] at hflaw ⊢
    -- an octave out of range or a duration that cannot be read would be a flaw
    by_cases hrange : n < Pitch.minOctave ∨ Pitch.maxOctave < n
    · simp [hrange, placed] at hflaw
    rw [if_neg hrange] at hflaw ⊢
    rw [Pitch.minOctave, Pitch.maxOctave, not_or, not_lt, not_lt] at hrange
    cases hx : resolveDuration? parts.duration with
    | none => simp [hx, placed] at hflaw
    | some x => exact ⟨x, parts.duration, .note _ _ hrange.1 hrange.2, hx, rfl⟩
  · cases hflaw

/-! ## Notes with a number -/

section Named

variable {letter : Letter} {sharp : Bool} {octave : Int}

theorem noteNumber?_of_note (hcontent : e.content = .note letter sharp octave)
    (hflaw : e.flaw = none) :
    e.noteNumber? = (Pitch.noteNumber (Pitch.nameOf letter sharp) octave).map some := by
  rw [Event.noteNumber?, hcontent, hflaw]

/-- The number of a note without a flaw is that of its name and octave. -/
theorem exists_noteNumber {number : Option Int} (hcontent : e.content = .note letter sharp octave)
    (hflaw : e.flaw = none) (h : e.noteNumber? = .ok number) :
    ∃ n, Pitch.noteNumber (Pitch.nameOf letter sharp) octave = .ok n ∧ number = some n := by
  rw [noteNumber?_of_note hcontent hflaw] at h
  cases hn : Pitch.noteNumber (Pitch.nameOf letter sharp) octave with
  | error fault =>
    rw [hn] at h
    cases h
  | ok n =>
    rw [hn] at h
    exact ⟨n, rfl, (Except.ok.inj h).symm⟩

end Named

/-- The number of a note that is played is one of a score. -/
theorem exists_representable (h : eventOf token time = .ok e) (hplay : e.isPlayable)
    (hnamed : ∃ number, e.noteNumber? = .ok number) :
    ∃ n, e.noteNumber? = .ok (some n) ∧ Pitch.Representable n := by
  rw [Event.isPlayable, Bool.and_eq_true, Option.isNone_iff_eq_none] at hplay
  obtain ⟨hnote, hflaw⟩ := hplay
  obtain ⟨number, hnumber⟩ := hnamed
  rcases eventOf_cases h hflaw with ⟨-, rfl⟩ | ⟨-, -, content, x, stated, hcontent, -, rfl⟩
  · cases hnote
  · cases hcontent with
    | pause => cases hnote
    | @note letter sharp octave hlow hhigh =>
      obtain ⟨n, hn, rfl⟩ := exists_noteNumber rfl rfl hnumber
      exact ⟨n, hnumber, (Pitch.ofNoteNumber_of_noteNumber hlow hhigh hn).1⟩

/-- Every token of a score is read as one event. -/
theorem forall₂_eventOf {ts : List Token} {es : List Event} (h : eventsFrom time ts = .ok es) :
    List.Forall₂ (fun token e => ∃ time, eventOf token time = .ok e) ts es := by
  induction ts generalizing time es with
  | nil =>
    obtain rfl := Except.ok.inj h
    exact .nil
  | cons token ts ih =>
    obtain ⟨e, he, h⟩ := exists_of_bind_eq_ok h
    obtain ⟨rest, hrest, h⟩ := exists_of_bind_eq_ok h
    obtain rfl := Except.ok.inj h
    exact .cons ⟨time, he⟩ (ih hrest)

/-- Every event of a score is read from a token. -/
theorem exists_eventOf {ts : List Token} {es : List Event} (h : eventsFrom time ts = .ok es) :
    ∀ e ∈ es, ∃ token time, eventOf token time = .ok e := by
  intro e he
  obtain ⟨token, -, time, hread⟩ := exists_of_mem_right (forall₂_eventOf h) e he
  exact ⟨token, time, hread⟩

theorem readEvents_of_parse {text : List Char} {m : Melody} (h : parse text = .ok m) :
    readEvents text = .ok m.events := by
  rw [parse] at h
  cases hread : readEvents text with
  | error fault => rw [hread] at h; cases h
  | ok es =>
    rw [hread] at h
    exact congrArg Except.ok (congrArg Melody.events (Except.ok.inj h))

end Monody.Melody
