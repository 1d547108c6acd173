import Monody.Proofs.Melody.Grammar
import Monody.Proofs.Melody.RoundTrip
import Monody.Proofs.Melody.Timeline

/-!
# Durations without an end

A duration may have any number of digits. Reals end somewhere, and what is beyond them is read as
infinite, which is positive and so no flaw. Written out, infinity is a word and not a number, so the note
or the pause that had it is read back with a flaw. This happens to no other event: whatever has a finite
duration is read back as it was, next to what has not.

## Main definitions

* `IsEndless` — the texts of infinite durations
* `HasEndlessDuration` — the texts of notes and pauses that have one
* `ResolvesEndless` — what is read as an infinite duration
* `Event.Survives` — an event, and what is read from it after it is written

## Main results

* `isFinite_duration_iff` — the tokens that are read with finite durations
* `isRewriting_survives` — the event of one token is written and read back, unless it is endless
* `survives_of_parse` — the events of a score that are finite, and the scores that survive
-/

namespace Monody.Melody

open Text Binary64 Grammar

attribute [local irreducible] one bound

variable {cs : List Char} {x time : Binary64} {e : Event} {token : Token}
  {stated : Option (List Char)} {text : List Char} {m : Melody}

/-! ## Endless durations -/

/-- A number in parentheses that is beyond the reals: from half a step past the greatest of them on. -/
def IsEndless (cs : List Char) : Prop :=
  ∃ number ending d, cs = '(' :: (number ++ ending ++ [')']) ∧ accepted.IsNumber number d ∧
    accepted.IsEnding ending ∧ overflowing ≤ d.value

/-- A note or a pause with an endless duration. The octave of the note need not be in range. -/
inductive HasEndlessDuration : List Char → Prop
  | pause {c : Char} {duration : List Char} (hletter : c = 'P' ∨ c = 'p')
      (hduration : IsEndless duration) : HasEndlessDuration (c :: duration)
  | note {c : Char} (sharp : Bool) {octave : Option (Bool × List Char)} {duration : List Char}
      (hletter : c ∈ "ABCDEFGabcdefg".toList) (hoctave : HasDigits octave)
      (hduration : IsEndless duration) :
      HasEndlessDuration (c :: ((if sharp then ['#'] else []) ++ (spellOctave octave ++ duration)))

/-- A duration that is read as an infinite one. -/
def ResolvesEndless (stated : Option (List Char)) : Prop :=
  ∃ x, resolveDuration? stated = some x ∧ ¬ x.isFinite

theorem isFinite_defaultDuration : defaultDuration.isFinite := by
  rw [defaultDuration_eq]
  rfl

/-- The texts of durations that are read as infinite. -/
theorem isEndless_iff : IsEndless cs ↔
    ∃ stated, durationText? cs = some stated ∧ ResolvesEndless stated := by
  constructor
  · rintro ⟨number, ending, d, rfl, hnumber, hending, hlong⟩
    refine ⟨_, durationText?_parenthesized _, ofDecimal false d, ?_, ?_⟩
    · apply readDuration?_eq_some_iff.mpr
      exact ⟨number, ending, d, rfl, hnumber, hending, vanishing_lt_overflowing.trans_le hlong, rfl⟩
    · rw [isFinite_ofDecimal_iff]
      exact not_lt.mpr hlong
  · rintro ⟨stated, hstated, x, hx, hinfinite⟩
    rcases durationText?_eq_some_iff.mp hstated with ⟨rfl, rfl⟩ | ⟨inner, rfl, rfl⟩
    · obtain rfl := Option.some.inj hx
      exact absurd isFinite_defaultDuration hinfinite
    · obtain ⟨number, ending, d, rfl, hnumber, hending, -, rfl⟩ := readDuration?_eq_some_iff.mp hx
      rw [isFinite_ofDecimal_iff, not_lt] at hinfinite
      exact ⟨number, ending, d, rfl, hnumber, hending, hinfinite⟩

/-- A note or a pause has an endless duration if the duration that is read with it is infinite. -/
theorem hasEndlessDuration_iff : HasEndlessDuration cs ↔
    (∃ stated, pause? cs = some stated ∧ ResolvesEndless stated) ∨
      ∃ parts, note? cs = some parts ∧ ResolvesEndless parts.duration := by
  constructor
  · intro h
    cases h with
    | pause hletter hduration =>
      obtain ⟨stated, hstated, hendless⟩ := isEndless_iff.mp hduration
      exact .inl ⟨stated, pause?_eq_some_iff.mpr ⟨_, _, hletter, hstated, rfl⟩, hendless⟩
    | note sharp hletter hoctave hduration =>
      obtain ⟨letter, hletter⟩ := Option.isSome_iff_exists.mp (isSome_ofChar?_iff.mpr hletter)
      obtain ⟨stated, hstated, hendless⟩ := isEndless_iff.mp hduration
      exact .inr ⟨⟨letter, sharp, _, stated⟩,
        note?_eq_some_iff.mpr ⟨hoctave, _, _, hletter, hstated, rfl⟩, hendless⟩
  · rintro (⟨stated, hpause, hendless⟩ | ⟨parts, hnote, hendless⟩)
    · obtain ⟨c, rest, hletter, hstated, rfl⟩ := pause?_eq_some_iff.mp hpause
      exact .pause hletter (isEndless_iff.mpr ⟨stated, hstated, hendless⟩)
    · obtain ⟨hdigits, c, rest, hletter, hstated, rfl⟩ := note?_eq_some_iff.mp hnote
      exact .note parts.sharp (isSome_ofChar?_iff.mp (Option.isSome_of_eq_some hletter)) hdigits
        (isEndless_iff.mpr ⟨_, hstated, hendless⟩)

/-- A duration that cannot be read is taken for the default, which is finite. -/
theorem isFinite_placed_iff {content : Content} {cause : Option Flaw.Cause} :
    (placed token time content (resolveDuration? stated) cause).duration.isFinite ↔
      ¬ ResolvesEndless stated := by
  rw [ResolvesEndless]
  cases resolveDuration? stated with
  | none => simpa [placed] using isFinite_defaultDuration
  | some x => simp [placed]

/-- The tokens that are read with finite durations. -/
theorem isFinite_duration_iff (h : eventOf token time = .ok e) :
    e.duration.isFinite ↔ ¬ HasEndlessDuration token.text := by
  rw [hasEndlessDuration_iff]
  rcases eventOf_eq_cases h with ⟨hcomment, rfl⟩ | ⟨stated, hpause, rfl⟩ | ⟨parts, n, hnote, -, rfl⟩ |
    ⟨-, hpause, hnote, rfl⟩
  · obtain ⟨hpause, hnote⟩ := not_pause_of_comment hcomment
    simp [hpause, hnote, isFinite_zero]
  · rw [isFinite_placed_iff]
    simp [hpause, (not_comment_of_pause? hpause).2]
  · rw [isFinite_placed_iff]
    simp [hnote, (not_comment_of_note? hnote).2]
  · simpa [hpause, hnote, placed] using isFinite_defaultDuration

/-! ## Writing endless durations -/

/-- What becomes of an event that is written: it stays what it is, and it is read without a flaw, with
the duration it had, if and only if that is finite. -/
structure Event.Survives (e e' : Event) : Prop where
  content : e'.content = e.content
  raw : e.isComment → e'.raw = e.raw
  flaw : e'.flaw = none ↔ e.duration.isFinite
  duration : e.duration.isFinite → e'.duration = e.duration

/-- An infinite duration is written as a word. -/
theorem writeDuration_infinite :
    writeDuration (.ofReal (.infinite false)) = .ok ('(' :: "Infinity".toList ++ [')']) := by
  decide +kernel

/-- Any duration is written, and what is written is read as it, if it is finite, and otherwise as
nothing. -/
theorem writeDuration_resolved (h : resolveDuration? stated = some x) :
    ∃ v stated', writeDuration (.ofReal x) = .ok v ∧ IsClosed v ∧ durationText? v = some stated' ∧
      resolveDuration? stated' = if x.isFinite then some x else none := by
  by_cases hfinite : x.isFinite
  · obtain ⟨n, hn, rfl, hpos⟩ := eq_finite_of_resolveDuration? h hfinite
    obtain ⟨v, hv, htext⟩ := writeDuration_ok hpos hn
    obtain ⟨stated', hstated', hresolve⟩ := htext.resolve
    exact ⟨v, stated', hv, htext.shape.isClosed, hstated', hresolve.trans (if_pos hfinite).symm⟩
  · -- no duration is negative
    obtain rfl : x = .infinite false := by
      cases isTime_of_resolveDuration? h with
      | finite => exact absurd rfl hfinite
      | infinite => rfl
    refine ⟨_, _, writeDuration_infinite, .parenthesized _ (by simp), durationText?_parenthesized _, ?_⟩
    rw [if_neg hfinite]
    decide +kernel

/-- The event of a token is written, and whatever is read from the characters that stand for the token
has the event that becomes of it, at any time. -/
theorem isRewriting_survives :
    IsRewriting formatEvent (fun e => e.flaw = none) (fun _ _ => True) Event.Survives := by
  intro token time e h hflaw
  rcases eventOf_cases h hflaw with ⟨hcomment, rfl⟩ |
    ⟨hcomment, hslash, content, x, stated, hcontent, hx, rfl⟩
  · -- a comment passes through
    refine ⟨token.raw, rfl, .inl ⟨hcomment, rfl⟩, fun new hnew time' _ => ?_⟩
    obtain ⟨htext, hraw⟩ := spelling_of_comment hcomment hnew
    exact ⟨_, if_pos (htext ▸ hcomment),
      ⟨rfl, fun _ => hraw, iff_of_true rfl isFinite_zero, fun _ => rfl⟩, trivial⟩
  -- a pause or a note is read back with the duration that is written for it, or without any
  obtain ⟨v, stated', hv, hclosed, hstated, hresolve⟩ := writeDuration_resolved hx
  obtain ⟨w, hplain, hwrite, hread⟩ := writeEvent_timed hcontent hv hclosed hstated
  refine ⟨w, ?_, .inr ⟨hcomment, hslash, hplain⟩, fun new hnew time' _ => ?_⟩
  · exact mapError_eq_ok_iff.mpr (hwrite (placed token time content (some x) none) rfl)
  have htext : new.text = w := text_of_not_comment hcomment hnew
  obtain ⟨cause, he'⟩ := hread new time' htext
  refine ⟨_, he', ⟨rfl, fun hc => ?_, ?_, fun hfinite => ?_⟩, trivial⟩
  · -- neither a pause nor a note is a comment
    cases hcontent <;> cases hc
  · rw [flawOfDuration, hresolve]
    by_cases hfinite : x.isFinite = true <;> simp [placed, hfinite]
  · have hfinite : x.isFinite = true := hfinite
    rw [hresolve, if_pos hfinite]
    rfl

theorem isFlawed_eq_false_of_survives {es es' : List Event} (h : List.Forall₂ Event.Survives es es') :
    (∀ e' ∈ es', e'.flaw = none) ↔ ∀ e ∈ es, e.duration.isFinite := by
  induction h with
  | nil => simp
  | cons hsurvives _ ih => rw [List.forall_mem_cons, List.forall_mem_cons, hsurvives.flaw, ih]

/-! ## Scores -/

/-- **The events of a score that are finite, and the scores that survive.** A duration is finite unless
it is stated as a number beyond the reals. A score without flaws can be written, and its events come back
as what they were, with their comments. Those with a finite duration keep it and have no flaw, and the
others have one. So what is written is again without flaws if and only if all durations were finite. -/
theorem survives_of_parse (hparse : parse text = .ok m) :
    List.Forall₂ (fun token e => e.duration.isFinite ↔ ¬ HasEndlessDuration token.text)
      (tokens text) m.events ∧
    (m.isFlawed = false → ∃ written m', serialize m.events = .ok written ∧ parse written = .ok m' ∧
      List.Forall₂ Event.Survives m.events m'.events ∧
      (m'.isFlawed = false ↔ ∀ e ∈ m.events, e.duration.isFinite)) := by
  constructor
  · refine (forall₂_eventOf (readEvents_of_parse hparse)).imp ?_
    rintro token e ⟨time, h⟩
    exact isFinite_duration_iff h
  · intro hsound
    obtain ⟨ws, m', hws, hparse', hsurvives⟩ :=
      parse_respelled isRewriting_survives trivial hparse (isFlawed_eq_false_iff.mp hsound)
    refine ⟨joinTokens ws, m', ?_, hparse', hsurvives, ?_⟩
    · rw [serialize, hws]
      rfl
    · rw [isFlawed_eq_false_iff, isFlawed_eq_false_of_survives hsurvives]

/-- A comment, a note that states everything, a pause and a fraction. -/
theorem survives_of_parse_song : ∃ m, parse "//x/ (// c#5(250) p\nd(2.50)".toList = .ok m ∧
    m.isFlawed = false ∧
    List.Forall₂ (fun token e => e.duration.isFinite ↔ ¬ HasEndlessDuration token.text)
      (tokens "//x/ (// c#5(250) p\nd(2.50)".toList) m.events ∧
    ∃ written m', serialize m.events = .ok written ∧ parse written = .ok m' ∧
      List.Forall₂ Event.Survives m.events m'.events ∧
      (m'.isFlawed = false ↔ ∀ e ∈ m.events, e.duration.isFinite) := by
  obtain ⟨m, hparse, hsound⟩ : ∃ m, parse "//x/ (// c#5(250) p\nd(2.50)".toList = .ok m ∧
      m.isFlawed = false := by
    refine ⟨⟨_, _⟩, rfl, ?_⟩
    decide +kernel
  obtain ⟨hfinite, hsurvives⟩ := survives_of_parse hparse
  exact ⟨m, hparse, hsound, hfinite, hsurvives hsound⟩

/-- A note with four hundred nines for its duration has no flaw and lasts for ever, and what is written
for it has a flaw. -/
theorem not_survives_of_parse :
    (¬ ∀ (text : List Char) (m : Melody), parse text = .ok m → ∀ e ∈ m.events, e.duration.isFinite) ∧
    ¬ ∀ (text : List Char) (m : Melody), parse text = .ok m → m.isFlawed = false →
      ∃ written m', serialize m.events = .ok written ∧ parse written = .ok m' ∧ m'.isFlawed = false := by
  obtain ⟨text, m, hparse, hsound, hinfinite, hserialize⟩ : ∃ text m, parse text = .ok m ∧
      m.isFlawed = false ∧ m.events.all (·.duration.isFinite) = false ∧
      serialize m.events = .ok "C(Infinity)".toList := by
    have hread : (parse ('C' :: '(' :: (List.replicate 400 '9' ++ [')']))).toOption.map (fun m =>
        (m.isFlawed, m.events.all (·.duration.isFinite), serialize m.events)) =
          some (false, false, .ok "C(Infinity)".toList) := by decide +kernel
    obtain ⟨m, hparse, hm⟩ := Option.map_eq_some_iff.mp hread
    simp only [Prod.mk.injEq] at hm
    exact ⟨_, m, toOption_eq_some_iff.mp hparse, hm⟩
  constructor
  · intro h
    rw [List.all_eq_true.mpr (h text m hparse)] at hinfinite
    cases hinfinite
  · intro h
    obtain ⟨written, m', hwritten, hparse', hsound'⟩ := h text m hparse hsound
    obtain rfl : "C(Infinity)".toList = written := Except.ok.inj (hserialize.symm.trans hwritten)
    have hflawed : (parse "C(Infinity)".toList).toOption.map isFlawed = some true := by decide +kernel
    rw [hparse'] at hflawed
    cases hsound'.symm.trans (Option.some.inj hflawed)

end Monody.Melody
