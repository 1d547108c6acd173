import Monody.Proofs.Melody.Octave
import Monody.Proofs.Melody.Slices

/-!
# Which slices are comments

Two slashes open a comment and the next two close it, and the lexer looks for them in the score itself.
What a token is read as is decided once more, by the characters that count in it. A stray slash is an
ordinary character there, but a slash, white space and another slash are two slashes as soon as the white
space is gone. So a stray text that begins with two slashes apart, and ends with two slashes in one way
or another, is taken for a comment. It takes no time then, and nothing is wrong with it.

All other tokens are what their shape says: a pause, a note, or something unreadable that is kept as it
was written.

## Main definitions

* `IsEnclosed` — a slice with two slashes at either end
* `IsDisguised` — a stray slice whose slashes meet when its white space is left out
* `Sorts` — what a token is read as

## Main results

* `isEnclosed_compact_iff` — what counts in a slice looks like a comment if the slice is one, or is disguised
* `sorts_of_parse` — the comments, pauses, notes and unreadable tokens of a score
-/

namespace Monody.Melody

open Text

variable {c d : Char} {cs ds raw : List Char} {time : Binary64} {e : Event} {token : Token}
  {text : List Char}

/-! ## Two slashes at either end -/

/-- Two slashes, and two others at the end. -/
def IsEnclosed (cs : List Char) : Prop := ∃ body, cs = slashes ++ (body ++ slashes)

/-- A slash and another one after white space, and two slashes at the end of what counts. -/
inductive IsDisguised : List Char → Prop
  | intro {gap rest : List Char} (hgap : ∀ c ∈ gap, isBlank c = true) (hne : gap ≠ [])
      (hclose : slashes <:+ compactFrom false rest) : IsDisguised ('/' :: (gap ++ '/' :: rest))

theorem isCommentText_iff : isCommentText cs = true ↔ IsEnclosed cs := by
  constructor
  · intro h
    simp only [isCommentText, Bool.and_eq_true, decide_eq_true_eq, beq_iff_eq] at h
    obtain ⟨⟨hlength, hopen⟩, hclose⟩ := h
    have hsplit : cs.take 2 ++ ((cs.drop 2).take (cs.length - 4) ++ (cs.drop 2).drop (cs.length - 4)) =
        cs := by rw [List.take_append_drop, List.take_append_drop]
    have hrest : 2 + (cs.length - 4) = cs.length - 2 := by omega
    rw [List.drop_drop, hrest, hopen, hclose] at hsplit
    exact ⟨_, hsplit.symm⟩
  · rintro ⟨body, rfl⟩
    exact isCommentText_slashes body

/-- The first character that counts stands after white space. -/
theorem exists_of_compactFrom_eq_cons (h : compactFrom false cs = d :: ds) :
    ∃ gap rest, cs = gap ++ d :: rest ∧ (∀ c ∈ gap, isBlank c = true) ∧
      ds = compactFrom (d = '(') rest := by
  induction cs with
  | nil => cases h
  | cons c cs ih =>
    rw [compactFrom, if_neg Bool.false_ne_true] at h
    split at h
    · next hblank =>
      obtain ⟨gap, rest, rfl, hgap, hds⟩ := ih h
      exact ⟨c :: gap, rest, rfl, List.forall_mem_cons.mpr ⟨hblank, hgap⟩, hds⟩
    · obtain ⟨rfl, rfl⟩ := List.cons.inj h
      exact ⟨[], cs, rfl, by simp, rfl⟩

theorem not_isBlank_slash : isBlank '/' = false := by decide

theorem compactFrom_slash : compactFrom false ('/' :: cs) = '/' :: compactFrom false cs :=
  compactFrom_of_not_blank (by simp [not_isBlank_slash])

/-- A disguised slice does not begin with two slashes. -/
theorem IsDisguised.not_prefix (h : IsDisguised cs) : ¬ slashes <+: cs := by
  cases h with
  | @intro gap rest hgap hne =>
    obtain ⟨b, gap, rfl⟩ := List.exists_cons_of_ne_nil hne
    intro hslashes
    obtain rfl : '/' = b := (List.cons_prefix_cons.mp (List.cons_prefix_cons.mp hslashes).2).1
    have hblank := hgap '/' List.mem_cons_self
    rw [not_isBlank_slash] at hblank
    cases hblank

/-- What counts in a slice that begins with a single slash looks like a comment if it is disguised. -/
theorem isEnclosed_compactFrom_iff (hraw : ∀ c ∈ raw.head?, isBlank c = false)
    (hslashes : ¬ slashes <+: raw) : IsEnclosed (compactFrom false raw) ↔ IsDisguised raw := by
  constructor
  · rintro ⟨body, hbody⟩
    obtain ⟨gap, rest, rfl, hgap, hrest⟩ := exists_of_compactFrom_eq_cons hbody
    -- the slice begins with its first slash
    obtain rfl : gap = [] := by
      cases gap with
      | nil => rfl
      | cons b gap =>
        have hblank := hgap b List.mem_cons_self
        rw [hraw b rfl] at hblank
        cases hblank
    obtain ⟨gap, rest, rfl, hgap, hrest⟩ := exists_of_compactFrom_eq_cons hrest.symm
    refine .intro hgap ?_ ⟨body, hrest⟩
    rintro rfl
    exact hslashes (List.prefix_append slashes rest)
  · intro h
    cases h with
    | intro hgap _ hclose =>
      obtain ⟨body, hbody⟩ := hclose
      refine ⟨body, ?_⟩
      rw [compactFrom_slash, compactFrom_blank_append hgap, compactFrom_slash, ← hbody]
      rfl

/-- What counts in a slice looks like a comment if the slice is one, or if it is disguised. -/
theorem isEnclosed_compact_iff (hraw : ∀ c ∈ raw.head?, isBlank c = false) :
    IsEnclosed (compact raw) ↔ IsEnclosed raw ∨ IsDisguised raw := by
  rw [compact]
  split
  · next hslashes => exact (or_iff_left fun h => h.not_prefix hslashes).symm
  · next hslashes =>
    rw [isEnclosed_compactFrom_iff hraw hslashes]
    refine (or_iff_right ?_).symm
    rintro ⟨body, rfl⟩
    exact hslashes (List.prefix_append ..)

/-! ## Tokens -/

/-- The shape of a pause. -/
inductive HasPauseShape : List Char → Prop
  | intro {c : Char} {rest : List Char} (hletter : c = 'P' ∨ c = 'p') (hrest : IsTail rest) :
      HasPauseShape (c :: rest)

/-- The shape of a note: a letter, a sharp sign or none, an octave or none, and a tail. -/
inductive HasNoteShape : List Char → Prop
  | intro {c : Char} (sharp : Bool) {octave : Option (Bool × List Char)} {rest : List Char}
      (hletter : (Letter.ofChar? c).isSome) (hoctave : HasDigits octave) (hrest : IsTail rest) :
      HasNoteShape (c :: ((if sharp then ['#'] else []) ++ (spellOctave octave ++ rest)))

theorem isSome_pause?_iff : (pause? cs).isSome ↔ HasPauseShape cs := by
  constructor
  · intro h
    obtain ⟨stated, hpause⟩ := Option.isSome_iff_exists.mp h
    obtain ⟨c, rest, hletter, hduration, rfl⟩ := pause?_eq_some_iff.mp hpause
    exact .intro hletter (isSome_durationText?_iff.mp (Option.isSome_of_eq_some hduration))
  · rintro ⟨hletter, hrest⟩
    obtain ⟨stated, hduration⟩ := Option.isSome_iff_exists.mp (isSome_durationText?_iff.mpr hrest)
    exact Option.isSome_iff_exists.mpr
      ⟨stated, pause?_eq_some_iff.mpr ⟨_, _, hletter, hduration, rfl⟩⟩

theorem isSome_note?_iff : (note? cs).isSome ↔ HasNoteShape cs := by
  constructor
  · intro h
    obtain ⟨parts, hnote⟩ := Option.isSome_iff_exists.mp h
    obtain ⟨hdigits, c, rest, hletter, hduration, rfl⟩ := note?_eq_some_iff.mp hnote
    exact .intro parts.sharp (Option.isSome_of_eq_some hletter) hdigits
      (isSome_durationText?_iff.mp (Option.isSome_of_eq_some hduration))
  · rintro ⟨sharp, hletter, hoctave, hrest⟩
    obtain ⟨letter, hletter⟩ := Option.isSome_iff_exists.mp hletter
    obtain ⟨duration, hduration⟩ := Option.isSome_iff_exists.mp (isSome_durationText?_iff.mpr hrest)
    exact Option.isSome_iff_exists.mpr
      ⟨⟨letter, sharp, _, duration⟩, note?_eq_some_iff.mpr ⟨hoctave, _, _, hletter, hduration, rfl⟩⟩

/-- What a token is read as: a comment by its slice, a pause or a note by the shape of its text, and
anything else as something unreadable, which has the slice in its flaw. -/
structure Sorts (token : Token) (e : Event) : Prop where
  comment : e.isComment ↔ IsEnclosed token.raw ∨ IsDisguised token.raw
  pause : e.content = .pause ↔ HasPauseShape token.text
  note : e.isNote ↔ HasNoteShape token.text
  unreadable : ¬ e.isComment → ¬ HasPauseShape token.text → ¬ HasNoteShape token.text →
    e.content = .unreadable ∧ e.flaw = some ⟨.unreadable, token.raw⟩ ∧ e.raw = token.raw

/-- The event of one token, by the case that its text is read in. -/
theorem sorts_of_eventOf (h : eventOf token time = .ok e) (htext : token.text = compact token.raw)
    (hraw : ∀ c ∈ token.raw.head?, isBlank c = false) : Sorts token e := by
  have hcomment : IsEnclosed token.raw ∨ IsDisguised token.raw ↔ isCommentText token.text = true := by
    rw [isCommentText_iff, htext, isEnclosed_compact_iff hraw]
  have hkind : (e.isComment ↔ isCommentText token.text = true) ∧
      (e.content = .pause ↔ (pause? token.text).isSome) ∧ (e.isNote ↔ (note? token.text).isSome) ∧
      (¬ e.isComment → ¬ (pause? token.text).isSome → ¬ (note? token.text).isSome →
        e.content = .unreadable ∧ e.flaw = some ⟨.unreadable, token.raw⟩ ∧ e.raw = token.raw) := by
    rcases eventOf_eq_cases h with ⟨htrue, rfl⟩ | ⟨stated, hpause, rfl⟩ | ⟨parts, n, hnote, -, rfl⟩ |
      ⟨hfalse, hpause, hnote, rfl⟩
    · obtain ⟨hpause, hnote⟩ := not_pause_of_comment htrue
      simp [htrue, hpause, hnote, Event.isComment, Event.isNote]
    · obtain ⟨hfalse, hnote⟩ := not_comment_of_pause? hpause
      simp [hfalse, hpause, hnote, placed, Event.isComment, Event.isNote]
    · obtain ⟨hfalse, hpause⟩ := not_comment_of_note? hnote
      simp [hfalse, hpause, hnote, placed, Event.isComment, Event.isNote]
    · simp [hfalse, hpause, hnote, placed, Event.isComment, Event.isNote]
  rw [isSome_pause?_iff, isSome_note?_iff, ← hcomment] at hkind
  exact ⟨hkind.1, hkind.2.1, hkind.2.2.1, hkind.2.2.2⟩

/-! ## Scores -/

/-- Tokens begin with no white space. -/
theorem Begins.isBlank_head? {fresh : Bool} (h : Begins fresh cs) : ∀ c ∈ cs.head?, isBlank c = false := by
  rintro c hc
  cases h with
  | starter h =>
    obtain rfl := Option.some.inj hc
    by_contra hblank
    rw [not_isStarter_of_isBlank (Bool.not_eq_false _ ▸ hblank)] at h
    cases h
  | comment =>
    obtain rfl : '/' = c := Option.some.inj hc
    exact not_isBlank_slash
  | stray _ h =>
    obtain rfl := Option.some.inj hc
    exact h

theorem Tiles.isBlank_head? {fresh : Bool} {pos : ℕ} {ts : List Token} (h : Tiles fresh pos cs ts) :
    ∀ token ∈ ts, ∀ c ∈ token.raw.head?, isBlank c = false := by
  induction h with
  | blank => exact fun token htoken => absurd htoken List.not_mem_nil
  | token _ _ _ hbegins _ _ ih => exact List.forall_mem_cons.mpr ⟨hbegins.isBlank_head?, ih⟩

/-- **The comments of a score**, and everything else that it is read as. A token is a comment if its slice
is enclosed in two pairs of slashes, or if it is disguised; a pause or a note if its text has the shape of
one; and otherwise it is unreadable, with the slice in its flaw. -/
theorem sorts_of_parse {m : Melody} (h : parse text = .ok m) :
    List.Forall₂ Sorts (tokens text) m.events := by
  have htiles := (isTiled 0 text).outside
  have hread := (List.forall₂_and_left _ _).mpr
    ⟨htiles.text, (List.forall₂_and_left _ _).mpr
      ⟨htiles.isBlank_head?, forall₂_eventOf (readEvents_of_parse h)⟩⟩
  apply hread.imp
  rintro token e ⟨htext, hraw, time, hevent⟩
  exact sorts_of_eventOf hevent htext hraw

/-- A comment with a note in it, a stray text, and a note. -/
theorem sorts_of_parse_remark : ∃ m, parse "/ x //c// c".toList = .ok m ∧
    List.Forall₂ Sorts (tokens "/ x //c// c".toList) m.events := by
  obtain ⟨m, hparse⟩ : ∃ m, parse "/ x //c// c".toList = .ok m := ⟨⟨_, _⟩, rfl⟩
  exact ⟨m, hparse, sorts_of_parse hparse⟩

/-- Four slashes with white space between them are a comment. -/
theorem not_sorts_of_parse : ¬ ∀ (text : List Char) (m : Melody), parse text = .ok m →
    List.Forall₂ (fun token e => (e.isComment ↔ IsEnclosed token.raw) ∧
      (¬ IsEnclosed token.raw → ¬ HasPauseShape token.text → ¬ HasNoteShape token.text →
        e.content = .unreadable ∧ e.flaw = some ⟨.unreadable, token.raw⟩)) (tokens text) m.events := by
  intro h
  obtain ⟨m, hparse, e, hevents, hcomment⟩ : ∃ m, parse "/ / / /".toList = .ok m ∧
      ∃ e, m.events = [e] ∧ e.isComment := by
    refine ⟨⟨_, _⟩, rfl, _, rfl, ?_⟩
    decide +kernel
  have htokens : tokens "/ / / /".toList = [⟨"////".toList, "/ / / /".toList, 0, 7⟩] := by decide
  have hsorts := h _ m hparse
  rw [htokens, hevents, List.forall₂_cons] at hsorts
  obtain ⟨body, hbody⟩ := hsorts.1.1.mp hcomment
  cases hbody

end Monody.Melody
