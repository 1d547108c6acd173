import Monody.Proofs.Melody.Gapless
import Monody.Proofs.Melody.Slices

/-!
# Scores put together

Where no parenthesis and no comment is open at the end of one score, and another begins with a token that
can start there, the two are read one after the other: the tokens and the events of the first are those it
has alone, and those of the second are only moved, by the length of the first and to the time at which it
ends. So nothing that is wrong in one part changes how the other is read.

## Main definitions

* `IsSeam` — where two scores can be put together
* `Token.shift`, `Event.moved` — a token further on, and an event at another time and place

## Main results

* `advance_congr` — only a slash looks at what comes next
* `scan_shift` — a score is read alike at any offset
* `eventOf_shift` — a token is read alike at any time and place
* `parse_append` — two scores at a seam are read one after the other
-/

namespace Monody.Melody

open Binary64

-- evaluated, the numbers of units are too long to be looked at
attribute [local irreducible] one bound

variable {k pos : ℕ} {c : Char} {a b cs : List Char} {next next' : Option Char}
  {t : Option OpenToken} {u : OpenToken} {token : Token} {ts us : List Token} {time time' : Binary64}
  {e : Event} {es : List Event}

/-- No parenthesis and no comment is open at the end of a score. -/
def EndsPlain (a : List Char) : Prop := ∀ u ∈ (advance 0 none none a).2, u.mode = .plain

instance (a : List Char) : Decidable (EndsPlain a) :=
  inferInstanceAs (Decidable (∀ u ∈ (advance 0 none none a).2, u.mode = .plain))

/-- Where two scores can be put together: nothing that hides a token is open, and the second score begins
with a starter, or with two slashes that make none with a slash before them. -/
structure IsSeam (a b : List Char) : Prop where
  plain : EndsPlain a
  begins : (∃ c ∈ b.head?, isStarter c = true) ∨ (slashes <+: b ∧ a.getLast? ≠ some '/')

/-! ## The end of the first score -/

/-- Only a slash looks at what comes next. -/
theorem step_congr (h : c = '/' → (next = some '/' ↔ next' = some '/')) :
    step pos t c next = step pos t c next' := by
  have hslash : (c = '/' ∧ next = some '/') = (c = '/' ∧ next' = some '/') :=
    propext (and_congr_right h)
  have hplain (t : Option OpenToken) : stepPlain pos t c next = stepPlain pos t c next' := by
    simp only [stepPlain.eq_def, hslash]
  rw [step.eq_def, step.eq_def]
  simp only [hplain, hslash]

/-- What comes after some characters makes no difference to them, unless the last of them is a slash. -/
theorem advance_congr (h : cs.getLast? = some '/' → (next = some '/' ↔ next' = some '/')) :
    advance pos t next cs = advance pos t next' cs := by
  induction cs generalizing pos t with
  | nil => rfl
  | cons c cs ih =>
    have hlast : cs.getLast? = some '/' → (next = some '/' ↔ next' = some '/') := fun hcs =>
      h (by rw [List.getLast?_cons, hcs]; rfl)
    have hstep : step pos t c (cs.head?.or next) = step pos t c (cs.head?.or next') := by
      refine step_congr fun hc => ?_
      cases cs with
      | nil => exact h (congrArg some hc)
      | cons d cs => exact Iff.rfl
    simp only [advance, hstep, ih hlast]

namespace IsSeam

theorem advance_eq (h : IsSeam a b) : advance 0 none b.head? a = advance 0 none none a := by
  refine advance_congr fun hlast => ?_
  rcases h.begins with ⟨c, hc, hstarter⟩ | ⟨-, hslash⟩
  · refine iff_of_false (fun hnext => ?_) nofun
    obtain rfl : c = '/' := Option.some.inj (hc.symm.trans hnext)
    exact absurd hstarter (by decide)
  · exact absurd hlast hslash

/-- Nothing of the first score is left open when the second is read. -/
theorem scan_eq (h : IsSeam a b) (ht : ∀ u ∈ t, u.mode = .plain) :
    scan pos t b = flush t ++ scan pos none b := by
  have hreceives : Receives false t := by
    cases t with
    | none => exact .inl rfl
    | some u => exact .of_plain (ht u rfl)
  have hstart : ∃ c cs u, b = c :: cs ∧ ∀ t, stepPlain pos t c cs.head? = (flush t, some u) := by
    rcases h.begins with ⟨c, hc, hstarter⟩ | ⟨⟨cs, rfl⟩, -⟩
    · obtain ⟨cs, rfl⟩ := List.head?_eq_some_iff.mp hc
      exact ⟨c, cs, _, rfl, fun t => stepPlain_of_isStarter hstarter⟩
    · exact ⟨'/', '/' :: cs, _, rfl, fun t => stepPlain_slash⟩
  obtain ⟨c, cs, u, rfl, hstep⟩ := hstart
  have hfresh : Receives false none := .inl rfl
  simp only [scan, hreceives.step, hfresh.step, hstep]
  rfl

end IsSeam

/-! ## The start of the second score -/

/-- The token further on. -/
def Token.shift (k : ℕ) (token : Token) : Token :=
  { token with start := token.start + k, stop := token.stop + k }

/-- The open token further on. -/
def OpenToken.shift (k : ℕ) (u : OpenToken) : OpenToken := { u with start := u.start + k }

theorem OpenToken.close_shift : (u.shift k).close = u.close.shift k := by
  rw [OpenToken.close, OpenToken.close, OpenToken.shift, Token.shift, Nat.add_right_comm]

theorem flush_shift : flush (t.map (·.shift k)) = (flush t).map (·.shift k) := by
  cases t with
  | none => rfl
  | some u => exact congrArg ([·]) OpenToken.close_shift

theorem stepPlain_shift : stepPlain (pos + k) (t.map (·.shift k)) c next =
    ((stepPlain pos t c next).1.map (·.shift k), (stepPlain pos t c next).2.map (·.shift k)) := by
  rw [stepPlain.eq_def, stepPlain.eq_def]
  split
  · rw [flush_shift]
    rfl
  split
  · rw [flush_shift]
    rfl
  split <;> cases t <;> rfl

theorem step_shift : step (pos + k) (t.map (·.shift k)) c next =
    ((step pos t c next).1.map (·.shift k), (step pos t c next).2.map (·.shift k)) := by
  cases t with
  | none => exact @stepPlain_shift k pos c next none
  | some u =>
    have hplain := @stepPlain_shift k pos c next (some u)
    have hclose := @OpenToken.close_shift k (u.push .plain c)
    obtain ⟨start, mode, text, raw, gap⟩ := u
    cases mode with
    | plain => exact hplain
    | closing => exact Prod.ext (congrArg ([·]) hclose) rfl
    | parenthesis | opening | comment => rfl

/-- A score is read alike at any offset. -/
theorem scan_shift : scan (pos + k) (t.map (·.shift k)) cs = (scan pos t cs).map (·.shift k) := by
  induction cs generalizing pos t with
  | nil => exact flush_shift
  | cons c cs ih =>
    simp only [scan, step_shift, Nat.add_right_comm pos k 1, ih, List.map_append]

/-- The tokens of two scores at a seam. -/
theorem tokens_append (h : IsSeam a b) :
    tokens (a ++ b) = tokens a ++ (tokens b).map (·.shift a.length) := by
  have hfirst : tokens a = (advance 0 none none a).1 ++ flush (advance 0 none none a).2 := by
    have hscan := @scan_append 0 none a []
    rw [List.append_nil] at hscan
    exact hscan
  have hsecond : scan (0 + a.length) none b = (tokens b).map (·.shift a.length) :=
    @scan_shift a.length 0 b none
  rw [tokens, scan_append, h.advance_eq, h.scan_eq h.plain, hsecond, hfirst, List.append_assoc]

/-! ## Events -/

/-- The event of a token further on, at another time. -/
def Event.moved (k : ℕ) (time : Binary64) (e : Event) : Event :=
  { e with
    start := time
    stop := if e.isComment then time else time + e.duration
    span := (e.span.1 + k, e.span.2 + k) }

/-- A token is read alike at any time and place. -/
theorem eventOf_shift :
    eventOf (token.shift k) time' = (eventOf token time).map (·.moved k time') := by
  have htext : (token.shift k).text = token.text := rfl
  rw [eventOf, eventOf, htext]
  split
  · rfl
  · cases pause? token.text with
    | some stated => rfl
    | none =>
      cases note? token.text with
      | none => rfl
      | some parts =>
        dsimp only
        cases resolveOctave parts.octave <;> rfl

/-- The events of tokens after others start where those leave the clock. -/
theorem eventsFrom_append (h : eventsFrom time ts = .ok es) :
    eventsFrom time (ts ++ us) = (eventsFrom (clockFrom time es) us).map (es ++ ·) := by
  induction ts generalizing time es with
  | nil =>
    obtain rfl := Except.ok.inj h
    have hclock : clockFrom time [] = time := rfl
    rw [hclock, List.nil_append]
    cases eventsFrom time us <;> rfl
  | cons token ts ih =>
    obtain ⟨e, he, h⟩ := exists_of_bind_eq_ok h
    obtain ⟨rest, hrest, h⟩ := exists_of_bind_eq_ok h
    obtain rfl := Except.ok.inj h
    rw [List.cons_append, eventsFrom, he, ok_bind, ih hrest, clockFrom_cons]
    cases eventsFrom (clockFrom (if e.isComment then time else e.stop) rest) us <;> rfl

/-- The same event at another time, in a slice of the same score with something in front. -/
structure Event.IsMoved (k : ℕ) (e e' : Event) : Prop where
  content : e'.content = e.content
  duration : e'.duration = e.duration
  flaw : e'.flaw = e.flaw
  raw : e'.raw = e.raw
  span : e'.span = (e.span.1 + k, e.span.2 + k)

/-- Tokens further on are read alike, from any time on. -/
theorem eventsFrom_shift (h : eventsFrom time ts = .ok es) :
    ∃ es', eventsFrom time' (ts.map (·.shift k)) = .ok es' ∧ List.Forall₂ (Event.IsMoved k) es es' ∧
      ∀ e ∈ es'.head?, e.start = time' := by
  induction ts generalizing time time' es with
  | nil =>
    obtain rfl := Except.ok.inj h
    exact ⟨[], rfl, .nil, fun e he => absurd he (Option.not_mem_none e)⟩
  | cons token ts ih =>
    obtain ⟨e, he, h⟩ := exists_of_bind_eq_ok h
    obtain ⟨rest, hrest, h⟩ := exists_of_bind_eq_ok h
    obtain rfl := Except.ok.inj h
    have he' : eventOf (token.shift k) time' = .ok (e.moved k time') := by
      rw [@eventOf_shift k token time time', he]
      rfl
    obtain ⟨rest', hrest', hmoved, -⟩ := ih hrest
    refine ⟨e.moved k time' :: rest', ?_, .cons ⟨rfl, rfl, rfl, rfl, rfl⟩ hmoved, ?_⟩
    · rw [List.map_cons, eventsFrom, he', ok_bind, hrest']
      rfl
    · exact fun e' he' => Option.some.inj he' ▸ rfl

/-- **Two scores at a seam are read one after the other.** The tokens of the first are those it has
alone, and those of the second are moved by its length. So are the events, and those of the second start
where the first has ended; what they stand for, and what is wrong with them, stays the same. -/
theorem parse_append (h : IsSeam a b) :
    tokens (a ++ b) = tokens a ++ (tokens b).map (·.shift a.length) ∧
    ∀ m n, parse a = .ok m → parse b = .ok n →
      ∃ p later, parse (a ++ b) = .ok p ∧ p.events = m.events ++ later ∧
        List.Forall₂ (Event.IsMoved a.length) n.events later ∧
        ∀ e ∈ later.head?, e.start = m.total := by
  refine ⟨tokens_append h, fun m n hm hn => ?_⟩
  obtain ⟨later, hlater, hmoved, hstart⟩ :=
    @eventsFrom_shift a.length (tokens b) 0 (clock m.events) n.events (readEvents_of_parse hn)
  refine ⟨⟨a ++ b, m.events ++ later⟩, later, ?_, rfl, hmoved, fun e he => ?_⟩
  · have hread : readEvents (a ++ b) = .ok (m.events ++ later) := by
      rw [readEvents, tokens_append h, eventsFrom_append (readEvents_of_parse hm)]
      exact congrArg (Except.map (m.events ++ ·)) hlater
    rw [parse, hread]
    rfl
  · rw [total_eq_clock hm]
    exact hstart e he

/-- A stray token and a note in front, and after them a comment and a note whose octave is too high. -/
theorem parse_append_comment :
    IsSeam "x9 C4(5) ".toList "//x/ (// D9".toList ∧
    tokens "x9 C4(5) //x/ (// D9".toList = tokens "x9 C4(5) ".toList ++
      (tokens "//x/ (// D9".toList).map (·.shift 9) ∧
    ∃ m n p later, parse "x9 C4(5) ".toList = .ok m ∧ parse "//x/ (// D9".toList = .ok n ∧
      parse "x9 C4(5) //x/ (// D9".toList = .ok p ∧ p.events = m.events ++ later ∧
      n.events.length = 2 ∧ List.Forall₂ (Event.IsMoved 9) n.events later ∧
      ∀ e ∈ later.head?, e.start = m.total := by
  have hseam : IsSeam "x9 C4(5) ".toList "//x/ (// D9".toList :=
    ⟨by decide +kernel, .inr ⟨⟨"x/ (// D9".toList, rfl⟩, by decide⟩⟩
  obtain ⟨m, hm⟩ : ∃ m, parse "x9 C4(5) ".toList = .ok m := ⟨⟨_, _⟩, rfl⟩
  obtain ⟨n, hn, hlength⟩ : ∃ n, parse "//x/ (// D9".toList = .ok n ∧ n.events.length = 2 :=
    ⟨⟨_, _⟩, rfl, by decide +kernel⟩
  obtain ⟨htokens, hparse⟩ := parse_append hseam
  obtain ⟨p, later, hp, hevents, hmoved, hstart⟩ := hparse m n hm hn
  exact ⟨hseam, htokens, m, n, p, later, hm, hn, hp, hevents, hlength, hmoved, hstart⟩

end Monody.Melody
