import Mathlib.Data.List.Forall2
import Monody.Proofs.Melody.Events

/-!
# Scores that read back

A score without flaws is written, and what is written is read as the same events at the same times,
with the same comments. The events alone decide what is written, so writing them again gives the
same score.

## Main definitions

* `Event.Agrees` — events that say the same at the same time
* `IsRewriting` — a way to write events one by one, and what is read from that

## Main results

* `eventOf_written` — the event of one token is written and read back
* `eventsFrom_respelled` — what holds of single events that are written and read back holds of all
* `eventsFrom_written` — the events of any tokens are written and read back
* `parse_serialize` — a score is written and read back
-/

namespace Monody.Melody

open Binary64

attribute [local irreducible] one bound

variable {time : Binary64} {e e' : Event} {es : List Event} {token : Token} {ts : List Token}

/-- Events that say the same at the same time, and are the same comment if they are comments. -/
structure Event.Agrees (e e' : Event) : Prop where
  gist : e'.gist = e.gist
  raw : e.isComment → e'.raw = e.raw

namespace Event.Agrees

theorem content (h : Agrees e e') : e'.content = e.content :=
  congrArg (·.1) h.gist

theorem stop (h : Agrees e e') : e'.stop = e.stop :=
  congrArg (·.2.2.1) h.gist

theorem isComment (h : Agrees e e') : e'.isComment = e.isComment := by
  rw [Event.isComment, Event.isComment, h.content]

end Event.Agrees

/-- An event that can be written: it has no flaw, and its duration is finite. -/
structure Event.IsWritable (e : Event) : Prop where
  flaw : e.flaw = none
  finite : e.duration.isFinite

/-- Events that agree and are written alike. -/
structure Event.IsSame (e e' : Event) : Prop where
  agrees : e.Agrees e'
  format : formatEvent e' = formatEvent e

/-! ## Single events -/

/-- A pause or a note is written as one token, and whatever has the characters of that token is read as
the same pause or note, with the duration that is written after it. -/
theorem writeEvent_timed {content : Content} (hcontent : IsTimed content) {duration : Number}
    {v : List Char} (hv : writeDuration duration = .ok v) (hclosed : IsClosed v)
    {stated : Option (List Char)} (hstated : durationText? v = some stated) :
    ∃ w, IsPlainText w ∧ (∀ e : Event, e.content = content → writeEvent e duration = .ok w) ∧
      ∀ (token : Token) (time : Binary64), token.text = w →
        ∃ cause, eventOf token time =
          .ok (placed token time content (resolveDuration? stated) (flawOfDuration cause stated)) := by
  cases hcontent with
  | pause =>
    refine ⟨'P' :: v, isPlainText_pauseText hclosed, fun e he => ?_,
      fun token time htext => ⟨.pauseDuration, eventOf_pause hstated htext⟩⟩
    simp only [writeEvent, he, writePause, hv]
    rfl
  | @note letter sharp octave hlow hhigh =>
    refine ⟨noteText letter sharp octave ++ v, isPlainText_noteText letter sharp hlow hclosed,
      fun e he => ?_,
      fun token time htext => ⟨.duration, eventOf_note letter sharp hlow hhigh hstated htext⟩⟩
    simp only [writeEvent, he, writeNote, hv]
    rfl

/-- A pause or a note of a finite positive duration is written the same wherever it stands, as one
token, and that token is read as it. -/
theorem formatEvent_placed {content : Content} (hcontent : IsTimed content) {n : ℕ} (hpos : 0 < n)
    (hn : Fits n) :
    ∃ w, IsPlainText w ∧ ∀ (token : Token) (time : Binary64),
      formatEvent (placed token time content (some (finite false n hn)) none) = .ok w ∧
      (token.text = w →
        eventOf token time = .ok (placed token time content (some (finite false n hn)) none)) := by
  obtain ⟨v, hv, htext⟩ := writeDuration_ok hpos hn
  obtain ⟨stated, hstated, hresolve⟩ := htext.resolve
  obtain ⟨w, hplain, hwrite, hread⟩ := writeEvent_timed hcontent hv htext.shape.isClosed hstated
  refine ⟨w, hplain, fun token time => ⟨?_, fun hw => ?_⟩⟩
  · exact mapError_eq_ok_iff.mpr (hwrite (placed token time content _ none) rfl)
  · obtain ⟨cause, he⟩ := hread token time hw
    rw [he, flawOfDuration, hresolve]
    rfl

/-- The event of a token is written, and whatever is read from the characters that stand for the
token has an event that agrees with it and is written the same. -/
theorem eventOf_written (h : eventOf token time = .ok e) (hwritable : e.IsWritable) :
    ∃ w, formatEvent e = .ok w ∧ IsWritten token w ∧
      ∀ new : Token, new.spelling = spellingWritten token w →
        ∃ e', eventOf new time = .ok e' ∧ e.IsSame e' := by
  rcases eventOf_cases h hwritable.flaw with ⟨hcomment, rfl⟩ |
    ⟨hcomment, hslash, content, x, stated, hcontent, hx, rfl⟩
  · refine ⟨token.raw, rfl, .inl ⟨hcomment, rfl⟩, fun new hnew => ?_⟩
    obtain ⟨htext, hraw⟩ := spelling_of_comment hcomment hnew
    refine ⟨_, if_pos (htext ▸ hcomment), ⟨rfl, fun _ => hraw⟩, ?_⟩
    exact congrArg Except.ok hraw
  · obtain ⟨n, hn, rfl, hpos⟩ := eq_finite_of_resolveDuration? hx hwritable.finite
    obtain ⟨w, hplain, hplaced⟩ := formatEvent_placed hcontent hpos hn
    refine ⟨w, (hplaced token time).1, .inr ⟨hcomment, hslash, hplain⟩, fun new hnew => ?_⟩
    have htext : new.text = w := text_of_not_comment hcomment hnew
    refine ⟨_, (hplaced new time).2 htext, ⟨rfl, fun hc => ?_⟩,
      (hplaced new time).1.trans (hplaced token time).1.symm⟩
    -- neither a pause nor a note is a comment
    cases hcontent <;> cases hc

/-! ## Whole scores -/

/-- The clock after an event, which a comment does not move. -/
def Event.clock (e : Event) (time : Binary64) : Binary64 := if e.isComment then time else e.stop

section Rewriting

variable {ε : Type} {write : Event → Except ε (List Char)} {Good : Event → Prop}
  {Together : Binary64 → Binary64 → Prop} {Related : Event → Event → Prop} {text : List Char}
  {m : Melody}

/-- A way to write events, one by one. Whatever is read from the characters that stand for the token,
at a time that goes together with that of the event, has an event that stands in a relation to it, and
the times after both go together. -/
def IsRewriting (write : Event → Except ε (List Char)) (Good : Event → Prop)
    (Together : Binary64 → Binary64 → Prop) (Related : Event → Event → Prop) : Prop :=
  ∀ {token time e}, eventOf token time = .ok e → Good e →
    ∃ w, write e = .ok w ∧ IsWritten token w ∧
      ∀ new : Token, new.spelling = spellingWritten token w → ∀ time', Together time time' →
        ∃ e', eventOf new time' = .ok e' ∧ Related e e' ∧ Together (e.clock time) (e'.clock time')

/-- The events of tokens are written, one by one, and whatever is read from the characters that stand
for the tokens has events that stand in the relation to them. -/
theorem eventsFrom_respelled (hwrite : IsRewriting write Good Together Related)
    (h : eventsFrom time ts = .ok es) (hgood : ∀ e ∈ es, Good e) :
    ∃ ws, es.mapM write = .ok ws ∧ List.Forall₂ IsWritten ts ws ∧
      ∀ news : List Token, news.map (·.spelling) = List.zipWith spellingWritten ts ws →
        ∀ time', Together time time' →
          ∃ es', eventsFrom time' news = .ok es' ∧ List.Forall₂ Related es es' := by
  -- the times before an event go together, and those after it do so by what is known of the event
  induction ts generalizing time es with
  | nil =>
    obtain rfl := Except.ok.inj h
    refine ⟨[], rfl, .nil, fun news hnews time' _ => ?_⟩
    obtain rfl := List.map_eq_nil_iff.mp hnews
    exact ⟨[], rfl, .nil⟩
  | cons token ts ih =>
    obtain ⟨e, he, h⟩ := exists_of_bind_eq_ok h
    obtain ⟨rest, hrest, h⟩ := exists_of_bind_eq_ok h
    obtain rfl := Except.ok.inj h
    obtain ⟨hegood, hgood⟩ := List.forall_mem_cons.mp hgood
    obtain ⟨w, hw, hwritten, hread⟩ := hwrite he hegood
    obtain ⟨ws, hws, hwrittens, hreads⟩ := ih hrest hgood
    refine ⟨w :: ws, ?_, .cons hwritten hwrittens, fun news hnews time' htime => ?_⟩
    · rw [List.mapM_cons, hw, ok_bind, hws]
      rfl
    · cases news with
      | nil => cases hnews
      | cons new news =>
        obtain ⟨hnew, hnews⟩ := List.cons.inj hnews
        obtain ⟨e', he', hrelated, htime'⟩ := hread new hnew time' htime
        obtain ⟨es', hes', hrelateds⟩ := hreads news hnews _ htime'
        refine ⟨e' :: es', ?_, .cons hrelated hrelateds⟩
        rw [Event.clock] at hes'
        rw [eventsFrom, he', ok_bind, hes']
        rfl

/-- A score whose events are written one by one is read from what is written, and its events stand in
the relation to those they were written from. -/
theorem parse_respelled (hwrite : IsRewriting write Good Together Related) (hstart : Together 0 0)
    (hparse : parse text = .ok m) (hgood : ∀ e ∈ m.events, Good e) :
    ∃ ws m', m.events.mapM write = .ok ws ∧ parse (joinTokens ws) = .ok m' ∧
      List.Forall₂ Related m.events m'.events := by
  obtain ⟨ws, hwrites, hwritten, hreads⟩ :=
    eventsFrom_respelled hwrite (readEvents_of_parse hparse) hgood
  -- the tokens of the score are found again in what is written
  obtain ⟨es', hes', hrelated⟩ :=
    hreads _ (spelling_scan_joinTokens (readable_tokens text) hwritten (.inl rfl)) 0 hstart
  exact ⟨ws, ⟨joinTokens ws, es'⟩, hwrites, congrArg (Except.map _) hes', hrelated⟩

/-- Events that stop the clock alike are read at the same times in both scores. -/
theorem isRewriting_eq
    (hclock : ∀ {e e'}, Related e e' → e'.isComment = e.isComment ∧ e'.stop = e.stop)
    (hsingle : ∀ {token time e}, eventOf token time = .ok e → Good e →
      ∃ w, write e = .ok w ∧ IsWritten token w ∧
        ∀ new : Token, new.spelling = spellingWritten token w →
          ∃ e', eventOf new time = .ok e' ∧ Related e e') :
    IsRewriting write Good Eq Related := by
  intro token time e he hgood
  obtain ⟨w, hw, hwritten, hread⟩ := hsingle he hgood
  refine ⟨w, hw, hwritten, fun new hnew time' htime => ?_⟩
  subst htime
  obtain ⟨e', he', hrelated⟩ := hread new hnew
  refine ⟨e', he', hrelated, ?_⟩
  rw [Event.clock, Event.clock, (hclock hrelated).1, (hclock hrelated).2]

/-- The same for events that stop the clock alike. -/
theorem parse_rewritten
    (hclock : ∀ {e e'}, Related e e' → e'.isComment = e.isComment ∧ e'.stop = e.stop)
    (hsingle : ∀ {token time e}, eventOf token time = .ok e → Good e →
      ∃ w, write e = .ok w ∧ IsWritten token w ∧
        ∀ new : Token, new.spelling = spellingWritten token w →
          ∃ e', eventOf new time = .ok e' ∧ Related e e')
    (hparse : parse text = .ok m) (hgood : ∀ e ∈ m.events, Good e) :
    ∃ ws m', m.events.mapM write = .ok ws ∧ parse (joinTokens ws) = .ok m' ∧
      List.Forall₂ Related m.events m'.events :=
  parse_respelled (isRewriting_eq hclock hsingle) rfl hparse hgood

end Rewriting

/-- Events that are written alike, one by one, are written alike. -/
theorem mapM_eq_of_forall₂ {ε : Type} {f g : Event → Except ε (List Char)} {es es' : List Event}
    (h : List.Forall₂ (fun e e' => g e' = f e) es es') : es'.mapM g = es.mapM f := by
  induction h with
  | nil => rfl
  | cons hwrite _ ih => rw [List.mapM_cons, List.mapM_cons, hwrite, ih]

/-- The events of tokens are written, and whatever is read from the characters that stand for the
tokens has events that agree with them and are written the same. -/
theorem eventsFrom_written (h : eventsFrom time ts = .ok es) (hsound : ∀ e ∈ es, e.flaw = none)
    (hfinite : ∀ e ∈ es, e.duration.isFinite) :
    ∃ ws, es.mapM formatEvent = .ok ws ∧ List.Forall₂ IsWritten ts ws ∧
      ∀ news : List Token, news.map (·.spelling) = List.zipWith spellingWritten ts ws →
        ∃ es', eventsFrom time news = .ok es' ∧ List.Forall₂ Event.Agrees es es' ∧
          es'.mapM formatEvent = .ok ws := by
  obtain ⟨ws, hformat, hwritten, hreads⟩ := eventsFrom_respelled
    (isRewriting_eq (fun hsame => ⟨hsame.agrees.isComment, hsame.agrees.stop⟩) eventOf_written) h
    fun e he => ⟨hsound e he, hfinite e he⟩
  refine ⟨ws, hformat, hwritten, fun news hnews => ?_⟩
  obtain ⟨es', hes', hsame⟩ := hreads news hnews time rfl
  exact ⟨es', hes', hsame.imp fun _ _ h => h.agrees,
    (mapM_eq_of_forall₂ (hsame.imp fun _ _ h => h.format)).trans hformat⟩

theorem map_gist_of_agrees {es es' : List Event} (h : List.Forall₂ Event.Agrees es es') :
    es'.map (·.gist) = es.map (·.gist) := by
  induction h with
  | nil => rfl
  | cons hagrees _ ih => rw [List.map_cons, List.map_cons, hagrees.gist, ih]

theorem comments_of_agrees {es es' : List Event} (h : List.Forall₂ Event.Agrees es es') :
    (es'.filter (·.isComment)).map (·.raw) = (es.filter (·.isComment)).map (·.raw) := by
  induction h with
  | nil => rfl
  | @cons e e' es es' hagrees _ ih =>
    cases hcomment : e.isComment with
    | true => simp [hagrees.isComment, hcomment, hagrees.raw hcomment, ih]
    | false => simp [hagrees.isComment, hcomment, ih]

theorem isFlawed_eq_false_iff {m : Melody} : m.isFlawed = false ↔ ∀ e ∈ m.events, e.flaw = none := by
  simp [isFlawed, Option.isSome_iff_ne_none]

/-- A score without flaws whose durations are finite is written. What is written is read as the same
events, with the same comments, and writing those gives it again. -/
theorem parse_serialize {text : List Char} {m : Melody} (hparse : parse text = .ok m)
    (hsound : m.isFlawed = false) (hfinite : ∀ e ∈ m.events, e.duration.isFinite) :
    ∃ written m', serialize m.events = .ok written ∧ parse written = .ok m' ∧
      m'.events.map (·.gist) = m.events.map (·.gist) ∧
      (m'.events.filter (·.isComment)).map (·.raw) = (m.events.filter (·.isComment)).map (·.raw) ∧
      serialize m'.events = .ok written := by
  have hes := readEvents_of_parse hparse
  obtain ⟨ws, hformat, hwritten, hreads⟩ :=
    eventsFrom_written hes (isFlawed_eq_false_iff.mp hsound) hfinite
  -- the tokens of the score are found again in what is written
  have hspelling : (tokens (joinTokens ws)).map (·.spelling) = List.zipWith spellingWritten (tokens text) ws :=
    spelling_scan_joinTokens (readable_tokens text) hwritten (.inl rfl)
  obtain ⟨es', hes', hagree, hformat'⟩ := hreads _ hspelling
  have hserialize {es : List Event} (h : es.mapM formatEvent = .ok ws) :
      serialize es = .ok (joinTokens ws) := by
    rw [serialize, h]
    rfl
  refine ⟨joinTokens ws, ⟨joinTokens ws, es'⟩, hserialize hformat, ?_, map_gist_of_agrees hagree,
    comments_of_agrees hagree, hserialize hformat'⟩
  rw [parse, readEvents, hes']
  rfl

/-- A comment with slashes in it, a note that states everything, a pause, and a fraction. -/
theorem parse_serialize_song :
    ∃ m written m', parse "//x/ (// c#5(250) p\nd(2.50)".toList = .ok m ∧
      serialize m.events = .ok written ∧ parse written = .ok m' ∧
      m'.events.map (·.gist) = m.events.map (·.gist) ∧
      (m'.events.filter (·.isComment)).map (·.raw) = (m.events.filter (·.isComment)).map (·.raw) ∧
      serialize m'.events = .ok written := by
  obtain ⟨m, hparse, hsound, hfinite⟩ : ∃ m, parse "//x/ (// c#5(250) p\nd(2.50)".toList = .ok m ∧
      m.isFlawed = false ∧ ∀ e ∈ m.events, e.duration.isFinite := by
    refine ⟨⟨_, _⟩, rfl, ?_, ?_⟩ <;> decide +kernel
  obtain ⟨written, m', hread⟩ := parse_serialize hparse hsound hfinite
  exact ⟨m, written, m', hparse, hread⟩

end Monody.Melody
