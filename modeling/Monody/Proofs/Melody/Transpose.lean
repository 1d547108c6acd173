import Monody.Melody.Transform
import Monody.Proofs.Melody.RoundTrip

/-!
# Transposed scores

A transposition writes the notes of a score with rotated note numbers and leaves everything else as
it is. What it writes is read as the transposed score, so transpositions add up, and a transposition
by a multiple of 108 semitones writes the score as it is.

A shift that has too many digits to be shown is refused, although its remainder by 108 would do. So
transpositions are an action of the integers only as far as the shifts are shown: two shifts that are
may have a sum that is not.

## Main definitions

* `Event.IsNamed` — an event that can be transposed
* `Event.Transposed` — an event and what it becomes

## Main results

* `eventOf_transposed` — the event of one token is transposed and read back
* `transpose_add_cycle` — 108 semitones more or less make no difference
* `transpose_action` — transpositions act on scores as the integers modulo 108
-/

namespace Monody

namespace Melody

open Binary64

attribute [local irreducible] one bound

variable {time : Binary64} {e e' : Event} {es es' : List Event} {token : Token} {ts : List Token}
  {letter : Letter} {sharp : Bool} {octave n shift : Int} {w text : List Char} {m : Melody}

/-- An event that can be transposed: it can be written, and if it is a note, it has a number. -/
structure Event.IsNamed (e : Event) : Prop extends e.IsWritable where
  named : e.isPlayable → ∃ n, e.noteNumber? = .ok n

/-- An event and what it becomes when it is moved by semitones: the number of a note is rotated, and
the text of a comment stays. -/
structure Event.Transposed (shift : Int) (e e' : Event) : Prop where
  kind : e'.content.kind = e.content.kind
  start : e'.start = e.start
  stop : e'.stop = e.stop
  duration : e'.duration = e.duration
  flaw : e'.flaw = e.flaw
  raw : e.isComment → e'.raw = e.raw
  number : ∀ n, e.noteNumber? = .ok (some n) →
    e'.noteNumber? = .ok (some (12 + (n - 12 + shift) % 108))

/-- The token of an event moved by semitones, with a given duration. -/
def writeMoved (shift : Int) (e : Event) (duration : Number) : Except TransformFault (List Char) :=
  match e.content with
  | .note letter sharp octave => do
    let (name, octave) ← (Pitch.transpose (Pitch.nameOf letter sharp) octave shift).mapError .pitch
    (writeNote name octave duration).mapError .number
  | _ => (writeEvent e duration).mapError .number

/-- An event and what it becomes, which is then transposed as the event is by both shifts, and is
written with any duration as the event is when it is moved. -/
structure Event.Follows (shift : Int) (e e' : Event) : Prop extends e.Transposed shift e' where
  again : ∀ next, transposeEvent next e' = transposeEvent (shift + next) e
  timed : IsTimed e.content → IsTimed e'.content
  writes : ∀ duration, (writeEvent e' duration).mapError .number = writeMoved shift e duration

theorem isComment_eq_of_kind (h : e'.content.kind = e.content.kind) : e'.isComment = e.isComment := by
  have hkind (e : Event) : e.isComment = (e.content.kind == "comment") := by
    rw [Event.isComment]
    cases e.content <;> rfl
  rw [hkind, hkind, h]

/-! ## Single events -/

/-- A note that has a number is written with the pitch of the rotated number. -/
theorem writeMoved_note (hcontent : e.content = .note letter sharp octave)
    (hnumber : Pitch.noteNumber (Pitch.nameOf letter sharp) octave = .ok n) (shift : Int)
    (duration : Number) :
    writeMoved shift e duration =
      (writeNote (Pitch.ofNoteNumber (Pitch.rotated n shift)).1
        (Pitch.ofNoteNumber (Pitch.rotated n shift)).2 duration).mapError .number := by
  simp only [writeMoved, hcontent, Pitch.transpose_eq hnumber shift, mapError_ok, ok_bind]

theorem transposeEvent_eq (shift : Int) (e : Event) :
    transposeEvent shift e = writeMoved shift e (.ofReal e.duration) := rfl

theorem transposeEvent_note (hcontent : e.content = .note letter sharp octave)
    (hnumber : Pitch.noteNumber (Pitch.nameOf letter sharp) octave = .ok n) (shift : Int) :
    transposeEvent shift e =
      (writeNote (Pitch.ofNoteNumber (Pitch.rotated n shift)).1
        (Pitch.ofNoteNumber (Pitch.rotated n shift)).2 (.ofReal e.duration)).mapError .number :=
  writeMoved_note hcontent hnumber shift _

/-- The event of a token is transposed and written, and whatever is read from the characters that
stand for the token has the event that it becomes. -/
theorem eventOf_transposed (shift : Int) (h : eventOf token time = .ok e) (hnamed : e.IsNamed) :
    ∃ w, transposeEvent shift e = .ok w ∧ IsWritten token w ∧
      ∀ new : Token, new.spelling = spellingWritten token w →
        ∃ e', eventOf new time = .ok e' ∧ e.Follows shift e' := by
  rcases eventOf_cases h hnamed.flaw with ⟨hcomment, rfl⟩ |
    ⟨hcomment, hslash, content, x, stated, hcontent, hx, rfl⟩
  · -- a comment passes through
    refine ⟨token.raw, rfl, .inl ⟨hcomment, rfl⟩, fun new hnew => ?_⟩
    obtain ⟨htext, hraw⟩ := spelling_of_comment hcomment hnew
    refine ⟨_, if_pos (htext ▸ hcomment), ⟨rfl, rfl, rfl, rfl, rfl, fun _ => hraw, ?_⟩,
      fun next => congrArg Except.ok hraw, nofun, fun duration => congrArg Except.ok hraw⟩
    intro n hn
    cases hn
  obtain ⟨k, hk, rfl, hpos⟩ := eq_finite_of_resolveDuration? hx hnamed.finite
  cases hcontent with
  | pause =>
    obtain ⟨w, hplain, hplaced⟩ := formatEvent_placed .pause hpos hk
    refine ⟨w, ?_, .inr ⟨hcomment, hslash, hplain⟩, fun new hnew => ?_⟩
    · exact mapError_eq_ok_iff.mpr (mapError_eq_ok_iff.mp (hplaced token time).1)
    have htext : new.text = w := text_of_not_comment hcomment hnew
    refine ⟨_, (hplaced new time).2 htext, ⟨rfl, rfl, rfl, rfl, rfl, ?_, ?_⟩, fun next => rfl,
      id, fun duration => rfl⟩
    · intro hc
      cases hc
    · intro n hn
      cases hn
  | @note letter sharp octave hlow hhigh =>
    obtain ⟨number, hnumber⟩ := hnamed.named rfl
    obtain ⟨n, hn, rfl⟩ := exists_noteNumber rfl rfl hnumber
    -- the note that is written has a name again
    obtain ⟨letter', sharp', octave', hlow', hhigh', hname', hn'⟩ :=
      Pitch.exists_nameOf (Pitch.representable_rotated n shift)
    obtain ⟨w, hplain, hplaced⟩ := formatEvent_placed (.note letter' sharp' hlow' hhigh') hpos hk
    refine ⟨w, ?_, .inr ⟨hcomment, hslash, hplain⟩, fun new hnew => ?_⟩
    · rw [transposeEvent_note rfl hn, hname']
      exact mapError_eq_ok_iff.mpr (mapError_eq_ok_iff.mp (hplaced token time).1)
    have htext : new.text = w := text_of_not_comment hcomment hnew
    refine ⟨_, (hplaced new time).2 htext, ⟨rfl, rfl, rfl, rfl, rfl, ?_, ?_⟩, fun next => ?_,
      fun _ => .note letter' sharp' hlow' hhigh', fun duration => ?_⟩
    · intro hc
      cases hc
    · intro number hnumber'
      obtain rfl : n = number := Option.some.inj (Except.ok.inj (hnumber.symm.trans hnumber'))
      exact (noteNumber?_of_note rfl rfl).trans (congrArg (Except.map some) hn')
    · rw [transposeEvent_note rfl hn', transposeEvent_note rfl hn, Pitch.rotated_rotated]
      rfl
    · rw [writeMoved_note rfl hn, hname']
      rfl

/-- A transposition by nothing writes an event as it is. -/
theorem transposeEvent_zero (h : eventOf token time = .ok e) (hnamed : e.IsNamed)
    (hformat : formatEvent e = .ok w) : transposeEvent 0 e = .ok w := by
  have hwrite : writeEvent e (.ofReal e.duration) = .ok w := by
    rw [formatEvent, hnamed.flaw] at hformat
    exact mapError_eq_ok_iff.mp hformat
  rcases eventOf_cases h hnamed.flaw with ⟨-, rfl⟩ | ⟨-, -, content, x, stated, hcontent, hx, rfl⟩
  · exact mapError_eq_ok_iff (f := TransformFault.number).mpr hwrite
  cases hcontent with
  | pause => exact mapError_eq_ok_iff.mpr hwrite
  | @note letter sharp octave hlow hhigh =>
    obtain ⟨number, hnumber⟩ := hnamed.named rfl
    obtain ⟨n, hn, -⟩ := exists_noteNumber rfl rfl hnumber
    obtain ⟨hrange, hname⟩ := Pitch.ofNoteNumber_of_noteNumber hlow hhigh hn
    rw [transposeEvent_note rfl hn, Pitch.rotated_zero hrange, hname]
    exact mapError_eq_ok_iff.mpr hwrite

theorem transposeEvent_add_cycle (shift k : Int) (e : Event) :
    transposeEvent (shift + 108 * k) e = transposeEvent shift e := by
  simp only [transposeEvent, Pitch.transpose_add_cycle]

/-! ## Whole scores -/

theorem requireSound_eq_ok {operation : String} (h : ∀ e ∈ es, e.flaw = none) :
    requireSound operation es = .ok () := by
  have hnone : es.filterMap (·.flaw) = [] := List.filterMap_eq_nil_iff.mpr h
  rw [requireSound, hnone]

theorem transpose_eq_map (h : ∀ e ∈ es, e.flaw = none) (hshown : Text.isShown shift) :
    transpose es shift = (es.mapM (transposeEvent shift)).map joinTokens := by
  have hshow : require (Text.isShown shift) TransformFault.notShown = .ok () := if_pos hshown
  rw [transpose, requireSound_eq_ok h, hshow, ok_bind]
  rfl

/-- A shift that is not shown is refused once all events are moved. -/
theorem transpose_of_not_isShown (h : ∀ e ∈ es, e.flaw = none) (hshown : ¬ Text.isShown shift)
    (hmap : (es.mapM (transposeEvent shift)).isOk) : transpose es shift = .error .notShown := by
  obtain ⟨ws, hws⟩ := exists_ok_of_isOk hmap
  have hshow : require (Text.isShown shift) TransformFault.notShown = .error .notShown := if_neg hshown
  rw [transpose, requireSound_eq_ok h, hws, hshow]
  rfl

/-- Events without a flaw are transposed if each of them is moved and the shift is shown. -/
theorem isOk_transpose_iff_mapM (h : ∀ e ∈ es, e.flaw = none) :
    (transpose es shift).isOk ↔ Text.isShown shift ∧ (es.mapM (transposeEvent shift)).isOk := by
  by_cases hshown : Text.isShown shift
  · rw [transpose_eq_map h hshown, and_iff_right hshown]
    cases es.mapM (transposeEvent shift) <;> exact Iff.rfl
  · refine iff_of_false (fun hok => ?_) fun hok => hshown hok.1
    cases hmap : es.mapM (transposeEvent shift) with
    | error fault =>
      rw [transpose, requireSound_eq_ok h, ok_bind, hmap] at hok
      cases hok
    | ok ws =>
      rw [transpose_of_not_isShown h hshown (congrArg Except.isOk hmap)] at hok
      cases hok

/-- Shifts that differ by a multiple of 108 semitones are the same shift, as far as they are shown. -/
theorem transpose_add_cycle (es : List Event) {shift k : Int} (hshown : Text.isShown shift)
    (hcycle : Text.isShown (shift + 108 * k)) :
    transpose es (shift + 108 * k) = transpose es shift := by
  have hevent : transposeEvent (shift + 108 * k) = transposeEvent shift :=
    funext fun e => transposeEvent_add_cycle shift k e
  rw [transpose, transpose, hevent, hshown, hcycle]

/-- The events of tokens are transposed by nothing to what they are written as. -/
theorem mapM_transposeEvent_zero {ws : List (List Char)} (h : eventsFrom time ts = .ok es)
    (hnamed : ∀ e ∈ es, e.IsNamed) (hformat : es.mapM formatEvent = .ok ws) :
    es.mapM (transposeEvent 0) = .ok ws := by
  induction ts generalizing time es ws with
  | nil =>
    obtain rfl := Except.ok.inj h
    obtain rfl : [] = ws := Except.ok.inj hformat
    rfl
  | cons token ts ih =>
    obtain ⟨e, he, h⟩ := exists_of_bind_eq_ok h
    obtain ⟨rest, hrest, h⟩ := exists_of_bind_eq_ok h
    obtain rfl := Except.ok.inj h
    obtain ⟨henamed, hnamed⟩ := List.forall_mem_cons.mp hnamed
    rw [List.mapM_cons] at hformat
    obtain ⟨w, hw, hformat⟩ := exists_of_bind_eq_ok hformat
    obtain ⟨ws, hws, hformat⟩ := exists_of_bind_eq_ok hformat
    obtain rfl := Except.ok.inj hformat
    rw [List.mapM_cons, transposeEvent_zero he henamed hw, ok_bind, ih hrest hnamed hws]
    rfl

theorem sound_of_transposed (h : List.Forall₂ (Event.Transposed shift) es es')
    (hsound : ∀ e ∈ es, e.flaw = none) : ∀ e ∈ es', e.flaw = none := by
  induction h with
  | nil => exact hsound
  | cons htransposed _ ih =>
    obtain ⟨hesound, hsound⟩ := List.forall_mem_cons.mp hsound
    exact List.forall_mem_cons.mpr ⟨htransposed.flaw.trans hesound, ih hsound⟩

theorem isNamed_of_isFlawed_eq_false (hsound : m.isFlawed = false)
    (hfinite : ∀ e ∈ m.events, e.duration.isFinite)
    (hnamed : ∀ e ∈ m.notes, ∃ n, e.noteNumber? = .ok n) : ∀ e ∈ m.events, e.IsNamed := fun e he =>
  ⟨⟨isFlawed_eq_false_iff.mp hsound e he, hfinite e he⟩,
    fun hplay => hnamed e (List.mem_filter.mpr ⟨he, hplay⟩)⟩

/-- The events of a score are moved by any shift, and what is written for them is read back. -/
theorem exists_mapM_transposeEvent (hparse : parse text = .ok m) (hall : ∀ e ∈ m.events, e.IsNamed)
    (shift : Int) : ∃ ws m', m.events.mapM (transposeEvent shift) = .ok ws ∧
      parse (joinTokens ws) = .ok m' ∧ List.Forall₂ (Event.Follows shift) m.events m'.events :=
  parse_rewritten (fun h => ⟨isComment_eq_of_kind h.kind, h.stop⟩) (eventOf_transposed shift) hparse hall

/-- **Transposition is an action of the integers modulo 108, as far as shifts are shown.** A score
without flaws, with finite durations and with numbers for all its notes is transposed by every shift
that is shown. What is written is read as the score with the number of each note rotated and everything
else the same, transposing it again adds the shifts, and transposing it back gives the score as it is
written. Shifts that differ by a multiple of 108 semitones are the same, and such multiples change
nothing. A shift that is not shown is refused. -/
theorem transpose_action (hparse : parse text = .ok m) (hsound : m.isFlawed = false)
    (hfinite : ∀ e ∈ m.events, e.duration.isFinite)
    (hnamed : ∀ e ∈ m.notes, ∃ n, e.noteNumber? = .ok n) (a : Int) :
    (Text.isShown a → ∃ written m', transpose m.events a = .ok written ∧ parse written = .ok m' ∧
      m'.isFlawed = false ∧ List.Forall₂ (Event.Transposed a) m.events m'.events ∧
      (∀ b, Text.isShown b → Text.isShown (a + b) →
        ∃ again, transpose m'.events b = .ok again ∧ transpose m.events (a + b) = .ok again) ∧
      ∃ restored m'', transpose m'.events (-a) = .ok restored ∧
        serialize m.events = .ok restored ∧ parse restored = .ok m'' ∧
        List.Forall₂ Event.Agrees m.events m''.events) ∧
    (∀ k, Text.isShown a → Text.isShown (a + 108 * k) →
      transpose m.events (a + 108 * k) = transpose m.events a) ∧
    (∀ k, Text.isShown (108 * k) → ∃ written, transpose m.events (108 * k) = .ok written ∧
      serialize m.events = .ok written) ∧
    (¬ Text.isShown a → transpose m.events a = .error .notShown) := by
  have hflaw := isFlawed_eq_false_iff.mp hsound
  have hall := isNamed_of_isFlawed_eq_false hsound hfinite hnamed
  have htranspose {b : Int} {ws : List (List Char)} (hb : Text.isShown b)
      (h : m.events.mapM (transposeEvent b) = .ok ws) :
      transpose m.events b = .ok (joinTokens ws) := by
    rw [transpose_eq_map hflaw hb, h]
    rfl
  -- the score as it is written, which a shift by nothing writes as well
  obtain ⟨plain, m'', hformat, hplain, hsame⟩ :=
    parse_rewritten (fun h => ⟨h.agrees.isComment, h.agrees.stop⟩) eventOf_written hparse
      fun e he => (hall e he).toIsWritable
  have hserialize : serialize m.events = .ok (joinTokens plain) := by
    rw [serialize, hformat]
    rfl
  have hzero : transpose m.events 0 = .ok (joinTokens plain) :=
    htranspose rfl (mapM_transposeEvent_zero (readEvents_of_parse hparse) hall hformat)
  obtain ⟨ws, m', hws, hparse', hfollows⟩ := exists_mapM_transposeEvent hparse hall a
  have hflaw' := sound_of_transposed (hfollows.imp fun _ _ h => h.toTransposed) hflaw
  -- what is read back follows the shift, so that both write the same for another one
  have hagain {b : Int} (hb : Text.isShown b) (hsum : Text.isShown (a + b)) :
      transpose m'.events b = transpose m.events (a + b) := by
    rw [transpose_eq_map hflaw' hb, transpose_eq_map hflaw hsum,
      mapM_eq_of_forall₂ (hfollows.imp fun _ _ h => h.again b)]
  refine ⟨fun ha => ⟨joinTokens ws, m', htranspose ha hws, hparse', isFlawed_eq_false_iff.mpr hflaw',
    hfollows.imp fun _ _ h => h.toTransposed, fun b hb hsum => ?_, joinTokens plain, m'', ?_, hserialize,
    hplain, hsame.imp fun _ _ h => h.agrees⟩, fun k ha => transpose_add_cycle m.events ha,
    fun k hk => ?_, fun ha => ?_⟩
  · obtain ⟨ws', -, hws', -⟩ := exists_mapM_transposeEvent hparse hall (a + b)
    exact ⟨joinTokens ws', (hagain hb hsum).trans (htranspose hsum hws'), htranspose hsum hws'⟩
  · have hnone : a + -a = 0 := Int.add_right_neg a
    rw [hagain ((Text.isShown_neg a).trans ha) (hnone ▸ rfl), hnone, hzero]
  · have hcycle : transpose m.events (0 + 108 * k) = transpose m.events 0 :=
      transpose_add_cycle m.events rfl ((Int.zero_add (108 * k)).symm ▸ hk)
    rw [Int.zero_add] at hcycle
    exact ⟨joinTokens plain, hcycle.trans hzero, hserialize⟩
  · exact transpose_of_not_isShown hflaw ha (congrArg Except.isOk hws)

/-- A comment, a note at the upper end that is moved over it, a pause, and a sharp. -/
theorem transpose_action_wrap :
    ∃ m written m', parse "//up/ (// B8(2.50) p\nc#".toList = .ok m ∧
      transpose m.events 1 = .ok written ∧ parse written = .ok m' ∧ m'.isFlawed = false ∧
      List.Forall₂ (Event.Transposed 1) m.events m'.events ∧
      (∀ b, Text.isShown b → Text.isShown (1 + b) →
        ∃ again, transpose m'.events b = .ok again ∧ transpose m.events (1 + b) = .ok again) ∧
      ∃ restored m'', transpose m'.events (-1) = .ok restored ∧
        serialize m.events = .ok restored ∧ parse restored = .ok m'' ∧
        List.Forall₂ Event.Agrees m.events m''.events := by
  obtain ⟨m, hparse, hsound, hfinite, hnamed⟩ :
      ∃ m, parse "//up/ (// B8(2.50) p\nc#".toList = .ok m ∧ m.isFlawed = false ∧
        (∀ e ∈ m.events, e.duration.isFinite) ∧ ∀ e ∈ m.notes, e.noteNumber?.isOk := by
    refine ⟨⟨_, _⟩, rfl, ?_, ?_, ?_⟩ <;> decide +kernel
  obtain ⟨htransposed, -⟩ :=
    transpose_action hparse hsound hfinite (fun e he => exists_ok_of_isOk (hnamed e he)) 1
  obtain ⟨written, m', htransposed⟩ := htransposed rfl
  exact ⟨m, written, m', hparse, htransposed⟩

/-- The score of one note is moved by a shift of 4300 digits twice, but not by the sum, which has 4301. -/
theorem not_transpose_action :
    ¬ ∀ (text : List Char) (m : Melody) (a : Int), parse text = .ok m → m.isFlawed = false →
      (∀ e ∈ m.events, e.duration.isFinite) → (∀ e ∈ m.notes, ∃ n, e.noteNumber? = .ok n) →
      ∃ written m', transpose m.events a = .ok written ∧ parse written = .ok m' ∧
        ∀ b, ∃ again, transpose m'.events b = .ok again ∧ transpose m.events (a + b) = .ok again := by
  intro h
  obtain ⟨m, hparse, hsound, hfinite, hisOk⟩ :
      ∃ m, parse "C".toList = .ok m ∧ m.isFlawed = false ∧
        (∀ e ∈ m.events, e.duration.isFinite) ∧ ∀ e ∈ m.notes, e.noteNumber?.isOk := by
    refine ⟨⟨_, _⟩, rfl, ?_, ?_, ?_⟩ <;> decide +kernel
  have hnamed : ∀ e ∈ m.notes, ∃ n, e.noteNumber? = .ok n := fun e he => exists_ok_of_isOk (hisOk e he)
  obtain ⟨a, -, hsum⟩ := Text.exists_isShown_not_isShown_add
  obtain ⟨written, m', -, -, hagain⟩ := h _ m a hparse hsound hfinite hnamed
  obtain ⟨again, -, hboth⟩ := hagain a
  obtain ⟨ws, -, hws, -⟩ := exists_mapM_transposeEvent hparse
    (isNamed_of_isFlawed_eq_false hsound hfinite hnamed) (a + a)
  rw [transpose_of_not_isShown (isFlawed_eq_false_iff.mp hsound) hsum (congrArg Except.isOk hws)] at hboth
  cases hboth

example : (parse "B8(2.50) p\nc#".toList).toOption.map (fun m => transpose m.events 1) =
    some (.ok "C0(2.5) P D".toList) := by
  decide +kernel

end Melody

end Monody
