import Monody.Proofs.Melody.Condensed
import Monody.Proofs.Melody.Timeline
import Monody.Proofs.Number
import Monody.Proofs.Performance.Lines
import Monody.Proofs.Pitch

/-!
# Lines as scores

A line is written as notes of whole milliseconds with a pause before some of them, and read as these
notes and pauses again. A pause of any length that can be written is read, but only one that fits the
binary64 numbers is read as that length; it then is written the same again.

## Main definitions

* `Note.IsWritable` — a note that a score can say
* `Note.IsUsable` — one with a real start
* `Scored` — a line with the tokens that it is written as and the events that these are read as
* `Laid` — the same, with the times of the events

## Main results

* `exists_score` — a line of known times is written
* `exists_laid` — what is written of a line is read
* `Scored.mapM_formatEvent` — and written again
-/

namespace Monody.Performance

open Binary64 Melody

-- evaluated, the numbers of units are too long to be looked at
attribute [local irreducible] one bound

variable {k g : ℕ} {w v : List Char} {ws : List (List Char)} {e e' : Event} {es : List Event}
  {token : Token} {ts : List Token} {time : Binary64} {n : Note} {ns : List Note} {gs : List ℕ}
  {p : Position}

/-- How long a note is played, to the nearest millisecond. -/
def Note.length (n : Note) : Except Number.Fault Int := do (← n.duration).nearest

/-- A note that a score can say: its start is a number, it is at least one millisecond long, and its
pitch is one of a score. -/
structure Note.IsUsable (n : Note) : Prop where
  timed : n.IsTimed
  length : ∃ k, n.length = .ok k ∧ 0 < k
  pitch : Pitch.Representable n.pitch

/-- A note that a score can say: it is at least one millisecond long, and its pitch is one of a score. -/
structure Note.IsWritable (n : Note) : Prop where
  length : ∃ k, n.length = .ok k ∧ 0 < k
  pitch : Pitch.Representable n.pitch

theorem Note.IsUsable.isWritable (h : n.IsUsable) : n.IsWritable := ⟨h.length, h.pitch⟩

/-! ## Single tokens -/

/-- The event that a token of a whole number of milliseconds is read as. It has that duration if the
number fits, and then it is written as the token again. -/
structure IsReading (k : ℕ) (w : List Char) (e : Event) : Prop where
  pos : 0 < k
  finite : (Binary64.ofInt k).isFinite
  flaw : e.flaw = none
  duration : e.duration = .ofInt k
  format : Fits (k * one) → formatEvent e = .ok w

/-- The pause that a token is read as. -/
structure IsPause (g : ℕ) (w : List Char) (e : Event) : Prop extends IsReading g w e where
  content : e.content = .pause

/-- A note with its token and the event that this is read as. -/
structure Note.IsPlayed (n : Note) (w : List Char) (e : Event) : Prop where
  reading : ∃ k : ℕ, n.length = .ok (k : ℤ) ∧ Fits (k * one) ∧ IsReading k w e
  number : e.noteNumber? = .ok (some n.pitch)
  pitch : Pitch.Representable n.pitch

theorem Note.IsPlayed.isPlayable (h : n.IsPlayed w e) : e.isPlayable = true := by
  obtain ⟨k, -, -, hreading⟩ := h.reading
  have hnumber := h.number
  rw [Event.noteNumber?] at hnumber
  rw [Event.isPlayable, Event.isNote, hreading.flaw]
  split at hnumber
  · next hcontent _ =>
    rw [hcontent]
    rfl
  · cases hnumber

theorem IsPause.isPlayable (h : IsPause g w e) : e.isPlayable = false := by
  rw [Event.isPlayable, Event.isNote, h.content]
  rfl

/-- A pause can only be written if its length is in the range of the reals. -/
theorem isFinite_of_writePause (h : writePause (.whole k) = .ok w) : (Binary64.ofInt k).isFinite := by
  obtain ⟨digits, hdigits, -⟩ := exists_of_bind_eq_ok h
  rw [writeDuration] at hdigits
  split at hdigits
  · next hdefault =>
    have hthousand : (k : ℤ) = 1000 := compare_eq_iff_eq.mp (Option.some.inj hdefault)
    obtain rfl : k = 1000 := by exact_mod_cast hthousand
    exact isFinite_ofInt (fits_mul_one (by decide))
  · obtain ⟨number, hnumber, -⟩ := exists_of_bind_eq_ok hdigits
    obtain ⟨real, hreal, -⟩ := exists_of_bind_eq_ok hnumber
    by_contra hinfinite
    have herror : Number.toReal (.whole k) = .error .tooLarge := if_neg hinfinite
    rw [herror] at hreal
    cases hreal

/-- A pause that is written is read. -/
theorem isPause_of_writePause (hpos : 0 < k) (h : writePause (.whole k) = .ok w) :
    IsEventText w ∧ ∀ token time, token.text = w →
      ∃ e, eventOf token time = .ok e ∧ IsPause k w e := by
  have hfinite := isFinite_of_writePause h
  obtain ⟨w', hw', htext⟩ := writePause_ok hpos hfinite
  obtain rfl : w = w' := Except.ok.inj (h.symm.trans hw')
  refine ⟨htext.isEventText, fun token time htoken => ⟨_, htext.read token time htoken, ?_⟩⟩
  refine ⟨⟨hpos, hfinite, rfl, placed_duration, fun hfits => ?_⟩, rfl⟩
  rw [formatEvent_pause rfl rfl placed_duration hfits, h, mapError_ok]

/-- A note that a score can say is written with its length, and it is read. -/
theorem exists_isPlayed (hn : n.IsWritable) :
    ∃ (k : ℕ) (w : List Char), n.length = .ok (k : ℤ) ∧
      writeNote (Pitch.ofNoteNumber n.pitch).1 (Pitch.ofNoteNumber n.pitch).2 (.whole k) = .ok w ∧
      IsEventText w ∧ ∀ token time, token.text = w →
        ∃ e, eventOf token time = .ok e ∧ e.isComment = false ∧ n.IsPlayed w e := by
  obtain ⟨length, hlength, hpos⟩ := hn.length
  obtain ⟨duration, -, hnearest⟩ := exists_of_bind_eq_ok hlength
  obtain ⟨k, rfl, hfits⟩ := Number.exists_of_nearest_pos hnearest hpos
  have hk : 0 < k := Int.natCast_pos.mp hpos
  obtain ⟨letter, sharp, octave, hlow, hhigh, hname, hnumber⟩ := Pitch.exists_nameOf hn.pitch
  obtain ⟨w, hwrite, htext⟩ := writeNote_ok letter sharp hlow hhigh hk (isFinite_ofInt hfits)
  rw [hname]
  refine ⟨k, w, hlength, hwrite, htext.isEventText, fun token time htoken =>
    ⟨_, htext.read token time htoken, rfl, ?_, ?_, hn.pitch⟩⟩
  · refine ⟨k, hlength, hfits, hk, isFinite_ofInt hfits, rfl, placed_duration, fun _ => ?_⟩
    rw [formatEvent_note rfl rfl placed_duration hfits, hwrite, mapError_ok]
  · exact congrArg (Except.map some) hnumber

/-! ## Lines -/

/-- A line with its pauses, the tokens that it is written as and the events that these are read as.
Every pause stands before a note, and is not longer than the time from the beginning to its start. -/
inductive Scored : List Note → List ℕ → List (List Char) → List Event → Prop
  | nil : Scored [] [] [] []
  | note {n : Note} {ns : List Note} {gs : List ℕ} {w : List Char} {ws : List (List Char)} {e : Event}
      {es : List Event} (hplayed : n.IsPlayed w e) (hrest : Scored ns gs ws es) :
      Scored (n :: ns) gs (w :: ws) (e :: es)
  | paused {n : Note} {ns : List Note} {g : ℕ} {gs : List ℕ} {v w : List Char} {ws : List (List Char)}
      {e' e : Event} {es : List Event} (hpause : IsPause g v e')
      (hgap : ∃ start, n.start.nearest = .ok start ∧ g ≤ start) (hplayed : n.IsPlayed w e)
      (hrest : Scored ns gs ws es) : Scored (n :: ns) (g :: gs) (v :: w :: ws) (e' :: e :: es)

theorem le_nearest_of_gap {pause : ℤ} (h : gap p n = .ok pause) (hcursor : 0 ≤ p.cursor)
    (hpos : 0 < pause) : ∃ start, n.start.nearest = .ok start ∧ pause ≤ start := by
  obtain ⟨touches, -, h⟩ := exists_of_bind_eq_ok h
  cases touches with
  | true =>
    obtain rfl := Except.ok.inj h
    exact absurd hpos (Int.lt_irrefl 0)
  | false =>
    obtain ⟨start, hstart, h⟩ := exists_of_bind_eq_ok h
    obtain rfl := Except.ok.inj h
    exact ⟨start, hstart, by omega⟩

/-- A note has finite times. -/
def Note.IsFinite (n : Note) : Prop :=
  ∃ x y, n.start = .real x ∧ n.stop = .real y ∧ x.isFinite

/-- The times of a note are known: its start has a finite real, and its end has a real. -/
structure Note.IsKnown (n : Note) : Prop where
  start : n.start.IsBounded
  stop : ∃ y, n.stop.toReal = .ok y

theorem Note.IsFinite.isKnown (h : n.IsFinite) : n.IsKnown := by
  obtain ⟨x, y, hx, hy, hfinite⟩ := h
  refine ⟨?_, y, ?_⟩
  · rw [hx]
    exact Number.isBounded_real hfinite
  · rw [hy]
    rfl

/-- The pause before a note of known times is known, if the note before it ended at a known time. -/
theorem exists_gap (hn : n.IsKnown) (hended : ∀ stop ∈ p.ended, ∃ y, stop.toReal = .ok y) :
    ∃ pause, gap p n = .ok pause := by
  obtain ⟨x, hx, hfinite⟩ := hn.start
  obtain ⟨start, hstart⟩ := exists_roundHalfUp hfinite
  have htouches : ∃ touches, p.touches n = .ok touches := by
    rw [Position.touches]
    generalize p.ended = ended at hended
    cases ended with
    | none => exact ⟨false, rfl⟩
    | some stop =>
      obtain ⟨y, hy⟩ := hended stop rfl
      obtain ⟨d, hd⟩ := Number.exists_sub hx hy
      dsimp only
      rw [hd]
      exact ⟨_, rfl⟩
  obtain ⟨touches, htouches⟩ := htouches
  have hnearest : n.start.nearest = .ok start := by
    rw [Number.nearest, hx]
    exact hstart
  rw [gap, htouches, ok_bind, hnearest]
  cases touches <;> exact ⟨_, rfl⟩

/-- A pause that is not longer than a time is in the range of the reals. -/
theorem exists_writePause {start pause : ℤ} (hstart : n.start.nearest = .ok start)
    (hle : pause ≤ start) (hpos : 0 < pause) : ∃ w, writePause (.whole pause) = .ok w := by
  obtain ⟨k, rfl, hfits⟩ := Number.exists_of_nearest_pos hstart (hpos.trans_le hle)
  obtain ⟨g, rfl⟩ : ∃ g : ℕ, pause = g := ⟨pause.toNat, (Int.toNat_of_nonneg hpos.le).symm⟩
  have hfinite : (Binary64.ofInt g).isFinite := by
    have hunits : g * one ≤ k * one * 1 := by
      rw [Nat.mul_one]
      exact Nat.mul_le_mul_right _ (Int.ofNat_le.mp hle)
    obtain ⟨hround, heq, -⟩ := ofRatio_of_le false Nat.one_pos hfits hunits
    rw [ofInt_eq_ofRatio, heq]
    rfl
  obtain ⟨w, hw, -⟩ := writePause_ok (Int.natCast_pos.mp hpos) hfinite
  exact ⟨w, hw⟩

/-- What is written of a pause: nothing, unless there is time to be waited. -/
def writtenPause (pause : ℤ) : Except Number.Fault (List (List Char)) :=
  if 0 < pause then do return [← writePause (.whole pause)] else .ok []

theorem writtenPause_cases {pause : ℤ} (h : writtenPause pause = .ok ws) :
    pause ≤ 0 ∧ ws = [] ∨ 0 < pause ∧ ∃ w, writePause (.whole pause) = .ok w ∧ ws = [w] := by
  by_cases hpos : 0 < pause
  · rw [writtenPause, if_pos hpos] at h
    obtain ⟨w, hw, h⟩ := exists_of_bind_eq_ok h
    exact .inr ⟨hpos, w, hw, (Except.ok.inj h).symm⟩
  · rw [writtenPause, if_neg hpos] at h
    exact .inl ⟨Int.not_lt.mp hpos, (Except.ok.inj h).symm⟩

/-- The pause of a condensed score is written in the same way. -/
theorem mapM_pauseFor_eq_writtenPause {d : ℕ} (hd : d ≤ 2 ^ 53) :
    (pauseFor (.ofInt d)).mapM formatEvent = (writtenPause d).mapError WriteFault.number := by
  rw [mapM_pauseFor hd, writtenPause]
  by_cases hpos : 0 < d
  · rw [if_pos hpos, if_pos (Int.natCast_pos.mpr hpos)]
    cases writePause (.whole d) <;> rfl
  · rw [if_neg hpos, if_neg (mt Int.natCast_pos.mp hpos)]
    rfl

theorem exists_writtenPause_natCast {d : ℕ} (hd : d ≤ 2 ^ 53) :
    ∃ ws, writtenPause d = .ok ws ∧ ∀ w ∈ ws, IsEventText w := by
  by_cases hpos : 0 < d
  · obtain ⟨w, hwrite, hw⟩ := writePause_ok hpos (isFinite_ofInt (fits_mul_one hd))
    rw [writtenPause, if_pos (Int.natCast_pos.mpr hpos), hwrite]
    exact ⟨[w], rfl, List.forall_mem_singleton.mpr hw.isEventText⟩
  · rw [writtenPause, if_neg (mt Int.natCast_pos.mp hpos)]
    exact ⟨[], rfl, fun w hw => absurd hw List.not_mem_nil⟩

/-- A line is written note by note, each one after its pause. -/
theorem tokensFrom_cons :
    tokensFrom p (n :: ns) = (do
      let pause ← gap p n
      let pauses ← writtenPause pause
      let length ← n.length
      let token ← writeNote (Pitch.ofNoteNumber n.pitch).1 (Pitch.ofNoteNumber n.pitch).2
        (.whole length)
      let rest ← tokensFrom ⟨p.cursor + max 0 pause + length, some n.stop⟩ ns
      return pauses ++ token :: rest) := by
  rw [tokensFrom]
  refine congrArg (gap p n >>= ·) (funext fun pause => ?_)
  rw [writtenPause, Note.length]
  simp only [bind_assoc]
  split
  · cases writePause (.whole pause) <;> rfl
  · rfl

theorem exists_of_tokensFrom_cons (h : tokensFrom p (n :: ns) = .ok ws) :
    ∃ pause pauses length token rest, gap p n = .ok pause ∧ writtenPause pause = .ok pauses ∧
      n.length = .ok length ∧
      writeNote (Pitch.ofNoteNumber n.pitch).1 (Pitch.ofNoteNumber n.pitch).2 (.whole length) =
        .ok token ∧
      tokensFrom ⟨p.cursor + max 0 pause + length, some n.stop⟩ ns = .ok rest ∧
      ws = pauses ++ token :: rest := by
  rw [tokensFrom_cons] at h
  obtain ⟨pause, hpause, h⟩ := exists_of_bind_eq_ok h
  obtain ⟨pauses, hpauses, h⟩ := exists_of_bind_eq_ok h
  obtain ⟨length, hlength, h⟩ := exists_of_bind_eq_ok h
  obtain ⟨token, htoken, h⟩ := exists_of_bind_eq_ok h
  obtain ⟨rest, hrest, h⟩ := exists_of_bind_eq_ok h
  exact ⟨pause, pauses, length, token, rest, hpause, hpauses, hlength, htoken, hrest,
    (Except.ok.inj h).symm⟩

/-- The pause before a note of a known start is written. -/
theorem exists_writtenPause {pause : ℤ} (hpause : gap p n = .ok pause) (hcursor : 0 ≤ p.cursor) :
    ∃ pauses, writtenPause pause = .ok pauses := by
  rw [writtenPause]
  split
  · next hpos =>
    obtain ⟨start, hstart, hle⟩ := le_nearest_of_gap hpause hcursor hpos
    obtain ⟨w, hw⟩ := exists_writePause hstart hle hpos
    exact ⟨[w], by rw [hw]; rfl⟩
  · exact ⟨[], rfl⟩

/-- A line of known times is written, wherever it begins. -/
theorem exists_tokensFrom (hns : ∀ n ∈ ns, n.IsWritable) (hknown : ∀ n ∈ ns, n.IsKnown)
    (hcursor : 0 ≤ p.cursor) (hended : ∀ stop ∈ p.ended, ∃ y, stop.toReal = .ok y) :
    ∃ ws, tokensFrom p ns = .ok ws := by
  induction ns generalizing p with
  | nil => exact ⟨[], rfl⟩
  | cons n ns ih =>
    obtain ⟨hn, hns⟩ := List.forall_mem_cons.mp hns
    obtain ⟨hnknown, hknown⟩ := List.forall_mem_cons.mp hknown
    obtain ⟨pause, hpause⟩ := exists_gap hnknown hended
    obtain ⟨pauses, hpauses⟩ := exists_writtenPause hpause hcursor
    obtain ⟨k, token, hlength, htoken, -⟩ := exists_isPlayed hn
    obtain ⟨rest, hrest⟩ := ih (p := ⟨p.cursor + max 0 pause + k, some n.stop⟩) hns hknown
      (by dsimp only; omega) fun stop hmem => Option.some.inj hmem ▸ hnknown.stop
    rw [tokensFrom_cons, hpause, ok_bind, hpauses, ok_bind, hlength, ok_bind, htoken, ok_bind, hrest]
    exact ⟨pauses ++ token :: rest, rfl⟩

/-- A line of known times has a score. -/
theorem exists_score (hns : ∀ n ∈ ns, n.IsWritable) (hknown : ∀ n ∈ ns, n.IsKnown) :
    ∃ text, score ns = .ok text := by
  obtain ⟨ws, hws⟩ := exists_tokensFrom (p := ⟨0, none⟩) hns hknown le_rfl nofun
  rw [score, hws]
  exact ⟨_, rfl⟩

/-- An event that starts at a time, and ends after its duration. -/
structure StartsAt (time : Binary64) (e : Event) : Prop where
  start : e.start = time
  stop : e.stop = time + e.duration

/-- A line from a position on, with its pauses, the tokens that it is written as and the events that these
are read as. The first event starts at a time, and each one where the one before it ends. -/
inductive Laid : Position → Binary64 → List Note → List ℕ → List (List Char) → List Event → Prop
  | nil {p : Position} {time : Binary64} : Laid p time [] [] [] []
  | note {p : Position} {time : Binary64} {n : Note} {ns : List Note} {gs : List ℕ} {w : List Char}
      {ws : List (List Char)} {e : Event} {es : List Event} {pause : ℤ} {k : ℕ}
      (hgap : gap p n = .ok pause) (hnone : pause ≤ 0) (hplayed : n.IsPlayed w e)
      (hreading : IsReading k w e) (hstart : StartsAt time e)
      (hrest : Laid ⟨p.cursor + k, some n.stop⟩ e.stop ns gs ws es) :
      Laid p time (n :: ns) gs (w :: ws) (e :: es)
  | paused {p : Position} {time : Binary64} {n : Note} {ns : List Note} {g : ℕ} {gs : List ℕ}
      {v w : List Char} {ws : List (List Char)} {e' e : Event} {es : List Event} {k : ℕ}
      (hgap : gap p n = .ok (g : ℤ)) (hpause : IsPause g v e') (hstart' : StartsAt time e')
      (hplayed : n.IsPlayed w e) (hreading : IsReading k w e) (hstart : StartsAt e'.stop e)
      (hrest : Laid ⟨p.cursor + g + k, some n.stop⟩ e.stop ns gs ws es) :
      Laid p time (n :: ns) (g :: gs) (v :: w :: ws) (e' :: e :: es)

/-- A line that is laid out is written and read, wherever it begins. -/
theorem Laid.scored (h : Laid p time ns gs ws es) (hcursor : 0 ≤ p.cursor) : Scored ns gs ws es := by
  induction h with
  | nil => exact .nil
  | note _ _ hplayed _ _ _ ih => exact .note hplayed (ih (by dsimp only; omega))
  | paused hgap hpause _ hplayed _ _ _ ih =>
    have hlate := le_nearest_of_gap hgap hcursor (Int.natCast_pos.mpr hpause.pos)
    exact .paused hpause (by exact_mod_cast hlate) hplayed (ih (by dsimp only; omega))

theorem startsAt_of_eventOf (h : eventOf token time = .ok e) (hcomment : e.isComment = false) :
    StartsAt time e := by
  obtain ⟨htrue, -⟩ | ⟨-, hstart, hstop, -⟩ := eventOf_times h
  · rw [hcomment] at htrue
    cases htrue
  · exact ⟨hstart, hstop⟩

theorem IsPause.isComment (h : IsPause g w e) : e.isComment = false := by
  rw [Event.isComment, h.content]
  rfl

/-- What is written of a line is read. -/
theorem exists_laid (hns : ∀ n ∈ ns, n.IsWritable) (h : tokensFrom p ns = .ok ws) :
    (∀ w ∈ ws, IsEventText w) ∧ ∃ gs, ∀ (ts : List Token) (time : Binary64), ts.map (·.text) = ws →
      ∃ es, eventsFrom time ts = .ok es ∧ Laid p time ns gs ws es := by
  induction ns generalizing p ws with
  | nil =>
    obtain rfl := Except.ok.inj h
    refine ⟨fun w hw => absurd hw List.not_mem_nil, [], fun ts time hts => ⟨[], ?_, .nil⟩⟩
    rw [List.map_eq_nil_iff.mp hts]
    rfl
  | cons n ns ih =>
    obtain ⟨hn, hns⟩ := List.forall_mem_cons.mp hns
    obtain ⟨pause, pauses, length, token, rest, hpause, hpauses, hlength, htoken, hrest, rfl⟩ :=
      exists_of_tokensFrom_cons h
    obtain ⟨k, token', hk, htoken', htext, hread⟩ := exists_isPlayed hn
    obtain rfl : length = k := Except.ok.inj (hlength.symm.trans hk)
    obtain rfl : token = token' := Except.ok.inj (htoken.symm.trans htoken')
    obtain ⟨htexts, gs, hreads⟩ := ih hns hrest
    -- the note is read, wherever it stands, and the clock runs on from its end
    have hnote (t : Token) (ts : List Token) (time : Binary64) (ht : t.text = token)
        (hts : ts.map (·.text) = rest) :
        ∃ e es, eventsFrom time (t :: ts) = .ok (e :: es) ∧ n.IsPlayed token e ∧ IsReading k token e ∧
          StartsAt time e ∧ Laid ⟨p.cursor + max 0 pause + k, some n.stop⟩ e.stop ns gs rest es := by
      obtain ⟨e, he, hcomment, hplayed⟩ := hread t time ht
      obtain ⟨es, hes, hlaid⟩ := hreads ts e.stop hts
      obtain ⟨k', hk', -, hreading⟩ := hplayed.reading
      obtain rfl : k = k' := by exact_mod_cast Except.ok.inj (hk.symm.trans hk')
      refine ⟨e, es, ?_, hplayed, hreading, startsAt_of_eventOf he hcomment, hlaid⟩
      rw [eventsFrom, he, ok_bind, if_neg (by simp [hcomment]), hes]
      rfl
    rcases writtenPause_cases hpauses with ⟨hnone, rfl⟩ | ⟨hpos, v, hv, rfl⟩
    · refine ⟨List.forall_mem_cons.mpr ⟨htext, htexts⟩, gs, fun ts time hts => ?_⟩
      obtain ⟨t, ts, rfl, ht, hts⟩ := List.map_eq_cons_iff.mp hts
      obtain ⟨e, es, hes, hplayed, hreading, hstart, hlaid⟩ := hnote t ts time ht hts
      rw [max_eq_left hnone, Int.add_zero] at hlaid
      exact ⟨e :: es, hes, .note hpause hnone hplayed hreading hstart hlaid⟩
    · obtain ⟨g, rfl⟩ : ∃ g : ℕ, pause = g := ⟨pause.toNat, (Int.toNat_of_nonneg hpos.le).symm⟩
      obtain ⟨hvtext, hvread⟩ := isPause_of_writePause (Int.natCast_pos.mp hpos) hv
      refine ⟨List.forall_mem_cons.mpr ⟨hvtext, List.forall_mem_cons.mpr ⟨htext, htexts⟩⟩, g :: gs,
        fun ts time hts => ?_⟩
      obtain ⟨t', ts, rfl, ht', hts⟩ := List.map_eq_cons_iff.mp hts
      obtain ⟨t, ts, rfl, ht, hts⟩ := List.map_eq_cons_iff.mp hts
      obtain ⟨e', he', hpaused⟩ := hvread t' time ht'
      obtain ⟨e, es, hes, hplayed, hreading, hstart, hlaid⟩ := hnote t ts e'.stop ht hts
      rw [max_eq_right hpos.le] at hlaid
      refine ⟨e' :: e :: es, ?_, .paused hpause hpaused (startsAt_of_eventOf he' hpaused.isComment)
        hplayed hreading hstart hlaid⟩
      rw [eventsFrom, he', ok_bind, if_neg (by simp [hpaused.isComment]), hes]
      rfl

/-- A line has a score, and that is read as the notes of the line and the pauses before them. -/
theorem exists_laid_of_score {text : List Char} (hns : ∀ n ∈ ns, n.IsWritable)
    (h : score ns = .ok text) :
    ∃ m gs ws, parse text = .ok m ∧ m.text = text ∧ text = joinTokens ws ∧
      (∀ w ∈ ws, IsEventText w) ∧ Laid ⟨0, none⟩ 0 ns gs ws m.events := by
  obtain ⟨ws, hws, h⟩ := exists_of_bind_eq_ok h
  obtain rfl := Except.ok.inj h
  obtain ⟨htexts, gs, hread⟩ := exists_laid hns hws
  -- the tokens of the score are the ones that were written
  have htokens : (tokens (joinTokens ws)).map (·.text) = ws := by
    have hspelling := congrArg (List.map Prod.fst) (spelling_joinTokens htexts)
    simpa [List.map_map, Function.comp_def, Token.spelling] using hspelling
  obtain ⟨es, hes, hlaid⟩ := hread _ 0 htokens
  exact ⟨⟨joinTokens ws, es⟩, gs, ws, congrArg (Except.map _) hes, rfl, rfl, htexts, hlaid⟩

theorem exists_scored_of_score {text : List Char} (hns : ∀ n ∈ ns, n.IsWritable)
    (h : score ns = .ok text) :
    ∃ m gs ws, parse text = .ok m ∧ m.text = text ∧ text = joinTokens ws ∧
      (∀ w ∈ ws, IsEventText w) ∧ Scored ns gs ws m.events := by
  obtain ⟨m, gs, ws, hparse, htext, hjoin, htexts, hlaid⟩ := exists_laid_of_score hns h
  exact ⟨m, gs, ws, hparse, htext, hjoin, htexts, hlaid.scored le_rfl⟩

namespace Scored

theorem sound (h : Scored ns gs ws es) : ∀ e ∈ es, e.flaw = none := by
  induction h with
  | nil => exact fun e he => absurd he List.not_mem_nil
  | note hplayed _ ih =>
    obtain ⟨k, -, -, hreading⟩ := hplayed.reading
    exact List.forall_mem_cons.mpr ⟨hreading.flaw, ih⟩
  | paused hpause _ hplayed _ ih =>
    obtain ⟨k, -, -, hreading⟩ := hplayed.reading
    exact List.forall_mem_cons.mpr ⟨hpause.flaw, List.forall_mem_cons.mpr ⟨hreading.flaw, ih⟩⟩

/-- If all pauses fit, the events are written as the tokens that they were read from. -/
theorem mapM_formatEvent (h : Scored ns gs ws es) (hfits : ∀ g ∈ gs, Fits (g * one)) :
    es.mapM formatEvent = .ok ws := by
  induction h with
  | nil => rfl
  | note hplayed _ ih =>
    obtain ⟨k, -, hk, hreading⟩ := hplayed.reading
    rw [List.mapM_cons, hreading.format hk, ok_bind, ih hfits]
    rfl
  | paused hpause _ hplayed _ ih =>
    obtain ⟨hg, hfits⟩ := List.forall_mem_cons.mp hfits
    obtain ⟨k, -, hk, hreading⟩ := hplayed.reading
    rw [List.mapM_cons, hpause.format hg, ok_bind, List.mapM_cons, hreading.format hk, ok_bind,
      ih hfits]
    rfl

/-- A pause before a note that starts early enough is short enough to fit. -/
theorem fits_of_start_lt (h : Scored ns gs ws es) (htimed : ∀ n ∈ ns, n.IsTimed)
    (hstart : ∀ n ∈ ns, n.start < .whole (2 ^ 53)) : ∀ g ∈ gs, Fits (g * one) := by
  induction h with
  | nil => exact fun g hg => absurd hg List.not_mem_nil
  | note _ _ ih =>
    exact ih (List.forall_mem_cons.mp htimed).2 (List.forall_mem_cons.mp hstart).2
  | @paused n ns g gs v w ws e' e es _ hgap _ _ ih =>
    obtain ⟨⟨x, hx, -⟩, htimed⟩ := List.forall_mem_cons.mp htimed
    obtain ⟨hlt, hstart⟩ := List.forall_mem_cons.mp hstart
    obtain ⟨start, hnearest, hle⟩ := hgap
    rw [hx] at hnearest hlt
    have hbound : start ≤ 2 ^ 53 := roundHalfUp_le hlt hnearest
    exact List.forall_mem_cons.mpr ⟨fits_mul_one (by omega), ih htimed hstart⟩

/-- The notes among the events are those of the line. -/
theorem forall₂_notes (h : Scored ns gs ws es) :
    List.Forall₂ (fun n e => ∃ w, Note.IsPlayed n w e) ns (es.filter (·.isPlayable)) := by
  induction h with
  | nil => exact .nil
  | note hplayed _ ih =>
    rw [List.filter_cons_of_pos hplayed.isPlayable]
    exact .cons ⟨_, hplayed⟩ ih
  | paused hpause _ hplayed _ ih =>
    rw [List.filter_cons_of_neg (by simp [hpause.isPlayable]),
      List.filter_cons_of_pos hplayed.isPlayable]
    exact .cons ⟨_, hplayed⟩ ih

/-- The events have whole durations. -/
theorem isWhole_duration (h : Scored ns gs ws es) : ∀ e ∈ es, e.duration.isWhole := by
  have hwhole {k : ℕ} {w : List Char} {e : Event} (h : IsReading k w e) : e.duration.isWhole := by
    obtain ⟨n, hn, heq, -, hdvd, -⟩ := exists_ofInt_eq_finite h.pos h.finite
    rw [h.duration, heq, isWhole, Nat.mod_eq_zero_of_dvd hdvd]
    rfl
  induction h with
  | nil => exact fun e he => absurd he List.not_mem_nil
  | note hplayed _ ih =>
    obtain ⟨k, -, -, hreading⟩ := hplayed.reading
    exact List.forall_mem_cons.mpr ⟨hwhole hreading, ih⟩
  | paused hpause _ hplayed _ ih =>
    obtain ⟨k, -, -, hreading⟩ := hplayed.reading
    exact List.forall_mem_cons.mpr ⟨hwhole hpause.toIsReading,
      List.forall_mem_cons.mpr ⟨hwhole hreading, ih⟩⟩

/-- Every pause is the duration of an event. -/
theorem exists_duration (h : Scored ns gs ws es) : ∀ g ∈ gs, ∃ e ∈ es, e.duration = .ofInt g := by
  induction h with
  | nil => exact fun g hg => absurd hg List.not_mem_nil
  | note _ _ ih =>
    intro g hg
    obtain ⟨e, he, hduration⟩ := ih g hg
    exact ⟨e, List.mem_cons_of_mem _ he, hduration⟩
  | paused hpause _ _ _ ih =>
    refine List.forall_mem_cons.mpr ⟨⟨_, List.mem_cons_self, hpause.duration⟩, fun g hg => ?_⟩
    obtain ⟨e, he, hduration⟩ := ih g hg
    exact ⟨e, List.mem_cons_of_mem _ (List.mem_cons_of_mem _ he), hduration⟩

/-- A line is written in condensed form: condensing its events changes nothing in their tokens, if no
pause is too long to be added up exactly. -/
theorem mapM_condense (h : Scored ns gs ws es) (hshort : ∀ g ∈ gs, g ≤ 2 ^ 53) :
    (condense es).mapM formatEvent = .ok ws := by
  rw [condense]
  induction h with
  | nil => rfl
  | note hplayed _ ih =>
    obtain ⟨k, -, hk, hreading⟩ := hplayed.reading
    have hzero : isZero 0 = true := by
      rw [zero_eq]
      rfl
    rw [condenseFrom, if_pos hplayed.isPlayable, pauseFor, if_pos hzero, List.nil_append,
      List.mapM_cons, hreading.format hk, ok_bind, ih hshort]
    rfl
  | @paused n ns g gs v w ws e' e es hpause _ hplayed _ ih =>
    obtain ⟨hg, hshort⟩ := List.forall_mem_cons.mp hshort
    obtain ⟨k, -, hk, hreading⟩ := hplayed.reading
    -- the one pause before a note is condensed to itself
    have hwaited : 0 + e'.duration = .ofInt g := by
      rw [hpause.duration, ofInt_natCast hg]
      exact zero_add_finite _
    have hwrite : (writePause (.whole g)).mapError WriteFault.number = .ok v := by
      rw [← formatEvent_pause hpause.content hpause.flaw hpause.duration (fits_mul_one hg)]
      exact hpause.format (fits_mul_one hg)
    rw [condenseFrom, hpause.isPlayable, if_neg Bool.false_ne_true, hwaited, condenseFrom,
      if_pos hplayed.isPlayable, List.mapM_append, mapM_pauseFor hg, if_pos hpause.pos, hwrite, ok_bind,
      ok_bind, List.mapM_cons, hreading.format hk, ok_bind, ih hshort]
    rfl

end Scored

end Monody.Performance
