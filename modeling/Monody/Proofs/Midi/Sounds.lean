import Monody.Proofs.Melody.Condensed
import Monody.Proofs.Midi.Lines
import Monody.Proofs.Output
import Monody.Proofs.Performance.Score
import Monody.Proofs.Pitch

/-!
# The strokes of a score

Where all durations are whole milliseconds, the notes of a score that sound are strokes one after
another. The score is exported through them, and what is imported from them is written as the
condensed score is.

## Main definitions

* `Sounds` — the events of a score from a time on, with their strokes

## Main results

* `sounds_of_eventsFrom` — the events of tokens have strokes
* `Sounds.mapM_messagesOfEvent` — the messages of events are those of their strokes
* `Sounds.score_played` — the condensed score is what their notes are written as
-/

namespace Monody

open Binary64

-- evaluated, the numbers of units are too long to be looked at
attribute [local irreducible] one bound

namespace Midi

open Melody (Event Letter Token Content)

/-- The events of a score from a time on, with the strokes of the notes among them that sound. -/
inductive Sounds : ℕ → List Event → List Stroke → Prop
  | nil {t : ℕ} : Sounds t [] []
  | silent {t d : ℕ} {e : Event} {es : List Event} {ss : List Stroke} (hplay : e.isPlayable = false)
      (hduration : e.duration = .ofInt d) (htime : t + d ≤ greatestTime)
      (hrest : Sounds (t + d) es ss) : Sounds t (e :: es) ss
  | note {t d : ℕ} {e : Event} {es : List Event} {ss : List Stroke} {letter : Letter} {sharp : Bool}
      {octave : Int} {n : Data} (hcontent : e.content = .note letter sharp octave)
      (hflaw : e.flaw = none) (hlow : 0 ≤ octave) (hhigh : octave ≤ 8)
      (hnumber : Pitch.noteNumber (Pitch.nameOf letter sharp) octave = .ok n.val)
      (hstart : e.start = .ofInt t) (hstop : e.stop = .ofInt ((t + d : ℕ) : ℤ))
      (hduration : e.duration = .ofInt d) (hpos : 0 < d) (htime : t + d ≤ greatestTime)
      (hrest : Sounds (t + d) es ss) : Sounds t (e :: es) (⟨t, t + d, n⟩ :: ss)

variable {t : ℕ} {e : Event} {es : List Event} {ss : List Stroke} {ts : List Token} {c : Channel}
  {velocity : Data}

/-! ## Events with strokes -/

theorem isPlayable_iff : e.isPlayable = true ↔ e.isNote = true ∧ e.flaw = none := by
  rw [Event.isPlayable, Bool.and_eq_true, Option.isNone_iff_eq_none]

/-- A comment is silent and takes no time. -/
theorem silent_of_isComment {token : Token} {time : Binary64} (h : Melody.eventOf token time = .ok e)
    (hcomment : e.isComment = true) : e.isPlayable = false ∧ e.duration = 0 := by
  rcases Melody.eventOf_times h with ⟨-, -, -, -, hduration⟩ | ⟨hfalse, -⟩
  · refine ⟨?_, hduration⟩
    rw [Event.isComment, beq_iff_eq] at hcomment
    rw [Event.isPlayable, Event.isNote, hcomment]
    rfl
  · rw [hcomment] at hfalse
    cases hfalse

/-- A note that sounds has a number, which is one of a message. -/
theorem exists_data_of_isPlayable {token : Token} {time : Binary64}
    (h : Melody.eventOf token time = .ok e) (hplay : e.isPlayable = true)
    (hnamed : ∃ n, e.noteNumber? = .ok n) :
    ∃ letter sharp octave, ∃ n : Data, e.content = .note letter sharp octave ∧ e.flaw = none ∧
      0 ≤ octave ∧ octave ≤ 8 ∧
      Pitch.noteNumber (Pitch.nameOf letter sharp) octave = .ok (n.val : ℤ) ∧ e.start = time := by
  obtain ⟨hnote, hflaw⟩ := isPlayable_iff.mp hplay
  rcases Melody.eventOf_cases h hflaw with ⟨-, rfl⟩ | ⟨-, -, content, x, stated, hcontent, -, rfl⟩
  · cases hnote
  cases hcontent with
  | pause => cases hnote
  | @note letter sharp octave hlow hhigh =>
    obtain ⟨number, hn⟩ := hnamed
    obtain ⟨n, hnumber, -⟩ := Melody.exists_noteNumber rfl rfl hn
    obtain ⟨⟨hnlow, hnhigh⟩, -⟩ := Pitch.ofNoteNumber_of_noteNumber hlow hhigh hnumber
    rw [show Pitch.lowest = 12 from rfl] at hnlow
    rw [show Pitch.highest = 119 from rfl] at hnhigh
    refine ⟨letter, sharp, octave, ⟨n.toNat, by omega⟩, rfl, rfl, hlow, hhigh, ?_, rfl⟩
    simp only [Int.toNat_of_nonneg (by omega : 0 ≤ n), hnumber]

/-- An event of whole milliseconds takes its place before the events that follow it. -/
theorem exists_sounds_cons {token : Token} (h : Melody.eventOf token (.ofInt t) = .ok e)
    (ht : t ≤ greatestTime) (hwhole : e.duration.isWhole)
    (hnamed : e.isPlayable → ∃ n, e.noteNumber? = .ok n)
    (htime : e.isComment = false → Number.real e.stop ≤ .whole greatestTime) :
    ∃ d : ℕ, t + d ≤ greatestTime ∧
      (if e.isComment then .ofInt t else e.stop) = Binary64.ofInt ((t + d : ℕ) : ℤ) ∧
      ∀ {es ss}, Sounds (t + d) es ss → ∃ ss', Sounds t (e :: es) ss' := by
  cases hcomment : e.isComment with
  | true =>
    obtain ⟨hplay, hduration⟩ := silent_of_isComment h hcomment
    refine ⟨0, ht, ?_, fun hrest => ⟨_, .silent hplay hduration ht hrest⟩⟩
    rw [if_pos rfl, Nat.add_zero]
  | false =>
    have hfinite : e.duration.isFinite := by
      cases hduration : e.duration <;> rw [hduration] at hwhole <;> first | rfl | cases hwhole
    obtain ⟨m, hm, hduration, hpos, hstop⟩ := Melody.finite_of_eventOf h hfinite hcomment
    obtain ⟨d, rfl⟩ : ∃ d, m = d * one := by
      rw [hduration, Binary64.isWhole, beq_iff_eq] at hwhole
      exact ⟨m / one, (Nat.div_mul_cancel (Nat.dvd_of_mod_eq_zero hwhole)).symm⟩
    -- up to the greatest time sums of whole milliseconds are exact
    obtain ⟨hle, hsum⟩ := ofNat_add_le (ht.trans (by decide)) (by decide) hm (hstop ▸ htime hcomment)
    have hd : 0 < d := Nat.pos_of_mul_pos_right hpos
    have hduration' : e.duration = .ofInt d := hduration.trans (ofInt_of_fits hm).symm
    refine ⟨d, hle, hstop.trans hsum, fun {es ss} hrest => ?_⟩
    cases hplay : e.isPlayable with
    | false => exact ⟨_, .silent hplay hduration' hle hrest⟩
    | true =>
      obtain ⟨letter, sharp, octave, n, hcontent, hflaw, hlow, hhigh, hnumber, hstart⟩ :=
        exists_data_of_isPlayable h hplay (hnamed hplay)
      exact ⟨_, .note hcontent hflaw hlow hhigh hnumber hstart (hstop.trans hsum) hduration' hd hle
        hrest⟩

/-- Events of whole milliseconds have strokes. -/
theorem sounds_of_eventsFrom (h : Melody.eventsFrom (.ofInt t) ts = .ok es) (ht : t ≤ greatestTime)
    (hwhole : ∀ e ∈ es, e.duration.isWhole)
    (hnamed : ∀ e ∈ es, e.isPlayable → ∃ n, e.noteNumber? = .ok n)
    (htime : ∀ e ∈ es, e.isComment = false → Number.real e.stop ≤ .whole greatestTime) :
    ∃ ss, Sounds t es ss := by
  induction ts generalizing t es with
  | nil =>
    obtain rfl := Except.ok.inj h
    exact ⟨[], .nil⟩
  | cons token ts ih =>
    obtain ⟨e, he, h⟩ := exists_of_bind_eq_ok h
    obtain ⟨rest, hrest, h⟩ := exists_of_bind_eq_ok h
    obtain rfl := Except.ok.inj h
    obtain ⟨hewhole, hwhole⟩ := List.forall_mem_cons.mp hwhole
    obtain ⟨henamed, hnamed⟩ := List.forall_mem_cons.mp hnamed
    obtain ⟨hetime, htime⟩ := List.forall_mem_cons.mp htime
    obtain ⟨d, hle, hnext, hcons⟩ := exists_sounds_cons he ht hewhole henamed hetime
    rw [hnext] at hrest
    obtain ⟨ss, hss⟩ := ih hrest hle hwhole hnamed htime
    exact hcons hss

namespace Sounds

theorem inTurn (h : Sounds t es ss) : InTurn greatestTime t ss := by
  induction h with
  | nil => exact .nil
  | silent _ _ _ _ ih => exact ih.of_le (Nat.le_add_right ..)
  | note _ _ _ _ _ _ _ _ hpos htime _ ih =>
    exact .cons le_rfl (Nat.lt_add_of_pos_right hpos) htime ih

theorem representable (h : Sounds t es ss) : ∀ s ∈ ss, Pitch.Representable s.note.val := by
  induction h with
  | nil => exact fun s hs => absurd hs List.not_mem_nil
  | silent _ _ _ _ ih => exact ih
  | note _ _ hlow hhigh hnumber _ _ _ _ _ _ ih =>
    exact List.forall_mem_cons.mpr ⟨(Pitch.ofNoteNumber_of_noteNumber hlow hhigh hnumber).1, ih⟩

theorem isPlayable_of_note {letter : Letter} {sharp : Bool} {octave : Int}
    (hcontent : e.content = .note letter sharp octave) (hflaw : e.flaw = none) :
    e.isPlayable = true := by
  rw [Event.isPlayable, Event.isNote, hcontent, hflaw]
  rfl

/-- There are as many strokes as notes. -/
theorem length_eq (h : Sounds t es ss) : ss.length = (es.filter (·.isPlayable)).length := by
  induction h with
  | nil => rfl
  | silent hplay _ _ _ ih => rw [List.filter_cons_of_neg (by simp [hplay]), ih]
  | note hcontent hflaw _ _ _ _ _ _ _ _ _ ih =>
    rw [List.filter_cons_of_pos (isPlayable_of_note hcontent hflaw), List.length_cons,
      List.length_cons, ih]

/-- The notes of a score have the numbers and the lengths of their strokes. -/
theorem forall₂_notes (h : Sounds t es ss) :
    List.Forall₂ (fun e s => e.noteNumber? = .ok (some (s.note.val : ℤ)) ∧
      e.duration = .ofInt ((s.stop - s.start : ℕ) : ℤ)) (es.filter (·.isPlayable)) ss := by
  induction h with
  | nil => exact .nil
  | silent hplay _ _ _ ih =>
    rw [List.filter_cons_of_neg (by simp [hplay])]
    exact ih
  | note hcontent hflaw _ _ hnumber _ _ hduration _ _ _ ih =>
    rw [List.filter_cons_of_pos (isPlayable_of_note hcontent hflaw)]
    refine .cons ⟨?_, ?_⟩ ih
    · rw [Melody.noteNumber?_of_note hcontent hflaw, hnumber]
      rfl
    · rw [Nat.add_sub_cancel_left]
      exact hduration

/-- The durations are whole, and none is longer than the greatest time. -/
theorem exists_duration (h : Sounds t es ss) :
    ∀ e ∈ es, ∃ d : ℕ, d ≤ greatestTime ∧ e.duration = .ofInt d := by
  induction h with
  | nil => exact fun e he => absurd he List.not_mem_nil
  | silent _ hduration htime _ ih =>
    exact List.forall_mem_cons.mpr ⟨⟨_, (Nat.le_add_left ..).trans htime, hduration⟩, ih⟩
  | note _ _ _ _ _ _ _ hduration _ htime _ ih =>
    exact List.forall_mem_cons.mpr ⟨⟨_, (Nat.le_add_left ..).trans htime, hduration⟩, ih⟩

/-! ## Messages -/

/-- What is no note, or has a flaw, has no number. -/
theorem noteNumber?_of_silent (h : e.isPlayable = false) : e.noteNumber? = .ok none := by
  rw [Event.noteNumber?]
  split
  · next hcontent hflaw =>
    rw [isPlayable_of_note hcontent hflaw] at h
    cases h
  · rfl

theorem messagesOfEvent_of_silent {resolution : Number} {tempo : ℤ} (h : e.isPlayable = false) :
    messagesOfEvent c velocity resolution tempo e = .ok [] := by
  rw [messagesOfEvent, noteNumber?_of_silent h]
  rfl

/-- The messages of events are those of their strokes, at the ticks that the times are written as. -/
theorem mapM_messagesOfEvent (h : Sounds t es ss) (c : Channel) (velocity : Data)
    {resolution : Number} {tempo : ℤ} {tick : ℕ → ℕ}
    (htick : ∀ k ≤ greatestTime, ticksOfMs (.ofInt k) resolution tempo = .ok (tick k))
    (hlonger : ∀ s ∈ ss, tick s.start < tick s.stop) :
    ∃ placed, es.mapM (messagesOfEvent c velocity resolution tempo) = .ok placed ∧
      placed.flatten = (ss.map (Stroke.inTicks tick)).flatMap (Stroke.messages c velocity) := by
  induction h with
  | nil => exact ⟨[], rfl, rfl⟩
  | silent hplay _ _ _ ih =>
    obtain ⟨placed, hplaced, hflatten⟩ := ih hlonger
    refine ⟨[] :: placed, ?_, hflatten⟩
    rw [List.mapM_cons, messagesOfEvent_of_silent hplay, ok_bind, hplaced]
    rfl
  | @note t d e es ss letter sharp octave n hcontent hflaw _ _ hnumber hstart hstop _ _ htime _ ih =>
    obtain ⟨hlong, hlonger⟩ := List.forall_mem_cons.mp hlonger
    obtain ⟨placed, hplaced, hflatten⟩ := ih hlonger
    have hnumber' : e.noteNumber? = .ok (some (n.val : ℤ)) := by
      rw [Melody.noteNumber?_of_note hcontent hflaw, hnumber]
      rfl
    -- the least length of one tick makes no difference, as the note takes one at least
    have hlonger' : max ((tick t : ℤ) + 1) (tick (t + d)) = tick (t + d) :=
      max_eq_right (Int.add_one_le_of_lt (Int.ofNat_lt.mpr hlong))
    refine ⟨Stroke.messages c velocity ⟨tick t, tick (t + d), n⟩ :: placed, ?_,
      congrArg (_ ++ ·) hflatten⟩
    rw [List.mapM_cons, messagesOfEvent, hnumber', mapError_ok, ok_bind]
    dsimp only
    rw [hstart, hstop, htick t (by omega), mapError_ok, ok_bind, htick _ htime, mapError_ok, ok_bind,
      Data.ofInt_val, mapError_ok, ok_bind, hplaced, hlonger']
    rfl

/-! ## Scores -/

theorem cursor_of_isAt {p : Performance.Position} (hp : IsAt t p) : p.cursor = t := by
  cases hp <;> rfl

/-- What is written of a note that is played: the pause before it, if there is any time, and itself. -/
theorem tokensFrom_played {t₀ d w : ℕ} {s : Stroke} {p : Performance.Position}
    {notes : List Performance.Note} {name token : List Char} {octave : Int}
    {pauses rest : List (List Char)} (hp : IsAt t₀ p) (hstart : s.start = t₀ + w)
    (hstop : s.stop = s.start + d) (hpos : 0 < d) (htime : s.stop ≤ greatestTime)
    (hname : Pitch.ofNoteNumber s.note.val = (name, octave))
    (hpauses : Performance.writtenPause w = .ok pauses)
    (htoken : Melody.writeNote name octave (.whole d) = .ok token)
    (hrest : Performance.tokensFrom ⟨s.stop, some (.real (tickTime s.stop))⟩ notes = .ok rest) :
    Performance.tokensFrom p (s.played c :: notes) = .ok (pauses ++ token :: rest) := by
  have hlt : s.start < s.stop := by omega
  -- the times that are read may be off a little, and both lengths are rounded back from them
  obtain ⟨duration, hduration, hnearest⟩ := nearest_duration_played (c := c) hlt htime
  have hgap := gap_played (c := c) hp (by omega) (hlt.le.trans htime)
  rw [show s.stop - s.start = d by omega] at hnearest
  rw [show s.start - t₀ = w by omega] at hgap
  have hlength : (s.played c).length = .ok (d : ℤ) := by
    rw [Performance.Note.length, hduration]
    exact hnearest
  have hcursor : p.cursor + max 0 (w : ℤ) + d = s.stop := by
    rw [cursor_of_isAt hp]
    omega
  rw [Performance.tokensFrom_cons, hgap, ok_bind, hpauses, ok_bind, hlength, ok_bind,
    show Pitch.ofNoteNumber (s.played c).pitch = (name, octave) from hname, htoken, ok_bind, hcursor,
    show (s.played c).stop = .real (tickTime s.stop) from rfl, hrest]
  rfl

/-- Condensed, a note that sounds comes after the pause for the time that has been waited. -/
theorem condenseFrom_of_isPlayable {waited : Binary64} (h : e.isPlayable = true) :
    Melody.condenseFrom waited (e :: es) =
      Melody.pauseFor waited ++ e :: Melody.condenseFrom (.ofInt (0 : ℕ)) es := by
  rw [Melody.condenseFrom, if_pos h]
  rfl

/-- The notes of a score are written as what is left of its events when they are condensed. -/
theorem tokensFrom_eq (h : Sounds t es ss) {t₀ w : ℕ} (ht : t = t₀ + w) {p : Performance.Position}
    (hp : IsAt t₀ p) :
    ∃ toks, Performance.tokensFrom p (ss.map (Stroke.played c)) = .ok toks ∧
      (Melody.condenseFrom (.ofInt w) es).mapM Melody.formatEvent = .ok toks ∧
      ∀ tok ∈ toks, Melody.IsEventText tok := by
  induction h generalizing t₀ w p with
  | nil => exact ⟨[], rfl, rfl, fun tok htok => absurd htok List.not_mem_nil⟩
  | @silent t d e es ss hplay hduration htime _ ih =>
    -- the time of the event is added to the time that has been waited
    obtain ⟨toks, htoks, hformat, hevents⟩ := ih (w := w + d) (by omega) hp
    refine ⟨toks, htoks, ?_, hevents⟩
    have hsmall := le_of_le_greatestTime htime
    have hsum : Binary64.ofInt w + e.duration = .ofInt ((w + d : ℕ) : ℤ) := by
      rw [hduration, ofInt_natCast (by omega), ofInt_natCast (by omega), ofNat_add_ofNat,
        ofInt_natCast (by omega)]
    rw [Melody.condenseFrom, hplay, if_neg Bool.false_ne_true, hsum]
    exact hformat
  | @note t d e es ss letter sharp octave n hcontent hflaw hlow hhigh hnumber _ _ hduration hpos
      htime _ ih =>
    have hsmall := le_of_le_greatestTime htime
    -- the note is written from its end on with nothing waited
    obtain ⟨rest, hrest, hformat, hevents⟩ := @ih (t + d) 0 rfl _ .ended
    obtain ⟨token, htoken, htext⟩ :=
      Melody.writeNote_ok letter sharp hlow hhigh hpos
        (isFinite_ofInt (fits_mul_one (by omega : d ≤ 2 ^ 53)))
    have hw : w ≤ 2 ^ 53 := by omega
    obtain ⟨pauses, hpauses, hpausetexts⟩ := Performance.exists_writtenPause_natCast hw
    have hname := (Pitch.ofNoteNumber_of_noteNumber hlow hhigh hnumber).2
    have hnote : Melody.formatEvent e = .ok token := by
      rw [Melody.formatEvent_note hcontent hflaw hduration (fits_mul_one (by omega)), htoken]
      rfl
    refine ⟨pauses ++ token :: rest,
      tokensFrom_played hp ht rfl hpos htime hname hpauses htoken hrest, ?_, ?_⟩
    · rw [condenseFrom_of_isPlayable (isPlayable_of_note hcontent hflaw), List.mapM_append,
        Performance.mapM_pauseFor_eq_writtenPause hw, hpauses, mapError_ok, ok_bind, List.mapM_cons,
        hnote, ok_bind, hformat]
      rfl
    · exact List.forall_mem_append.mpr ⟨hpausetexts,
        List.forall_mem_cons.mpr ⟨htext.isEventText, hevents⟩⟩

/-- The score of the notes is the condensed score, and it is read. -/
theorem score_played (h : Sounds 0 es ss) :
    ∃ m, Performance.score (ss.map (Stroke.played c)) = .ok m.text ∧
      Melody.serialize (Melody.condense es) = .ok m.text ∧ Melody.parse m.text = .ok m := by
  obtain ⟨toks, htoks, hformat, hevents⟩ :=
    h.tokensFrom_eq (c := c) (w := 0) rfl (.beginning rfl)
  obtain ⟨m, hm, htext⟩ := Melody.parse_joinTokens hevents
  refine ⟨m, ?_, ?_, htext ▸ hm⟩
  · have htoks' : Performance.tokensFrom ⟨0, none⟩ (ss.map (Stroke.played c)) = .ok toks := htoks
    rw [Performance.score, htoks', htext]
    rfl
  · rw [Melody.serialize, htext]
    exact congrArg (· >>= fun ts => .ok (Melody.joinTokens ts)) hformat

end Sounds

end Midi

end Monody
