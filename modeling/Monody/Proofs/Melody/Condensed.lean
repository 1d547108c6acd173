import Monody.Proofs.Binary64.Near
import Monody.Proofs.Melody.Timeline

/-!
# Condensed scores

A condensed score has the notes that sound, and of everything between them only the time it takes: one
pause before each note, if there is any time, and nothing after the last one. Written with durations of
whole milliseconds, its notes and pauses are read as such again.

## Main definitions

* `condense` — events with only their notes and the time between them
* `IsEventText` — characters that are one token, which is read as an event
* `IsTextOf` — characters that are read as a certain pause or note

## Main results

* `writeNote_ok`, `writePause_ok` — notes and pauses of whole durations are written
* `parse_joinTokens` — tokens that are read as events make a score
-/

namespace Monody.Melody

open Binary64

-- evaluated, the numbers of units are too long to be looked at
attribute [local irreducible] one bound

variable {d : ℕ} {e : Event} {w : List Char} {ws : List (List Char)} {letter : Letter} {sharp : Bool}
  {octave : Int}

/-! ## Condensing -/

/-- One pause of a given length, or none if that is zero. -/
def pauseFor (waited : Binary64) : List Event :=
  if waited.isZero then [] else [⟨.pause, 0, waited, waited, none, [], (0, 0)⟩]

/-- The notes of events, each behind one pause that is as long as everything between it and the note
before it. Some time has been waited before the first event. -/
def condenseFrom (waited : Binary64) : List Event → List Event
  | [] => []
  | e :: es =>
    if e.isPlayable then pauseFor waited ++ e :: condenseFrom 0 es
    else condenseFrom (waited + e.duration) es

/-- Events with only their notes and the time between them. -/
def condense (es : List Event) : List Event := condenseFrom 0 es

/-! ## Notes and pauses of whole durations -/

/-- Characters that are one token wherever they stand, and are read as an event. -/
structure IsEventText (w : List Char) : Prop where
  head : w.head? ≠ some '/'
  plain : IsPlainText w
  read : ∀ token time, token.text = w → ∃ e, eventOf token time = .ok e

/-- Characters that are one token wherever they stand, and are read as certain content with a certain
duration. -/
structure IsTextOf (content : Content) (x : Binary64) (w : List Char) : Prop where
  head : w.head? ≠ some '/'
  plain : IsPlainText w
  read : ∀ token time, token.text = w →
    eventOf token time = .ok (placed token time content (some x) none)

theorem IsTextOf.isEventText {content : Content} {x : Binary64} (h : IsTextOf content x w) :
    IsEventText w :=
  ⟨h.head, h.plain, fun token time htext => ⟨_, h.read token time htext⟩⟩

theorem placed_duration {token : Token} {time x : Binary64} {content : Content} :
    (placed token time content (some x) none).duration = x := rfl

theorem writePause_ok (hpos : 0 < d) (hd : (Binary64.ofInt d).isFinite) :
    ∃ w, writePause (.whole d) = .ok w ∧ IsTextOf .pause (.ofInt d) w := by
  obtain ⟨w, hwrite, hw⟩ := writeDuration_whole hpos hd
  refine ⟨'P' :: w, ?_, by simp, isPlainText_pauseText hw.shape.isClosed, fun token time => eventOf_pauseText hw⟩
  rw [writePause, hwrite]
  rfl

theorem writeNote_ok (letter : Letter) (sharp : Bool) (hlow : 0 ≤ octave) (hhigh : octave ≤ 8)
    (hpos : 0 < d) (hd : (Binary64.ofInt d).isFinite) :
    ∃ w, writeNote (letter.toChar :: if sharp then ['#'] else []) octave (.whole d) = .ok w ∧
      IsTextOf (.note letter sharp octave) (.ofInt d) w := by
  obtain ⟨w, hwrite, hw⟩ := writeDuration_whole hpos hd
  refine ⟨noteText letter sharp octave ++ w, ?_, ?_, isPlainText_noteText letter sharp hlow hw.shape.isClosed,
    fun token time => eventOf_noteText letter sharp hlow hhigh hw⟩
  · rw [writeNote, hwrite]
    rfl
  · simpa [noteText] using (toChar_ne letter).1

/-- A note of a whole duration is written as such. -/
theorem formatEvent_note (hcontent : e.content = .note letter sharp octave) (hflaw : e.flaw = none)
    (hduration : e.duration = .ofInt d) (hd : Fits (d * one)) :
    formatEvent e =
      (writeNote (letter.toChar :: if sharp then ['#'] else []) octave (.whole d)).mapError
        .number := by
  rw [formatEvent, hflaw, hduration, ofReal_ofInt hd, writeEvent, hcontent]
  rfl

theorem formatEvent_pause (hcontent : e.content = .pause) (hflaw : e.flaw = none)
    (hduration : e.duration = .ofInt d) (hd : Fits (d * one)) :
    formatEvent e = (writePause (.whole d)).mapError .number := by
  rw [formatEvent, hflaw, hduration, ofReal_ofInt hd, writeEvent, hcontent]
  rfl

/-- The pause for a time is written as such. -/
theorem mapM_pauseFor (hd : d ≤ 2 ^ 53) :
    (pauseFor (.ofInt d)).mapM formatEvent =
      if 0 < d then (writePause (.whole d)).mapError WriteFault.number >>= fun w => .ok [w]
      else .ok [] := by
  by_cases hpos : 0 < d
  · have hzero : (Binary64.ofInt d).isZero = false := by
      rw [ofInt_natCast hd]
      exact isZero_ofNat hd hpos
    rw [pauseFor, hzero, if_pos hpos, if_neg Bool.false_ne_true, List.mapM_cons,
      formatEvent_pause rfl rfl rfl (fits_mul_one hd)]
    rfl
  · obtain rfl : d = 0 := by omega
    have hzero : (Binary64.ofInt (0 : ℕ)).isZero = true := by
      rw [ofInt_natCast hd, ofNat, isZero, Nat.zero_mul]
      rfl
    rw [pauseFor, hzero, if_pos rfl, if_neg hpos]
    rfl

/-! ## Reading -/

/-- The characters of tokens are read as these tokens when they are joined. -/
theorem spelling_joinTokens (h : ∀ w ∈ ws, IsEventText w) :
    (tokens (joinTokens ws)).map (·.spelling) = ws.map fun w => (w, w) := by
  -- tokens with these characters, the places of which do not matter
  let ts : List Token := ws.map fun w => ⟨w, w, 0, 0⟩
  have hreadable (fresh : Bool) : Readable fresh ts := by
    induction ws generalizing fresh with
    | nil => exact .nil
    | cons w ws ih =>
      obtain ⟨hw, hws⟩ := List.forall_mem_cons.mp h
      have hstray : false = true → fresh = true := by simp
      exact .plain hstray (fun _ pos t next ht _ => hw.plain pos t next ht) (ih hws false)
  have hplain : ∀ w ∈ ws, isCommentText w = false := fun w hw => isCommentText_eq_false (h w hw).head
  have hwritten : List.Forall₂ IsWritten ts ws := by
    refine List.forall₂_map_left_iff.mpr (List.forall₂_same.mpr fun w hw => ?_)
    exact .inr ⟨hplain w hw, (h w hw).head, (h w hw).plain⟩
  have hspelling : List.zipWith spellingWritten ts ws = ws.map fun w => (w, w) := by
    rw [List.zipWith_map_left, List.zipWith_self]
    refine List.map_congr_left fun w hw => ?_
    rw [spellingWritten, hplain w hw]
    rfl
  rw [← hspelling]
  exact spelling_scan_joinTokens (hreadable true) hwritten (.inl rfl)

theorem exists_eventsFrom {ts : List Token} (time : Binary64) (h : ∀ t ∈ ts, IsEventText t.text) :
    ∃ es, eventsFrom time ts = .ok es := by
  induction ts generalizing time with
  | nil => exact ⟨[], rfl⟩
  | cons token ts ih =>
    obtain ⟨htoken, hts⟩ := List.forall_mem_cons.mp h
    obtain ⟨e, he⟩ := htoken.read token time rfl
    obtain ⟨es, hes⟩ := ih _ hts
    refine ⟨e :: es, ?_⟩
    rw [eventsFrom, he, ok_bind, hes]
    rfl

/-- Tokens that are read as events make a score. -/
theorem parse_joinTokens (h : ∀ w ∈ ws, IsEventText w) :
    ∃ m, parse (joinTokens ws) = .ok m ∧ m.text = joinTokens ws := by
  have htexts : ∀ t ∈ tokens (joinTokens ws), IsEventText t.text := by
    intro t ht
    have hmem : t.spelling ∈ ws.map fun w => (w, w) :=
      spelling_joinTokens h ▸ List.mem_map_of_mem ht
    obtain ⟨w, hw, heq⟩ := List.mem_map.mp hmem
    have htext : w = t.text := congrArg Prod.fst heq
    exact htext ▸ h w hw
  obtain ⟨es, hes⟩ := exists_eventsFrom 0 htexts
  refine ⟨⟨joinTokens ws, es⟩, ?_, rfl⟩
  rw [parse, readEvents, hes]
  rfl

end Monody.Melody
