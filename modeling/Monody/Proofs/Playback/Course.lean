import Monody.Proofs.Outcome
import Monody.Proofs.Playback.Ledger
import Monody.Proofs.Playback.Settled

/-!
# The course of a session

What the timers of a session are to bring about is known from the beginning: the melodies and the
speed do not change, so neither do the notes to be struck nor how long they sound. Each timer, when it
fires, adds just the messages and the reports that were foretold of it. Timers that release notes add
nothing, and so it does not matter when they are set and when they fire.

## Main definitions

* `stroke?` — the note of an event with the seconds that it sounds
* `Task.messages`, `Task.reports` — what a timer is to bring about
* `Playing` — an active session with the strokes that it is to play

## Main results

* `Playing.fire` — a timer adds what was foretold of it
* `Playing.complete` — the timer that completes the session leaves nothing pending
-/

namespace Monody.Playback

variable {s s' : Playback} {id : Nat} {session : Session} {part q : Part} {parts : List Part}
  {event : Nat} {note : Midi.Data} {seconds : Binary64}

/-! ## Strokes -/

/-- The event of a part is read off the melodies and the speed of the session. -/
theorem eventAt?_eq (s : Playback) (id : Nat) (part : Part) (event : Nat) :
    s.eventAt? id part event =
      (((s.performers.map (·.voice.melody))[part.performer]?).bind (·.events[event]?)).bind fun e =>
        ((s.sessions[id]?).map fun session =>
          (session.speed, session.parts, session.result, session.hasEnded)).map fun x => (e, x.1) := by
  rw [eventAt?, List.getElem?_map]
  cases s.performers[part.performer]? with
  | none => rfl
  | some p =>
    cases hevent : p.voice.melody.events[event]? with
    | none => simp [hevent]
    | some e => cases hsession : s.sessions[id]? <;> simp [hevent]

theorem Frames.eventAt? (h : Frames id s s') (part : Part) (event : Nat) :
    s'.eventAt? id part event = s.eventAt? id part event := by
  rw [eventAt?_eq, eventAt?_eq, h.session, h.melodies]

/-- The note of an event and how long it sounds when a part strikes it. -/
def stroke? (s : Playback) (id : Nat) (part : Part) (event : Nat) :
    Option (Midi.Data × Binary64) :=
  (s.eventAt? id part event).bind fun p => (noteOf p.1).toOption.join.bind fun note =>
    (soundingSeconds p.2 part.gate p.1).toOption.map fun seconds => (note, seconds)

theorem stroke?_eq_some_iff : s.stroke? id part event = some (note, seconds) ↔
    ∃ e speed, s.eventAt? id part event = some (e, speed) ∧ noteOf e = .ok (some note) ∧
      soundingSeconds speed part.gate e = .ok seconds := by
  simp only [stroke?, Option.bind_eq_some_iff, Option.map_eq_some_iff, Option.join_eq_some_iff,
    toOption_eq_some_iff, Prod.exists, Prod.mk.injEq]
  constructor
  · rintro ⟨e, speed, hevent, note', hnote, seconds', hseconds, rfl, rfl⟩
    exact ⟨e, speed, hevent, hnote, hseconds⟩
  · rintro ⟨e, speed, hevent, hnote, hseconds⟩
    exact ⟨e, speed, hevent, note, hnote, seconds, hseconds, rfl, rfl⟩

variable {stroke : Part → Nat → Option (Midi.Data × Binary64)}

/-- The messages of a part that a timer is to bring about. -/
def Task.messages (stroke : Part → Nat → Option (Midi.Data × Binary64)) (part : Part) :
    Task → List Midi.Message
  | .strike p event =>
    if part = p then (stroke p event).toList.flatMap fun k => p.messages k.1 else []
  | _ => []

/-- The reports that a timer is to bring about, but for where the parts are in their melodies. -/
def Task.reports (stroke : Part → Nat → Option (Midi.Data × Binary64)) : Task → List Report
  | .strike p event => (stroke p event).toList.map fun k => .note p.index event k.1 k.2
  | .release .. => []
  | .endPart p => [.voiceEnd p.index]
  | .complete => [.complete]

/-! ## Timers that fire -/

/-- A timer that releases a note adds nothing, whether the part still holds the note or not. -/
theorem Sounding.releaseEvent (hs : Sounding id parts s) (hparts : IsEnsemble parts)
    (hpart : part ∈ parts) (event : Nat) : Proceeds id parts (fun _ => []) [] s (releaseEvent id part event s) ∧
      (Playback.releaseEvent id part event s).clock = s.clock := by
  refine ⟨?_, releaseEvent_clock id part event⟩
  rcases releaseEvent_eq_or id part event s with heq | heq
  · rw [heq]
    exact (hs.release hparts hpart).1
  · rw [heq]
    exact hs.refl

/-- A session is active, and its strokes are known. -/
structure Playing (id : Nat) (parts : List Part)
    (stroke : Part → Nat → Option (Midi.Data × Binary64)) (s : Playback) : Prop
    extends Sounding id parts s where
  isCurrent : s.IsCurrent id
  strokes : ∀ part event, s.stroke? id part event = stroke part event

namespace Playing

theorem of_frames (hs : Playing id parts stroke s) (hframes : Frames id s s')
    (hsounding : Sounding id parts s') : Playing id parts stroke s' where
  toSounding := hsounding
  isCurrent := hframes.isCurrent hs.isCurrent
  strokes part event := by
    rw [← hs.strokes, stroke?, stroke?, hframes.eventAt?]

/-- A timer that strikes a note adds the note with its release, and sets the timer that releases it. -/
theorem strike (hs : Playing id parts stroke s) (hparts : IsEnsemble parts) (hpart : part ∈ parts)
    (hstroke : stroke part event = some (note, seconds)) :
    ∃ s', strike Playback.emit id part event s = (.ok (), s') ∧
      Proceeds id parts (fun q => if q = part then part.messages note else [])
        [.note part.index event note seconds] s s' ∧
      s'.clock = s.clock.after seconds id (.release part event) := by
  let play (session : Session) : Session := { session with phase := .playing }
  obtain ⟨-, session, hsession, hlive⟩ := hs.isCurrent
  have hplay : Frames id s (s.update id play) := .update fun session' hsession' => by
    obtain rfl := Option.some.inj (hsession.symm.trans hsession')
    rw [hlive]
    rfl
  have hplayed : Proceeds id parts (fun _ => []) [] s (s.update id play) := by
    refine hs.of_eq hplay rfl rfl rfl ?_
    rw [sessions_update_self hsession, Option.mem_def.mp hsession]
    rfl
  obtain ⟨e, speed, hevent, hnote, hseconds⟩ :=
    stroke?_eq_some_iff.mp ((hs.strokes part event).trans hstroke)
  -- one after the other: the note before is released, this one sounds, and both reports are told
  obtain ⟨hreleased, hnone⟩ := hplayed.sounding.release hparts hpart
  have hsounded := hreleased.sounding.sound hparts hpart hnone event note seconds
  have hcursor := hsounded.sounding.emit_cursor part.index (some event)
  have htold := hcursor.sounding.emit (r := .note part.index event note seconds) nofun
  have hall := hplayed.trans (hreleased.trans (hsounded.trans (hcursor.trans htold)))
  have hclock : (release id part (s.update id play)).clock = s.clock := release_clock ..
  have hcurrent := (hplayed.trans (hreleased.trans (hsounded.trans hcursor))).frames.isCurrent
    hs.isCurrent
  refine ⟨_, ?_, by simpa using hall, ?_⟩
  · rw [Playback.strike]
    dsimp only
    rw [hplay.eventAt?, hevent]
    dsimp only
    rw [hnote]
    dsimp only
    rw [hseconds]
    dsimp only
    rw [if_pos hcurrent]
  · rw [emit_clock hcursor.sounding.logging, emit_clock hsounded.sounding.logging, ← hclock]
    rfl

/-- A timer that ends a part tells so. -/
theorem endPart (hs : Playing id parts stroke s) (hparts : IsEnsemble parts) (hpart : part ∈ parts) :
    Proceeds id parts (fun _ => []) [.voiceEnd part.index] s (endPart Playback.emit id part s) ∧
      (Playback.endPart Playback.emit id part s).clock = s.clock := by
  obtain ⟨hreleased, -⟩ := hs.release hparts hpart
  have hleft := hreleased.sounding.setCursor part.performer none
  have hcursor := hleft.sounding.emit_cursor part.index none
  have htold := hcursor.sounding.emit (r := .voiceEnd part.index) nofun
  have hall := hreleased.trans (hleft.trans (hcursor.trans htold))
  have hcurrent := (hreleased.trans (hleft.trans hcursor)).frames.isCurrent hs.isCurrent
  rw [Playback.endPart, if_pos hcurrent]
  refine ⟨by simpa using hall, ?_⟩
  rw [emit_clock hcursor.sounding.logging, emit_clock hleft.sounding.logging]
  exact release_clock ..

/-- A timer adds what was foretold of it, and at most sets a timer that releases a note. -/
theorem fire {t : Timer Task} (hs : Playing id parts stroke s) (hparts : IsEnsemble parts)
    (hlive : t.cancelled = false) (howner : t.owner = id) (hpart : ∀ p ∈ t.task.part?, p ∈ parts)
    (hstroke : ∀ p event, t.task = .strike p event → (stroke p event).isSome)
    (hother : t.task ≠ .complete) :
    ∃ s', fire Playback.emit t s = (.ok (), s') ∧
      Proceeds id parts (fun q => t.task.messages stroke q) (t.task.reports stroke) s s' ∧
      (s'.clock = s.clock ∨ ∃ p ∈ parts, ∃ event seconds, t.task = .strike p event ∧
        s'.clock = s.clock.after seconds id (.release p event)) := by
  obtain ⟨due, owner, task, cancelled⟩ := t
  dsimp only at hlive howner hpart hstroke hother
  subst hlive howner
  rw [Playback.fire]
  dsimp only
  rw [if_neg Bool.false_ne_true, if_pos hs.isCurrent]
  -- each kind of timer brings about what was foretold of it
  cases task with
  | strike p event =>
    have hp : p ∈ parts := hpart p rfl
    obtain ⟨⟨note, seconds⟩, hstroke⟩ := Option.isSome_iff_exists.mp (hstroke p event rfl)
    obtain ⟨s', hfire, hproceeds, hclock⟩ := hs.strike hparts hp hstroke
    refine ⟨s', hfire, ?_, .inr ⟨p, hp, event, seconds, rfl, hclock⟩⟩
    simp only [Task.messages, Task.reports, hstroke]
    exact hproceeds
  | release p event =>
    obtain ⟨hproceeds, hclock⟩ := hs.toSounding.releaseEvent hparts (hpart p rfl) event
    exact ⟨_, rfl, hproceeds, .inl hclock⟩
  | endPart p =>
    obtain ⟨hproceeds, hclock⟩ := hs.endPart hparts (hpart p rfl)
    exact ⟨_, rfl, hproceeds, .inl hclock⟩
  | complete => exact absurd rfl hother

end Playing

/-! ## Completing the session -/

/-- A part that held no note holds none after another one, or a part of another session, has released its
own. -/
theorem heldBy_release_of_none {j : Nat} (hq : s.heldBy id q = none) :
    (release j part s).heldBy id q = none := by
  rw [release]
  split
  · exact hq
  · by_cases hj : j = id
    · subst hj
      cases hsession : s.sessions[j]? with
      | none =>
        rw [heldBy, through_sessions, update_sessions, List.getElem?_modify_eq, hsession]
        rfl
      | some session =>
        rw [heldBy_eq hsession] at hq
        refine (heldBy_eq (sessions_update_self hsession) q).trans ?_
        by_cases hindex : q.index = part.index
        · rw [hindex]
          exact session.held?_drop_self _
        · rw [Session.held?_drop_of_ne hindex, hq]
    · rw [heldBy, through_sessions, sessions_update_of_ne hj]
      exact hq

namespace Sounding

/-- A part that leaves the session holds no note any more. -/
theorem leave (hs : Sounding id parts s) (hparts : IsEnsemble parts) (hpart : part ∈ parts) :
    Proceeds id parts (fun _ => []) [] s (leave Playback.emit id s part) ∧
      (Playback.leave Playback.emit id s part).clock = s.clock ∧
      ∀ q, q = part ∨ s.heldBy id q = none →
        (Playback.leave Playback.emit id s part).heldBy id q = none := by
  obtain ⟨hreleased, hnone⟩ := hs.release hparts hpart
  have hsilent (q : Part) (hq : q = part ∨ s.heldBy id q = none) :
      (Playback.release id part s).heldBy id q = none := by
    rcases hq with rfl | hq
    · exact hnone
    · exact heldBy_release_of_none hq
  rw [Playback.leave]
  split
  · have hleft := hreleased.sounding.setCursor part.performer none
    have hcursor := hleft.sounding.emit_cursor part.index none
    refine ⟨by simpa using hreleased.trans (hleft.trans hcursor), ?_, fun q hq => ?_⟩
    · rw [emit_clock hleft.sounding.logging]
      exact release_clock ..
    · rw [heldBy, emit_sessions hleft.sounding.logging]
      exact hsilent q hq
  · exact ⟨hreleased, release_clock .., hsilent⟩

theorem foldl_leave (hs : Sounding id parts s) (hparts : IsEnsemble parts) {ps : List Part}
    (hps : ∀ p ∈ ps, p ∈ parts) :
    Proceeds id parts (fun _ => []) [] s (ps.foldl (Playback.leave Playback.emit id) s) ∧
      (ps.foldl (Playback.leave Playback.emit id) s).clock = s.clock ∧
      ∀ q, q ∈ ps ∨ s.heldBy id q = none →
        (ps.foldl (Playback.leave Playback.emit id) s).heldBy id q = none := by
  induction ps generalizing s with
  | nil => exact ⟨hs.refl, rfl, fun q hq => hq.resolve_left List.not_mem_nil⟩
  | cons p ps ih =>
    obtain ⟨hp, hps⟩ := List.forall_mem_cons.mp hps
    obtain ⟨hleft, hclock, hsilent⟩ := hs.leave hparts hp
    obtain ⟨hrest, hclock', hsilent'⟩ := ih hleft.sounding hps
    refine ⟨by simpa using hleft.trans hrest, hclock'.trans hclock, fun q hq => hsilent' q ?_⟩
    rcases hq with hq | hq
    · exact (List.mem_cons.mp hq).symm.imp_right fun heq => hsilent q (.inl heq)
    · exact .inr (hsilent q (.inr hq))

/-- A session that has just ended still holds its notes. -/
theorem conclude (hs : Sounding id parts s) (how : Ending) :
    Sounding id parts (s.conclude id how) ∧
      Adds id parts (fun _ => []) [] s (s.conclude id how) := by
  obtain ⟨session, hsession, hsame, hresult⟩ := hs.session
  have hsession' : (s.conclude id how).sessions[id]? = some { session with phase := .ended how } :=
    sessions_update_self hsession
  have hheld : ((s.conclude id how).sessions[id]?).map (·.held) = (s.sessions[id]?).map (·.held) := by
    rw [hsession, hsession']
    rfl
  refine ⟨⟨hs.logging, hs.connected, ⟨_, hsession', hsame, hresult⟩, fun part hpart h hh => ?_⟩,
    .of_eq rfl hheld⟩
  exact hs.held part hpart h (heldBy_congr hheld ▸ hh)

end Sounding

/-- A session has been ended: its result is recorded, and none of its parts holds a note. -/
structure IsFinished (id : Nat) (parts : List Part) (how : Ending) (s s' : Playback) : Prop where
  logging : s'.IsLogging
  idle : s'.current = none
  clock : s'.clock = s.clock.cancel id
  result : ∃ session, s'.sessions[id]? = some session ∧ session.result = some how
  silent : ∀ part ∈ parts, s'.heldBy id part = none
  adds : Adds id parts (fun _ => []) [] s s'

/-- The session is concluded, all parts leave it, and its result is recorded. -/
theorem Playing.finish (hs : Playing id parts stroke s) (hparts : IsEnsemble parts) (how : Ending) :
    IsFinished id parts how s (Playback.finish Playback.emit id how s) := by
  obtain ⟨hcurrent, session, hsession, hlive⟩ := hs.isCurrent
  obtain ⟨session', hsession', hsame, -⟩ := hs.session
  obtain rfl := Option.some.inj (hsession.symm.trans hsession')
  obtain ⟨hconcluded, hadds⟩ := hs.conclude how
  obtain ⟨hleft, hclock, hsilent⟩ := hconcluded.foldl_leave hparts fun _ (hp : _ ∈ parts) => hp
  rw [finish_of_live hsession hlive, hsame]
  set s₁ := parts.foldl (leave Playback.emit id) (s.conclude id how)
  obtain ⟨session₁, hsession₁, -, hresult⟩ := hleft.sounding.session
  have hresolved : (s₁.update id (·.resolve how)).sessions[id]? = some (session₁.resolve how) :=
    sessions_update_self hsession₁
  have hheld : ((s₁.update id (·.resolve how)).sessions[id]?).map (·.held) =
      (s₁.sessions[id]?).map (·.held) := by
    rw [hresolved, hsession₁]
    rfl
  have hquiet : Adds id parts (fun _ => []) [] s₁ (s₁.update id (·.resolve how)) := .of_eq rfl hheld
  exact {
    logging := hleft.sounding.logging
    idle := hleft.frames.current.trans (if_pos hcurrent)
    clock := hclock
    -- there was no result before, so that this one stands
    result := ⟨session₁.resolve how, hresolved, by rw [Session.resolve, hresult]; rfl⟩
    silent := fun part hpart => (heldBy_congr hheld).trans (hsilent part (.inl hpart))
    adds := by simpa using hadds.trans (hleft.toAdds.trans hquiet) }

/-- A session has been completed, and nothing of it is left: no timer is pending, and none of its
parts holds a note. -/
structure IsOver (id : Nat) (parts : List Part) (s : Playback) : Prop where
  idle : s.current = none
  timers : s.clock.timers = []
  result : ∃ session, s.sessions[id]? = some session ∧ session.result = some .completed
  silent : ∀ part ∈ parts, s.heldBy id part = none
  last : (reportsIn s.log).getLast? = some .complete

/-- The timer that completes the session tells so in the end. -/
theorem Playing.complete (hs : Playing id parts stroke s) (hparts : IsEnsemble parts)
    (hcancels : s.clock.cancels = true) (howner : ∀ t ∈ s.clock.timers, t.owner = id) :
    IsOver id parts (Playback.emit .complete (Playback.finish Playback.emit id .completed s)) ∧
      Adds id parts (fun _ => []) [.complete] s
        (Playback.emit .complete (Playback.finish Playback.emit id .completed s)) ∧
      (Playback.emit .complete (Playback.finish Playback.emit id .completed s)).clock =
        s.clock.cancel id := by
  have hfinished := hs.finish hparts .completed
  have hlogging := hfinished.logging
  have htold : Adds id parts (fun _ => []) [.complete]
      (Playback.finish Playback.emit id .completed s)
      (Playback.emit .complete (Playback.finish Playback.emit id .completed s)) := .emit hlogging .complete
  have hclock := (emit_clock hlogging .complete).trans hfinished.clock
  have hsessions := emit_sessions hlogging .complete
  -- telling that it is complete changes nothing but the log
  exact ⟨{
    idle := (emit_current hlogging .complete).trans hfinished.idle
    timers := by
      rw [hclock]
      exact Clock.timers_cancel hcancels howner
    result := by
      rw [hsessions]
      exact hfinished.result
    silent := fun part hpart => by
      rw [heldBy, hsessions]
      exact hfinished.silent part hpart
    last := by rw [reportsIn_emit hlogging, List.getLast?_concat] },
    by simpa using hfinished.adds.trans htold, hclock⟩

end Monody.Playback
