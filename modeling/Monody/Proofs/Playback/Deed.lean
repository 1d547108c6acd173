import Monody.Proofs.Playback.Audience

/-!
# What timers do before it is told

A timer of the active session first does what it is there for, and then tells it. What it does concerns one
part of the session only: whether a part holds a note depends on its own timers, and whether a note sounds
on those of the parts that hold it.

## Main definitions

* `Task.deed` — what a timer does before anybody is told
* `Stays` — the sessions with their parts, and which one is active

## Main results

* `fire_of_deed` — what a timer goes on with is what comes of telling
* `mem_active_release`, `mem_active_sound` — which notes are turned off and on
-/

namespace Monody.Playback

variable {s s' : Playback} {id event : Nat} {p q : Part} {note : Midi.Data} {t : Timer Task}
  {melodies : List Melody}

/-! ## What a timer does -/

/-- The session is being played. -/
def Session.played (session : Session) : Session := { session with phase := .playing }

/-- What a timer does before anybody is told. -/
def Task.deed (id : Nat) : Task → Playback → Playback
  | .strike p event, s =>
    match s.stroke? id p event with
    | none => s.update id (·.played)
    | some (note, seconds) => ((s.update id (·.played)).release id p).sound id p event note seconds
  | .release p event, s => s.releaseEvent id p event
  | .endPart p, s => (s.release id p).setCursor p.performer none
  | .complete, s => s

/-- Being played makes no difference to what a part is to play. -/
theorem eventAt?_played (id : Nat) (p : Part) (event : Nat) :
    (s.update id (·.played)).eventAt? id p event = s.eventAt? id p event := by
  have hspeed : (s.update id (·.played)).speed? id = s.speed? id :=
    speed?_update (f := (·.played)) (fun _ => rfl) id id
  rw [eventAt?_eq_bind s, ← hspeed]
  exact eventAt?_eq_bind (s.update id (·.played)) id p event

/-- Where there is no note to strike, the session is played all the same, and nothing is told. -/
theorem strike_of_none (hid : s.HasTimes id) (hstroke : s.stroke? id p event = none) :
    (strike emit id p event s).2 = s.update id (·.played) := by
  have hsame : (s.update id fun session => { session with phase := .playing }).eventAt? id p event =
      s.eventAt? id p event := eventAt?_played id p event
  rw [strike]
  dsimp only
  rw [hsame]
  cases hevent : s.eventAt? id p event with
  | none => rfl
  | some x =>
    dsimp only
    cases hnote : noteOf x.1 with
    | error fault => rfl
    | ok struck =>
      cases struck with
      | none => rfl
      | some note =>
        -- what can be struck has a time to be released
        obtain ⟨seconds, hseconds⟩ := exists_soundingSeconds hid (speed?_of_eventAt? hevent) p.gate x.1
        have hsome := stroke?_eq_some_iff.mpr ⟨x.1, x.2, hevent, hnote, hseconds⟩
        rw [hstroke] at hsome
        cases hsome

/-- A note that is struck is told of by the cursor of its part, and then itself, unless its session has
ended by then. -/
theorem strike_of_some {seconds : Binary64} (hstroke : s.stroke? id p event = some (note, seconds)) :
    (strike emit id p event s).2 =
      let told := emit (.cursor p.index (some event))
        (((s.update id (·.played)).release id p).sound id p event note seconds)
      if told.IsCurrent id then emit (.note p.index event note seconds) told else told := by
  obtain ⟨e, speed, hevent, hnote, hseconds⟩ := stroke?_eq_some_iff.mp hstroke
  have hsame : (s.update id fun session => { session with phase := .playing }).eventAt? id p event =
      s.eventAt? id p event := eventAt?_played id p event
  rw [strike]
  dsimp only
  rw [hsame, hevent]
  dsimp only
  rw [hnote]
  dsimp only
  rw [hseconds]
  rfl

section Telling

variable {R : Playback → Playback → Prop} (hrefl : ∀ s, R s s)
  (htrans : ∀ {s₁ s₂ s₃}, R s₁ s₂ → R s₂ s₃ → R s₁ s₃)
  (hemit : ∀ r s, IsScored melodies s → R s (emit r s))
include hrefl htrans hemit

/-- A note is struck, or there is none to strike; then it is told. -/
theorem strike_of_deed (hs : IsScored melodies s) (hid : s.HasTimes id) (p : Part) (event : Nat) :
    R ((Task.strike p event).deed id s) (strike emit id p event s).2 := by
  rw [Task.deed]
  cases hstroke : s.stroke? id p event with
  | none =>
    rw [strike_of_none hid hstroke]
    exact hrefl _
  | some k =>
    obtain ⟨note, seconds⟩ := k
    have hthere : (((s.update id (·.played)).release id p).speed? id).isSome := by
      rw [speed?_release, speed?_update (f := (·.played)) (fun _ => rfl) id id]
      exact hid.isSome
    have hsounding : IsScored melodies (((s.update id (·.played)).release id p).sound id p event note seconds) :=
      (IsScored.stepwise melodies).sound hthere p event note seconds
        ((IsScored.stepwise melodies).release id p
          ((IsScored.stepwise melodies).update s id (·.played) (fun _ => rfl) hs))
    -- the note is told only if the session is still active when the cursor has been
    have hcursor := hemit (.cursor p.index (some event)) _ hsounding
    have htold := htrans hcursor (hemit (.note p.index event note seconds) _
      ((IsScored.stepwise melodies).emit _ _ hsounding))
    rw [strike_of_some hstroke]
    dsimp only
    split
    · exact htold
    · exact hcursor

/-- A timer of the active session, unless it completes it: what it goes on with is what comes of telling
what it has done. -/
theorem fire_of_deed (hs : IsScored melodies s) (hset : s.MaySet id t.task) (hlive : t.IsLive id)
    (hid : s.IsCurrent id) (htask : t.task ≠ .complete) : R (t.task.deed id s) (fire emit t s).2 := by
  obtain ⟨due, owner, task, cancelled⟩ := t
  obtain ⟨rfl, rfl⟩ : cancelled = false ∧ owner = id := hlive
  rw [fire, if_neg Bool.false_ne_true, if_pos hid]
  cases task with
  | strike p event => exact strike_of_deed hrefl htrans hemit hs hset p event
  | release p event => exact hrefl _
  | endPart p =>
    -- as with a note, the end is told only if the session is still active
    have hleft := (IsScored.stepwise melodies).setCursor _ p.performer none
      ((IsScored.stepwise melodies).release owner p hs)
    have hcursor := hemit (.cursor p.index none) _ hleft
    have htold := htrans hcursor (hemit (.voiceEnd p.index) _
      ((IsScored.stepwise melodies).emit _ _ hleft))
    change R _ (Playback.endPart emit owner p s)
    rw [Playback.endPart]
    split
    · exact htold
    · exact hcursor
  | complete => exact absurd rfl htask

end Telling

/-! ## Parts that hold notes -/

theorem heldBy_update {f : Session → Session}
    (hf : ∀ session : Session, (f session).held? q.index = session.held? q.index) (j : Nat) :
    (s.update j f).heldBy id q = s.heldBy id q := by
  rw [heldBy, heldBy, update_sessions, List.getElem?_modify]
  cases s.sessions[id]? with
  | none => rfl
  | some session =>
    by_cases hj : j = id
    · simp [hj, hf]
    · simp [hj]

theorem heldBy_release_of_ne (hq : q.index ≠ p.index) :
    (release id p s).heldBy id q = s.heldBy id q := by
  rw [release]
  split
  · rfl
  · exact heldBy_update (f := (·.drop p.index)) (fun _ => Session.held?_drop_of_ne hq) id

theorem heldBy_release_self (id : Nat) (p : Part) (s : Playback) : (release id p s).heldBy id p = none := by
  cases hheld : s.heldBy id p with
  | none => rwa [release_of_heldBy_none hheld]
  | some held =>
    have hbind : (s.sessions[id]?).bind (·.held? p.index) = some held := hheld
    obtain ⟨session, hsession, -⟩ := Option.bind_eq_some_iff.mp hbind
    rw [release, hbind]
    exact (heldBy_eq (sessions_update_self hsession) p).trans (session.held?_drop_self _)

/-- A part that releases its note turns it off. -/
theorem active_release_eq : (release id p s).output.active =
    match s.heldBy id p with
    | none => s.output.active
    | some held => s.output.active.erase ((p.channel.val : Int), (held.note.val : Int)) := by
  cases hheld : s.heldBy id p with
  | none => rw [release_of_heldBy_none hheld]
  | some held =>
    have hbind : (s.sessions[id]?).bind (·.held? p.index) = some held := hheld
    rw [release, hbind]
    dsimp only
    rw [through_output, Output.active_noteOff]
    rfl

/-- A part that releases its note turns off no other one. -/
theorem mem_active_release {k : Int × Int} (hk : k ∈ s.output.active) :
    k ∈ (release id p s).output.active ∨
      ∃ held, s.heldBy id p = some held ∧ k = ((p.channel.val : Int), (held.note.val : Int)) := by
  rw [active_release_eq]
  cases hheld : s.heldBy id p with
  | none => exact .inl hk
  | some held =>
    by_cases hsame : k = ((p.channel.val : Int), (held.note.val : Int))
    · exact .inr ⟨held, rfl, hsame⟩
    · exact .inl ((List.mem_erase_of_ne hsame).mpr hk)

theorem heldBy_sound_of_ne (hq : q.index ≠ p.index) (event : Nat) (note : Midi.Data) (seconds : Binary64) :
    (sound id p event note seconds s).heldBy id q = s.heldBy id q :=
  heldBy_update (f := (·.hold ⟨p.index, event, note⟩)) (fun _ => Session.held?_hold_of_ne hq) id

theorem heldBy_sound_self (hid : id < s.sessions.length) (p : Part) (event : Nat) (note : Midi.Data)
    (seconds : Binary64) :
    (sound id p event note seconds s).heldBy id p = some ⟨p.index, event, note⟩ := by
  have hheld : (sound id p event note seconds s).sessions[id]? =
      some (s.sessions[id].hold ⟨p.index, event, note⟩) :=
    sessions_update_self (List.getElem?_eq_getElem hid)
  exact (heldBy_eq hheld p).trans (Session.held?_hold_self _ ⟨p.index, event, note⟩)

/-- A part that strikes a note turns none off, and turns its own on if it is heard at all. -/
theorem mem_active_sound {k : Int × Int} (event : Nat) (seconds : Binary64)
    (hk : k ∈ s.output.active ∨
      p.velocity ≠ .zero ∧ k = ((p.channel.val : Int), (note.val : Int))) :
    k ∈ (sound id p event note seconds s).output.active := by
  have hactive : (sound id p event note seconds s).output =
      (s.output.noteOn p.channel.val note.val p.velocity.val).output := rfl
  rw [hactive, Output.noteOn, Midi.Data.clamp_val]
  split
  · next hzero => exact hk.resolve_right fun h => h.1 hzero
  · rw [Output.send_output]
    exact List.mem_insert_iff.mpr (hk.symm.imp_left And.right)

/-! ## What a timer leaves alone -/

/-- The same sessions with the same parts, and the same one is active. -/
structure Stays (s s' : Playback) : Prop where
  parts : ∀ id, s'.partsOf id = s.partsOf id
  length : s'.sessions.length = s.sessions.length
  current : s'.current = s.current

namespace Stays

theorem of_eq (hsessions : s'.sessions = s.sessions) (hcurrent : s'.current = s.current) : Stays s s' where
  parts id := partsOf_congr (by rw [hsessions])
  length := by rw [hsessions]
  current := hcurrent

theorem refl (s : Playback) : Stays s s := .of_eq rfl rfl

theorem trans {s₁ s₂ s₃ : Playback} (h : Stays s₁ s₂) (h' : Stays s₂ s₃) : Stays s₁ s₃ where
  parts id := (h'.parts id).trans (h.parts id)
  length := h'.length.trans h.length
  current := h'.current.trans h.current

theorem update (s : Playback) {f : Session → Session}
    (hf : ∀ session : Session, (f session).parts = session.parts) (j : Nat) : Stays s (s.update j f) where
  parts _ := partsOf_update hf j
  length := List.length_modify ..
  current := rfl

theorem release (id : Nat) (p : Part) (s : Playback) : Stays s (release id p s) := by
  rw [Playback.release]
  split
  · exact .refl s
  · exact (Stays.update s (f := (·.drop p.index)) (fun _ => rfl) id).trans (.of_eq rfl rfl)

theorem sound (id : Nat) (p : Part) (event : Nat) (note : Midi.Data) (seconds : Binary64) (s : Playback) :
    Stays s (sound id p event note seconds s) :=
  (Stays.update s (f := (·.hold ⟨p.index, event, note⟩)) (fun _ => rfl) id).trans
    ⟨fun _ => rfl, rfl, rfl⟩

end Stays

theorem stays_deed (task : Task) (id : Nat) (s : Playback) : Stays s (task.deed id s) := by
  cases task with
  | strike p event =>
    have hplayed := Stays.update s (f := (·.played)) (fun _ => rfl) id
    rw [Task.deed]
    cases s.stroke? id p event with
    | none => exact hplayed
    | some k => exact (hplayed.trans (.release id p _)).trans (.sound id p event k.1 k.2 _)
  | release p event =>
    rw [Task.deed]
    rcases releaseEvent_eq_or id p event s with heq | heq
    · rw [heq]
      exact Stays.release id p s
    · rw [heq]
      exact Stays.refl s
  | endPart p => exact (Stays.release id p s).trans (.of_eq rfl rfl)
  | complete => exact .refl s

end Monody.Playback
