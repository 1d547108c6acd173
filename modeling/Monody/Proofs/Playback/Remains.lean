import Monody.Proofs.Playback.Concert

/-!
# What remains of what has been played

Where listeners only log, nobody interferes with a session while it ends, and so nothing of it remains:
every note that sounds is held by a part of the active session, and every performer who is at an event is
one of its parts. When it is stopped, its parts leave it one after another, and with each goes what is its
own. Of everything else only the clock remembers it, by timers that are cancelled or belong to no active
session, and the log.

## Main definitions

* `Remains` — what sounds is held by some parts, and whoever is at an event is one of them
* `Hushes` — what ending sessions leaves alone
* `IsLeft` — some parts have still to leave a session that ends
* `IsKempt` — nothing remains but what is the active session's

## Main results

* `IsLeft.foldl_leave` — parts that leave a session take with them what is their own
* `IsKempt.stop` — where a session has been stopped, nothing remains
* `IsKempt.fire` — a timer of the active session concerns only its parts
* `isKempt_performAll` — nothing ever remains but what is the active session's
-/

namespace Monody.Playback

variable {s s' : Playback} {id event : Nat} {p q : Part} {ps : List Part} {note : Midi.Data}
  {t : Timer Task} {rest : List (Timer Task)} {melodies : List Melody}

/-- What is told to listeners that only log changes nothing else. -/
theorem told_emit (h : s.IsLogging) (r : Report) : Told s (emit r s) := by
  obtain ⟨k, ls, -, heq⟩ := emit_eq h r
  rw [heq]
  exact ⟨rfl, rfl, rfl, rfl, rfl⟩

/-! ## What sounds and who plays -/

/-- What sounds is held by some parts of a session, and whoever is at an event is one of them. -/
structure Remains (id : Nat) (ps : List Part) (s : Playback) : Prop where
  nodup : s.output.active.Nodup
  active : ∀ k ∈ s.output.active, ∃ p ∈ ps, ∃ held, s.heldBy id p = some held ∧
    k = ((p.channel.val : Int), (held.note.val : Int))
  cursors : ∀ i, (s.cursor? i).isSome → ∃ p ∈ ps, p.performer = i

namespace Remains

theorem congr (h : Remains id ps s) (hactive : s'.output.active = s.output.active)
    (hheld : ∀ p, s'.heldBy id p = s.heldBy id p) (hperformers : s'.performers = s.performers) :
    Remains id ps s' where
  nodup := hactive ▸ h.nodup
  active k hk := by
    obtain ⟨p, hp, held, hheld', hkey⟩ := h.active k (hactive ▸ hk)
    exact ⟨p, hp, held, (hheld p).trans hheld', hkey⟩
  cursors i hi := by
    rw [cursor?, hperformers] at hi
    exact h.cursors i hi

theorem told (h : Remains id ps s) (ht : Told s s') : Remains id ps s' :=
  h.congr (by rw [ht.output]) (fun p => by rw [heldBy, heldBy, ht.sessions]) ht.performers

theorem update {f : Session → Session} (hf : ∀ session : Session, (f session).held = session.held)
    (h : Remains id ps s) (j : Nat) : Remains id ps (s.update j f) :=
  h.congr rfl (fun _ => heldBy_update (fun session => by rw [Session.held?, hf, Session.held?]) j) rfl

theorem mono {qs : List Part} (h : Remains id ps s) (hsub : ∀ p ∈ ps, p ∈ qs) : Remains id qs s where
  nodup := h.nodup
  active k hk := by
    obtain ⟨p, hp, hheld⟩ := h.active k hk
    exact ⟨p, hsub p hp, hheld⟩
  cursors i hi := by
    obtain ⟨p, hp, hperformer⟩ := h.cursors i hi
    exact ⟨p, hsub p hp, hperformer⟩

/-- Where there are no parts, nothing sounds and nobody plays. -/
theorem nil_iff : Remains id [] s ↔ s.output.active = [] ∧ ∀ i, s.cursor? i = none := by
  constructor
  · intro h
    refine ⟨List.eq_nil_iff_forall_not_mem.mpr fun k hk => ?_, fun i => ?_⟩
    · obtain ⟨p, hp, -⟩ := h.active k hk
      exact absurd hp List.not_mem_nil
    · by_contra hsome
      obtain ⟨p, hp, -⟩ := h.cursors i (Option.isSome_iff_ne_none.mpr hsome)
      exact absurd hp List.not_mem_nil
  · rintro ⟨hactive, hcursors⟩
    refine ⟨hactive ▸ List.nodup_nil, fun k hk => ?_, fun i hi => ?_⟩
    · rw [hactive] at hk
      exact absurd hk List.not_mem_nil
    · rw [hcursors i] at hi
      cases hi

/-- A call that starts no note. -/
theorem lessen (h : Remains id ps s) {call : Output → Output.Effect} (hcall : Output.Lessens call) :
    Remains id ps (s.through call) where
  nodup := (hcall s.output).nodup h.nodup
  active k hk := h.active k ((hcall s.output).subset hk)
  cursors := h.cursors

/-- A performer leaves his place. -/
theorem setCursor_none (h : Remains id ps s) (i : Nat) : Remains id ps (s.setCursor i none) where
  nodup := h.nodup
  active := h.active
  cursors j hj := by
    rcases isSome_cursor?_setCursor hj with ⟨-, hnone⟩ | ⟨-, hj⟩
    · cases hnone
    · exact h.cursors j hj

section Parts

variable (h : Remains id ps s) (hdistinct : ∀ q ∈ ps, q.index = p.index → q = p)
include h hdistinct

/-- When a part has released its note, what sounds is held by others. -/
theorem active_release : ∀ k ∈ (release id p s).output.active, ∃ q ∈ ps, q ≠ p ∧ ∃ held,
    (release id p s).heldBy id q = some held ∧ k = ((q.channel.val : Int), (held.note.val : Int)) := by
  intro k hk
  have hmem : k ∈ s.output.active := by
    rw [active_release_eq] at hk
    split at hk
    · exact hk
    · exact List.mem_of_mem_erase hk
  obtain ⟨q, hq, held, hheld, hkey⟩ := h.active k hmem
  have hqp : q ≠ p := by
    rintro rfl
    -- its own note has been turned off
    rw [active_release_eq, hheld, hkey] at hk
    exact h.nodup.not_mem_erase hk
  have hindex : q.index ≠ p.index := fun heq => hqp (hdistinct q hq heq)
  exact ⟨q, hq, hqp, held, (heldBy_release_of_ne hindex).trans hheld, hkey⟩

theorem release : Remains id ps (release id p s) where
  nodup := by
    rw [active_release_eq]
    split
    · exact h.nodup
    · exact h.nodup.erase _
  active k hk := by
    obtain ⟨q, hq, -, hheld⟩ := h.active_release hdistinct k hk
    exact ⟨q, hq, hheld⟩
  cursors i hi := by
    rw [cursor?, release_performers] at hi
    exact h.cursors i hi

/-- A part that strikes a note holds it, and its performer is at the event. -/
theorem sound (hp : p ∈ ps) (hid : id < s.sessions.length) (event : Nat) (note : Midi.Data)
    (seconds : Binary64) : Remains id ps (sound id p event note seconds (Playback.release id p s)) where
  nodup := Output.nodup_active_noteOn _ _ _ (h.release hdistinct).nodup
  active k hk := by
    rcases Output.active_noteOn hk with rfl | hk
    · have hlength := (Stays.release id p s).length
      exact ⟨p, hp, _, heldBy_sound_self (hlength.symm ▸ hid) p event note seconds, rfl⟩
    · obtain ⟨q, hq, hqp, held, hheld, hkey⟩ := h.active_release hdistinct k hk
      have hindex : q.index ≠ p.index := fun heq => hqp (hdistinct q hq heq)
      exact ⟨q, hq, held, (heldBy_sound_of_ne hindex event note seconds).trans hheld, hkey⟩
  cursors i hi := by
    rcases isSome_cursor?_setCursor hi with ⟨rfl, -⟩ | ⟨-, hi⟩
    · exact ⟨p, hp, rfl⟩
    · exact (h.release hdistinct).cursors i hi

end Parts

end Remains

/-! ## Ending a session -/

/-- The entry is not a message that selects a program. -/
def Entry.IsNoProgram (e : Entry) : Prop :=
  ∀ channel program, e ≠ .signal (.message (.program channel program))

/-- What ending sessions leaves alone: the time, when timers are due and whose they are, how many sessions
there are, the connection, and the voices. In the log it leaves no message that selects a program. -/
structure Hushes (s s' : Playback) : Prop where
  now : s'.clock.now = s.clock.now
  cancels : s'.clock.cancels = s.clock.cancels
  queue : s'.clock.queue.map (fun t => (t.due, t.owner)) = s.clock.queue.map fun t => (t.due, t.owner)
  length : s'.sessions.length = s.sessions.length
  output : { s'.output with active := [] } = { s.output with active := [] }
  voices : s'.performers.map (·.voice) = s.performers.map (·.voice)
  defaultSpeed : s'.defaultSpeed = s.defaultSpeed
  log : ∃ entries, s'.log = s.log ++ entries ∧ ∀ e ∈ entries, e.IsNoProgram

namespace Hushes

theorem refl (s : Playback) : Hushes s s :=
  ⟨rfl, rfl, rfl, rfl, rfl, rfl, rfl, [], (List.append_nil _).symm, fun _ h => absurd h List.not_mem_nil⟩

theorem trans {s₁ s₂ s₃ : Playback} (h : Hushes s₁ s₂) (h' : Hushes s₂ s₃) : Hushes s₁ s₃ where
  now := h'.now.trans h.now
  cancels := h'.cancels.trans h.cancels
  queue := h'.queue.trans h.queue
  length := h'.length.trans h.length
  output := h'.output.trans h.output
  voices := h'.voices.trans h.voices
  defaultSpeed := h'.defaultSpeed.trans h.defaultSpeed
  log := by
    obtain ⟨entries, hlog, hentries⟩ := h.log
    obtain ⟨entries', hlog', hentries'⟩ := h'.log
    refine ⟨entries ++ entries', by rw [hlog', hlog, List.append_assoc], ?_⟩
    exact List.forall_mem_append.mpr ⟨hentries, hentries'⟩

theorem update (s : Playback) (id : Nat) (f : Session → Session) : Hushes s (s.update id f) :=
  { refl s with length := List.length_modify .. }

theorem setCursor (s : Playback) (i : Nat) (event : Option Nat) : Hushes s (s.setCursor i event) :=
  { refl s with
    voices := map_modify_of_eq (f := fun p : Performer => { p with cursor := event }) (fun _ => rfl) i }

theorem conclude (s : Playback) (id : Nat) (how : Ending) : Hushes s (s.conclude id how) := by
  have hclock : (s.conclude id how).clock = s.clock.cancel id := rfl
  refine { refl s with now := ?_, cancels := ?_, queue := ?_, length := List.length_modify .. } <;>
    rw [hclock, Clock.cancel] <;> split
  · rfl
  · rfl
  · rfl
  · rfl
  · rw [List.map_map]
    rfl
  · rfl

theorem release (id : Nat) (p : Part) (s : Playback) : Hushes s (release id p s) := by
  rw [Playback.release]
  split
  · exact refl s
  · next held _ =>
    refine (update s id (·.drop p.index)).trans { refl _ with output := ?_, log := ⟨_, rfl, ?_⟩ }
    · rw [through_output, Output.noteOff]
      split
      · rw [Output.send_output]
      · rfl
    · refine List.forall_mem_map.mpr fun x hx => ?_
      rw [Output.eq_of_mem_signals_noteOff hx]
      rintro channel program ⟨⟩

theorem emit (h : s.IsLogging) (r : Report) : Hushes s (emit r s) := by
  obtain ⟨k, ls, -, heq⟩ := emit_eq h r
  rw [heq]
  refine { refl s with log := ⟨_, rfl, fun e he => ?_⟩ }
  rcases List.mem_cons.mp he with rfl | he
  · rintro channel program ⟨⟩
  · rw [List.eq_of_mem_replicate he]
    rintro channel program ⟨⟩

end Hushes

/-- Some parts have still to leave a session that ends; all others have taken with them what was theirs. -/
structure IsLeft (id : Nat) (ps : List Part) (s s' : Playback) : Prop where
  hushes : Hushes s s'
  logging : s'.IsLogging
  current : s'.current = none
  remains : Remains id ps s'

namespace IsLeft

theorem told (h : IsLeft id ps s s') (r : Report) : IsLeft id ps s (emit r s') where
  hushes := h.hushes.trans (.emit h.logging r)
  logging := isLogging_emit h.logging r
  current := (emit_current h.logging r).trans h.current
  remains := h.remains.told (told_emit h.logging r)

/-- A part that leaves takes with it its note and its performer's place. -/
theorem leave (h : IsLeft id (p :: ps) s s') (hdistinct : ∀ q ∈ ps, q.index = p.index → q = p) :
    IsLeft id ps s (leave emit id s' p) := by
  have hall : ∀ q ∈ p :: ps, q.index = p.index → q = p := List.forall_mem_cons.mpr ⟨fun _ => rfl, hdistinct⟩
  -- when it has left, what sounds belongs to those who are yet to leave
  have hreleased := h.remains.release hall
  have hactive : ∀ k ∈ (release id p s').output.active, ∃ q ∈ ps, ∃ held,
      (release id p s').heldBy id q = some held ∧ k = ((q.channel.val : Int), (held.note.val : Int)) := by
    intro k hk
    obtain ⟨q, hq, hqp, hheld⟩ := h.remains.active_release hall k hk
    exact ⟨q, (List.mem_cons.mp hq).resolve_left hqp, hheld⟩
  have hlogging : (release id p s').IsLogging := h.logging.congr (release_listeners id p)
  have hcurrent := (release_current (s := s') id p).trans h.current
  have hhushes := h.hushes.trans (.release id p s')
  rw [Playback.leave]
  split
  · refine told ⟨hhushes.trans (.setCursor _ _ none), hlogging, hcurrent, hreleased.nodup, hactive, ?_⟩ _
    intro i hi
    rcases isSome_cursor?_setCursor hi with ⟨-, hnone⟩ | ⟨hne, hi⟩
    · cases hnone
    · obtain ⟨q, hq, rfl⟩ := hreleased.cursors i hi
      refine ⟨q, (List.mem_cons.mp hq).resolve_left ?_, rfl⟩
      rintro rfl
      exact hne rfl
  · next hnone =>
    refine ⟨hhushes, hlogging, hcurrent, hreleased.nodup, hactive, fun i hi => ?_⟩
    obtain ⟨q, hq, rfl⟩ := hreleased.cursors i hi
    refine ⟨q, (List.mem_cons.mp hq).resolve_left ?_, rfl⟩
    rintro rfl
    exact hnone hi

/-- Parts that leave a session take with them what is their own. -/
theorem foldl_leave (h : IsLeft id ps s s') (hdistinct : ∀ p ∈ ps, ∀ q ∈ ps, q.index = p.index → q = p) :
    IsLeft id [] s (ps.foldl (Playback.leave Playback.emit id) s') := by
  induction ps generalizing s' with
  | nil => exact h
  | cons p ps ih =>
    obtain ⟨hp, hps⟩ := List.forall_mem_cons.mp hdistinct
    refine ih (h.leave (List.forall_mem_cons.mp hp).2) fun q hq => ?_
    exact (List.forall_mem_cons.mp (hps q hq)).2

end IsLeft

/-- Nothing remains but what is the active session's, which has not ended, and listeners only log. -/
structure IsKempt (s : Playback) : Prop where
  logging : s.IsLogging
  live : ∀ id, s.current = some id → s.IsCurrent id
  remains : ∀ id, s.current = some id → Remains id (s.partsOf id) s
  silent : s.current = none → Remains 0 [] s

/-- When the active session ends, nothing remains. -/
theorem IsKempt.finish (h : IsKempt s) (hid : s.current = some id)
    (hdistinct : ∀ p ∈ s.partsOf id, ∀ q ∈ s.partsOf id, q.index = p.index → q = p) (how : Ending) :
    IsLeft id [] s (finish emit id how s) := by
  obtain ⟨-, session, hsession, hlive⟩ := h.live id hid
  have hparts : s.partsOf id = session.parts := partsOf_eq hsession
  rw [hparts] at hdistinct
  have hremains : Remains id session.parts (s.conclude id how) := by
    rw [← hparts]
    exact (h.remains id hid).congr rfl
      (fun _ => heldBy_update (f := fun session => { session with phase := .ended how }) (fun _ => rfl) id) rfl
  have hconcluded : IsLeft id session.parts s (s.conclude id how) :=
    ⟨.conclude s id how, h.logging.congr rfl, if_pos hid, hremains⟩
  have hleft := hconcluded.foldl_leave hdistinct
  rw [finish_of_live hsession hlive]
  exact ⟨hleft.hushes.trans (.update _ id (·.resolve how)), hleft.logging.congr rfl, hleft.current,
    hleft.remains.update (f := (·.resolve how)) (fun _ => rfl) id⟩

/-- Where no session is active and nothing remains, all is kempt. -/
theorem IsLeft.isKempt (h : IsLeft id [] s s') : IsKempt s' where
  logging := h.logging
  live j hj := by
    rw [h.current] at hj
    cases hj
  remains j hj := by
    rw [h.current] at hj
    cases hj
  silent _ := Remains.nil_iff.mpr (Remains.nil_iff.mp h.remains)

/-- Where what was active has been stopped, nothing remains. -/
theorem IsKempt.stop (h : IsKempt s) (hs : IsConcert melodies s) : IsLeft 0 [] s (stop emit s) := by
  rw [Playback.stop]
  cases hcurrent : s.current with
  | none => exact ⟨.refl s, h.logging, hcurrent, h.silent hcurrent⟩
  | some id =>
    have horder := hs.order id (h.live id hcurrent)
    have hfinished := (h.finish hcurrent (fun p hp q hq => horder.distinct q hq p hp) .cancelled).told .stop
    exact ⟨hfinished.hushes, hfinished.logging, hfinished.current,
      Remains.nil_iff.mpr (Remains.nil_iff.mp hfinished.remains)⟩

/-! ## All that happens to playback -/

namespace IsKempt

theorem told (h : IsKempt s) (r : Report) : IsKempt (emit r s) := by
  have ht := told_emit h.logging r
  have hsame (id : Nat) : (emit r s).IsCurrent id ↔ s.IsCurrent id := by
    rw [IsCurrent, IsCurrent, ht.current, ht.sessions]
  have hparts (id : Nat) : (emit r s).partsOf id = s.partsOf id := partsOf_congr (by rw [ht.sessions])
  refine ⟨isLogging_emit h.logging r, fun id hid => ?_, fun id hid => ?_, fun hid => ?_⟩ <;>
    rw [ht.current] at hid
  · exact (hsame id).mpr (h.live id hid)
  · rw [hparts]
    exact (h.remains id hid).told ht
  · exact (h.silent hid).told ht

/-- A change of the active session that does not end it, where what remains is its parts'. -/
theorem of_stays (hstays : Stays s s') (hlogging : s'.IsLogging) (hid : s.current = some id)
    (hlive : s'.IsCurrent id) (hremains : Remains id (s.partsOf id) s') : IsKempt s' := by
  have hcurrent := hstays.current.trans hid
  refine ⟨hlogging, fun j hj => ?_, fun j hj => ?_, fun hnone => ?_⟩
  · obtain rfl := Option.some.inj (hcurrent.symm.trans hj)
    exact hlive
  · obtain rfl := Option.some.inj (hcurrent.symm.trans hj)
    rw [hstays.parts]
    exact hremains
  · rw [hcurrent] at hnone
    cases hnone

end IsKempt

/-- A session goes on being active where it is not ended. -/
theorem IsCurrent.update (h : s.IsCurrent id) {f : Session → Session}
    (hf : ∀ session : Session, session.hasEnded = false → (f session).hasEnded = false) (j : Nat) :
    (s.update j f).IsCurrent id := by
  obtain ⟨hcurrent, session, hsession, hlive⟩ := h
  by_cases hj : j = id
  · subst hj
    exact ⟨hcurrent, f session, sessions_update_self hsession, hf session hlive⟩
  · exact ⟨hcurrent, session, (sessions_update_of_ne hj).trans hsession, hlive⟩

theorem IsCurrent.release (h : s.IsCurrent id) (j : Nat) (p : Part) : (release j p s).IsCurrent id := by
  rw [Playback.release]
  split
  · exact h
  · exact h.update (f := (·.drop p.index)) (fun _ hlive => hlive) j

theorem isCurrent_deed (h : s.IsCurrent id) (task : Task) : (task.deed id s).IsCurrent id := by
  cases task with
  | strike p event =>
    have hplayed := h.update (f := (·.played)) (fun _ _ => rfl) id
    rw [Task.deed]
    cases s.stroke? id p event with
    | none => exact hplayed
    | some k =>
      exact (hplayed.release id p).update (f := (·.hold ⟨p.index, event, k.1⟩)) (fun _ hlive => hlive) id
  | release p event =>
    rw [Task.deed]
    rcases releaseEvent_eq_or id p event s with heq | heq
    · rw [heq]
      exact h.release id p
    · rw [heq]
      exact h
  | endPart p => exact h.release id p
  | complete => exact h

/-- What a timer does to a part of the active session concerns what remains of this part only. -/
theorem IsKempt.deed (h : IsKempt s) (hid : s.IsCurrent id) {task : Task}
    (hdistinct : ∀ p ∈ s.partsOf id, ∀ q ∈ s.partsOf id, q.index = p.index → q = p)
    (hpart : ∀ p ∈ task.part?, p ∈ s.partsOf id) : IsKempt (task.deed id s) := by
  have hremains := h.remains id hid.1
  have hall {p : Part} (hp : p ∈ task.part?) := hdistinct p (hpart p hp)
  refine .of_stays (stays_deed task id s) ?_ hid.1 (isCurrent_deed hid task) ?_
  -- listeners go on logging, whatever the timer does
  · cases task with
    | strike p event =>
      rw [Task.deed]
      split
      · exact h.logging.congr rfl
      · exact h.logging.congr (release_listeners (s := s.update id (·.played)) id p)
    | release p event =>
      rw [Task.deed]
      rcases releaseEvent_eq_or id p event s with heq | heq
      · rw [heq]
        exact h.logging.congr (release_listeners id p)
      · rw [heq]
        exact h.logging
    | endPart p => exact h.logging.congr (release_listeners id p)
    | complete => exact h.logging
  · cases task with
    | strike p event =>
      have hplayed := hremains.update (f := (·.played)) (fun _ => rfl) id
      have hlength : id < (s.update id (·.played)).sessions.length := by
        obtain ⟨-, session, hsession, -⟩ := hid.update (f := (·.played)) (fun _ _ => rfl) id
        exact (List.getElem?_eq_some_iff.mp hsession).1
      rw [Task.deed]
      split
      · exact hplayed
      · exact hplayed.sound (hall rfl) (hpart p rfl) hlength event _ _
    | release p event =>
      rw [Task.deed]
      rcases releaseEvent_eq_or id p event s with heq | heq
      · rw [heq]
        exact hremains.release (hall rfl)
      · rw [heq]
        exact hremains
    | endPart p => exact (hremains.release (hall rfl)).setCursor_none p.performer
    | complete => exact hremains

namespace IsKempt

theorem moved (h : IsKempt s) (now : Binary64) (queue : List (Timer Task)) : IsKempt (s.moved now queue) where
  logging := h.logging
  live := h.live
  remains id hid := (h.remains id hid).congr rfl (fun _ => rfl) rfl
  silent hnone := (h.silent hnone).congr rfl (fun _ => rfl) rfl

/-- A timer that comes up. -/
theorem fire (hs : IsConcert melodies s) (h : IsKempt s)
    (hqueue : s.clock.queue = t :: rest) (now : Binary64) :
    IsKempt (fire emit t (s.moved now rest)).2 := by
  have hmoved := h.moved now rest
  by_cases hdue : Firing.IsDue ⟨t, s.moved now rest⟩ t.owner
  · have horder : IsInOrder t.owner s := hs.order t.owner hdue.2
    have hdistinct : ∀ p ∈ s.partsOf t.owner, ∀ q ∈ s.partsOf t.owner, q.index = p.index → q = p :=
      fun p hp q hq => horder.distinct q hq p hp
    by_cases htask : t.task = .complete
    · have hfinished := (hmoved.finish hdue.2.1 hdistinct .completed).told .complete
      obtain ⟨due, owner, task, cancelled⟩ := t
      obtain rfl : cancelled = false := hdue.1.1
      obtain rfl : task = .complete := htask
      rw [Playback.fire, if_neg Bool.false_ne_true, if_pos hdue.2]
      exact hfinished.isKempt
    · obtain ⟨hscored, hset⟩ := isScored_popped hs hqueue now
      have hmem : t ∈ s.clock.timers := mem_timers_iff.mpr ⟨hqueue ▸ List.mem_cons_self, hdue.1.1⟩
      have hdone := hmoved.deed hdue.2 hdistinct (horder.mem_parts t hmem rfl)
      exact fire_of_deed (R := fun s s' => IsKempt s → IsKempt s') (fun _ => id) (fun h h' => h' ∘ h)
        (fun r _ _ h => h.told r) hscored hset hdue.1 hdue.2 htask hdone
  · rw [fire_of_not_isDue hdue]
    exact hmoved

theorem play (hparsed : AreParsed melodies) (hs : IsConcert melodies s) (h : IsKempt s)
    (performers : List Nat) (speed : Number) : IsKempt (play emit performers speed s).2 := by
  rcases exists_play_eq performers (IsScored.stepwise melodies).emit hs.scored hparsed speed with
    heq | ⟨hspeed, t, plans, ht, hscored, hfounds⟩
  · rw [heq]
    exact h
  · have hstopped := h.stop hs
    rw [clear_eq emit _ hstopped.current] at ht
    subst ht
    obtain ⟨session, hsessions, -, -, hlive⟩ := hfounds.session
    obtain ⟨hsilent, hnone⟩ := Remains.nil_iff.mp hstopped.remains
    have hremains (j : Nat) (ps : List Part) : Remains j ps (Playback.play emit performers speed s).2 :=
      (Remains.nil_iff.mpr ⟨by rw [hfounds.output, hsilent], fun i => by
        rw [cursor?, hfounds.performers]
        exact hnone i⟩).mono fun p hp => absurd hp List.not_mem_nil
    refine ⟨hstopped.logging.congr hfounds.listeners, fun id hid => ?_, fun id _ => hremains id _,
      fun _ => hremains 0 []⟩
    obtain rfl := Option.some.inj (hfounds.current.symm.trans hid)
    refine ⟨hid, session, ?_, hlive⟩
    rw [hsessions]
    exact List.getElem?_concat_length

/-- A command, unless it lets time pass. -/
theorem perform (hparsed : AreParsed melodies) (hs : IsConcert melodies s) (h : IsKempt s) {c : Command}
    (hwait : ¬ c.IsWait) (hc : ∀ l, c = .listen l → l.reaction = .log) : IsKempt (perform c s).2 := by
  cases c with
  | play performers speed => exact h.play hparsed hs performers _
  | stop => exact (h.stop hs).isKempt
  | advance | runAll => exact absurd trivial hwait
  | eligible => exact h
  | panic =>
    exact ⟨h.logging, h.live, fun id hid => (h.remains id hid).lessen Output.lessens_panic,
      fun hnone => (h.silent hnone).lessen Output.lessens_panic⟩
  | close =>
    have hstopped := h.stop hs
    -- closing stops first, and then only turns notes off
    have hlessened := hstopped.remains.lessen Output.lessens_close
    have hcurrent : ((Playback.stop emit s).through (·.close)).current = none := hstopped.current
    refine ⟨hstopped.logging, fun id hid => ?_, fun id hid => ?_, fun _ => hlessened⟩
    · exact absurd (hcurrent.symm.trans hid) (Option.some_ne_none id).symm
    · exact absurd (hcurrent.symm.trans hid) (Option.some_ne_none id).symm
  | assign performer values =>
    have hremains {id : Nat} {ps : List Part} (hr : Remains id ps s) :
        Remains id ps (Playback.perform (.assign performer values) s).2 :=
      ⟨hr.nodup, hr.active, fun i hi => hr.cursors i (cursor?_assign performer values i ▸ hi)⟩
    exact ⟨h.logging, h.live, fun id hid => hremains (h.remains id hid), fun hnone => hremains (h.silent hnone)⟩
  | listen l =>
    refine ⟨fun l' hl' => ?_, h.live, fun id hid => (h.remains id hid).congr rfl (fun _ => rfl) rfl,
      fun hnone => (h.silent hnone).congr rfl (fun _ => rfl) rfl⟩
    rcases List.mem_append.mp hl' with hl' | hl'
    · exact h.logging l' hl'
    · exact List.mem_singleton.mp hl' ▸ hc l rfl
  | resolve j =>
    have hparts (id : Nat) : (s.update j (·.resolve .cancelled)).partsOf id = s.partsOf id :=
      partsOf_update (f := (·.resolve .cancelled)) (fun _ => rfl) j
    rw [perform_resolve]
    refine ⟨h.logging, fun id hid => ?_, fun id hid => ?_, fun hnone => ?_⟩
    · exact (h.live id hid).update (f := (·.resolve .cancelled)) (fun _ hlive => hlive) j
    · have hremains := (h.remains id hid).update (f := (·.resolve .cancelled)) (fun _ => rfl) j
      rw [← hparts] at hremains
      exact hremains
    · exact (h.silent hnone).update (f := (·.resolve .cancelled)) (fun _ => rfl) j

theorem start (voices : List Voice) (defaultSpeed : Number) (cancels : Bool) {output : Output}
    (houtput : output.active = []) {listeners : List Listener} (hlisteners : ∀ l ∈ listeners, l.reaction = .log) :
    IsKempt (start output voices listeners defaultSpeed cancels) where
  logging := hlisteners
  live id hid := by cases hid
  remains id hid := by cases hid
  silent _ := by
    refine Remains.nil_iff.mpr ⟨houtput, fun i => ?_⟩
    simp only [Playback.start, cursor?, List.getElem?_map]
    cases voices[i]? <;> rfl

theorem keptByTime (hparsed : AreParsed melodies) :
    KeptByTime fun _ s => IsConcert melodies s ∧ IsKempt s where
  wait h now := ⟨h.1.moved now, h.2.moved now _⟩
  up := by
    rintro fs s t rest ⟨hs, h⟩ hqueue next rfl
    exact ⟨isConcert_fire hs hqueue _ hparsed, h.fire hs hqueue _⟩

end IsKempt

/-- **Nothing remains but what is the active session's.** Whatever has been done to playback, as long as
listeners only log. -/
theorem isKempt_performAll (hparsed : AreParsed melodies) (hs : IsConcert melodies s) (h : IsKempt s)
    {cs : List Command} (hcs : ∀ c ∈ cs, ∀ l, c = .listen l → l.reaction = .log) :
    IsConcert melodies (performAll cs s) ∧ IsKempt (performAll cs s) :=
  (IsKempt.keptByTime hparsed).firings (fun c => ∀ l, c = .listen l → l.reaction = .log)
    (fun hc hwait h => ⟨h.1.perform hparsed hwait, h.2.perform hparsed h.1 hwait hc⟩) hcs ⟨hs, h⟩

end Monody.Playback
