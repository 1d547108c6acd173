import Monody.Proofs.Playback.Leads
import Monody.Proofs.Playback.Settled

/-!
# Playback leaves nothing behind

When no session is active, no timer is pending, no note sounds and no performer is at an event; when
one is, all of these belong to it. Listeners may stop and start sessions while another one is being
ended, so ending is followed part by part: what the parts that have not left yet hold is left over,
and whatever listeners do in the meantime keeps the rest in order.

## Main definitions

* `Tidy` — a way of telling reports that keeps everything in order
* `Leaving` — a session in the middle of its end
* `IsOrderly` — timers, notes and cursors are those of the active session, or there are none

## Main results

* `Leaving.leave` — a part leaves a session that ends
* `steady_finish`, `steady_play` — ending and starting sessions
* `tidy_emit` — telling a report to listeners
* `steady_fire`, `steady_advanceTo` — letting time pass
* `history_isOrderly` — every state of a history is orderly
-/

namespace Monody.Playback

variable {s : Playback} {id : Nat} {session : Session} {part : Part} {parts : List Part}
  {emit : Report → Playback → Playback} {leftNotes : Int × Int → Prop} {leftPerformers : Nat → Prop}

/-- Telling a report keeps everything in order, whatever is left over of sessions that end. -/
structure Tidy (emit : Report → Playback → Playback) : Prop where
  leads : ∀ r s, Leads none 0 s (emit r s)
  quiet : ∀ {n s} (r : Report), s.Quiet n → (emit r s).Quiet n
  steady : ∀ {leftNotes leftPerformers s} (r : Report),
    Steady leftNotes leftPerformers s → Steady leftNotes leftPerformers (emit r s)

theorem Settled.isCurrent (hs : Settled leftNotes leftPerformers s) (hid : s.current = some id) :
    s.IsCurrent id := by
  obtain ⟨session, hsession, hlive⟩ := hs.live (by simp [hid])
  exact ⟨hid, session, currentSession?_eq hid ▸ hsession, hlive⟩

/-! ## Ending sessions -/

/-- A session in the middle of its end, apart from what is told of it. What the parts that have not left
it hold is left over. -/
structure Leaving (leftNotes : Int × Int → Prop) (leftPerformers : Nat → Prop) (id : Nat)
    (session : Session) (parts : List Part) (s : Playback) : Prop where
  there : (s.sessions[id]?).map (·.untold) = some session
  ended : session.hasEnded = true
  alone : session.held.Pairwise (·.part ≠ ·.part)
  channels : ∀ p ∈ parts, p.channel = .ofVoice p.index
  steady : Steady
    (fun k => leftNotes k ∨ ∃ h ∈ session.held, (∃ p ∈ parts, p.index = h.part) ∧ h.key = k)
    (fun i => leftPerformers i ∨ ∃ p ∈ parts, p.performer = i) s

/-- When a part has released its note, only the notes of the parts after it are left over. -/
theorem Leaving.release (h : Leaving leftNotes leftPerformers id session (part :: parts) s) :
    ((release id part s).sessions[id]?).map (·.untold) = some (session.drop part.index) ∧
      Steady (fun k => leftNotes k ∨
          ∃ h ∈ (session.drop part.index).held, (∃ p ∈ parts, p.index = h.part) ∧ h.key = k)
        (fun i => leftPerformers i ∨ ∃ p ∈ part :: parts, p.performer = i) (release id part s) := by
  obtain ⟨told, htold, rfl⟩ := Option.map_eq_some_iff.mp h.there
  obtain ⟨call, hcall, heq, hsilent⟩ := release_eq htold (h.channels part List.mem_cons_self)
    h.alone h.steady.nodup
  have hdropped := h.steady.update_of_ended htold h.ended (·.drop part.index)
  have hsession : ((s.update id (·.drop part.index)).sessions[id]?).map (·.untold) =
      some (told.untold.drop part.index) := by
    rw [sessions_update_self htold]
    rfl
  rw [heq]
  refine ⟨hsession, (hdropped.lessen hcall).relax ?_ fun _ _ hi => hi,
    h.steady.timed⟩
  rintro k hk (hleft | ⟨h', hh', ⟨p, hp, hindex⟩, rfl⟩)
  · exact .inl hleft
  -- the note is not the one just released, so another part holds it
  have hother : h'.part ≠ part.index := fun hsame => hsilent _ hk h' hh' hsame rfl
  have hp' : p ∈ parts := by
    refine (List.mem_cons.mp hp).resolve_left fun hsame => hother ?_
    rw [← hindex, hsame]
  exact .inr ⟨h', List.mem_filter.mpr ⟨hh', by simpa using hother⟩, ⟨p, hp', hindex⟩, rfl⟩

/-- A part leaves a session that ends, and listeners do whatever they do. -/
theorem Leaving.leave (hemit : Tidy emit)
    (h : Leaving leftNotes leftPerformers id session (part :: parts) s) :
    Leaving leftNotes leftPerformers id (session.drop part.index) parts (leave emit id s part) := by
  obtain ⟨hthere, hreleased⟩ := h.release
  have halone : (session.drop part.index).held.Pairwise (·.part ≠ ·.part) := h.alone.filter _
  have hchannels : ∀ p ∈ parts, p.channel = .ofVoice p.index :=
    fun p hp => h.channels p (List.mem_cons_of_mem _ hp)
  have hgone {t : Playback} (hcursor : ¬ (t.cursor? part.performer).isSome) :
      ∀ i, (t.cursor? i).isSome → (leftPerformers i ∨ ∃ p ∈ part :: parts, p.performer = i) →
        leftPerformers i ∨ ∃ p ∈ parts, p.performer = i := by
    rintro i hi (hleft | ⟨p, hp, rfl⟩)
    · exact .inl hleft
    · refine .inr ⟨p, (List.mem_cons.mp hp).resolve_left fun hsame => hcursor ?_, rfl⟩
      rw [← hsame]
      exact hi
  simp only [Playback.leave]
  split
  · have hmoved : ¬ (((Playback.release id part s).setCursor part.performer none).cursor?
        part.performer).isSome := by
      intro hsome
      rcases isSome_cursor?_setCursor hsome with ⟨-, hevent⟩ | ⟨hne, -⟩
      · exact Bool.noConfusion hevent
      · exact hne rfl
    have hsteady : Steady _ _ ((Playback.release id part s).setCursor part.performer none) :=
      ⟨hreleased.setCursor part.performer none (by simp), hreleased.timed⟩
    have hended : ((Playback.release id part s).setCursor part.performer none).HasEnded id := by
      obtain ⟨told, htold, hsame⟩ := Option.map_eq_some_iff.mp hthere
      exact ⟨told, htold, (congrArg Session.hasEnded hsame).trans h.ended⟩
    -- the session has ended, so listeners can only tell those who wait for it
    have hkept := (hemit.leads (.cursor part.index none)
      ((Playback.release id part s).setCursor part.performer none)).same id (by simp) hended
    exact ⟨hkept.trans hthere, h.ended, halone, hchannels,
      hemit.steady _ (hsteady.relax (fun _ _ hk => hk) (hgone hmoved))⟩
  · next hcursor =>
    exact ⟨hthere, h.ended, halone, hchannels,
      hreleased.relax (fun _ _ hk => hk) (hgone hcursor)⟩

theorem Leaving.foldl_leave (hemit : Tidy emit)
    (h : Leaving leftNotes leftPerformers id session parts s) :
    Leaving leftNotes leftPerformers id
      (parts.foldl (fun session part => session.drop part.index) session) []
      (parts.foldl (Playback.leave emit id) s) := by
  induction parts generalizing s session with
  | nil => exact h
  | cons part parts ih => exact ih (h.leave hemit)

/-- The active session is ended. -/
theorem steady_finish (hemit : Tidy emit) (hs : Settled leftNotes leftPerformers s)
    (hid : s.current = some id) (how : Ending) :
    Steady leftNotes leftPerformers (finish emit id how s) := by
  obtain ⟨-, session, hsession, hlive⟩ := hs.isCurrent hid
  rw [Option.mem_def] at hsession
  have hcurrent : s.currentSession? = some session := currentSession?_eq hid ▸ hsession
  have hconcluded := hs.conclude hid hsession how
  -- its notes and its performers are left over until all parts have left
  have hleaving : Leaving leftNotes leftPerformers id
      { session with phase := .ended how, result := none } session.parts (s.conclude id how) := {
    there := congrArg (Option.map Session.untold) (sessions_update_self hsession)
    ended := rfl
    alone := held_eq hcurrent ▸ hs.alone
    channels := parts_eq hcurrent ▸ hs.channels
    steady := by
      refine hconcluded.relax (fun k _ => Or.imp_right ?_) fun _ _ hi => hi
      rintro ⟨h, hh, hkey⟩
      exact ⟨h, hh, parts_eq hcurrent ▸ hs.holders h (held_eq hcurrent ▸ hh), hkey⟩ }
  have hleft := hleaving.foldl_leave hemit
  have hsteady : Steady leftNotes leftPerformers
      (session.parts.foldl (Playback.leave emit id) (s.conclude id how)) :=
    hleft.steady.relax (by simp) (by simp)
  rw [finish_of_live hsession hlive]
  exact hsteady.resolve id how

theorem steady_stop (hemit : Tidy emit) (hs : Steady leftNotes leftPerformers s) :
    Steady leftNotes leftPerformers (stop emit s) := by
  simp only [stop]
  split
  · exact hs
  · next hid => exact hemit.steady _ (steady_finish hemit hs.toSettled hid .cancelled)

/-- With one step more than there are reactions left, clearing ends when no session is active. -/
theorem steady_clear (hemit : Tidy emit) {fuel : Nat} (hs : Steady leftNotes leftPerformers s)
    (hfuel : s.reactionsLeft < fuel) :
    Steady leftNotes leftPerformers (clear emit fuel s) ∧ (clear emit fuel s).current = none := by
  induction fuel generalizing s with
  | zero => exact absurd hfuel (Nat.not_lt_zero _)
  | succ fuel ih =>
    simp only [clear]
    split
    · next hidle => exact ⟨hs, hidle⟩
    next id hid =>
      have hfinished := steady_finish hemit hs.toSettled hid .cancelled
      -- if a session is active again, a listener has used a reaction to start it
      rcases quiet_finish hemit.quiet .cancelled (hs.isCurrent hid) (Nat.le_refl _) with
        ⟨hidle, -⟩ | hfewer
      · have hclear : clear emit fuel (finish emit id .cancelled s) = finish emit id .cancelled s := by
          cases fuel with
          | zero => rfl
          | succ fuel => simp only [clear, hidle]
        rw [hclear]
        exact ⟨hfinished, hidle⟩
      · exact ih hfinished (by omega)

/-! ## Starting sessions -/

/-- Every performer of a cast can enter the active session. -/
theorem enterAll_ok {speed : Number} (hspeed : speed.IsSpeed) (cast : List (Nat × Nat))
    (hs : Settled leftNotes leftPerformers s) (hid : s.current = some id) :
    ∃ s', enterAll id speed cast s = (.ok (), s') ∧ Settled leftNotes leftPerformers s' ∧
      s'.current = some id := by
  induction cast generalizing s with
  | nil => exact ⟨s, rfl, hs, hid⟩
  | cons place rest ih =>
    obtain ⟨index, performer⟩ := place
    cases hp : s.performers[performer]? with
    | none =>
      obtain ⟨s', heq, hs', hid'⟩ := ih hs hid
      exact ⟨s', by simp only [enterAll, hp, heq], hs', hid'⟩
    | some p =>
      have haudible := hs.admissible.audible p (List.mem_of_getElem? hp)
      obtain ⟨plan, hplan, hchannel⟩ := planOf_ok hspeed haudible index performer
      obtain ⟨s', heq, hs', hid'⟩ := ih (hs.enter hid plan hchannel)
        ((current_enter plan).trans hid)
      exact ⟨s', by simp only [enterAll, hp, hplan, heq], hs', hid'⟩

theorem steady_play (hemit : Tidy emit) {speed : Number} (hspeed : speed.IsSpeed)
    (performers : List Nat) (hs : Steady leftNotes leftPerformers s) :
    Steady leftNotes leftPerformers (play emit performers speed s).2 := by
  simp only [play]
  split
  · exact hs
  split
  · exact hs
  obtain ⟨hcleared, hidle⟩ := steady_clear hemit (steady_stop hemit hs) (Nat.lt_succ_self _)
  generalize clear emit ((s.stop emit).reactionsLeft + 1) (s.stop emit) = t at hcleared hidle ⊢
  have hbegun : (t.begin speed).current = some t.sessions.length := rfl
  obtain ⟨u, henter, hu, hid⟩ := enterAll_ok hspeed (s.castOf performers)
    (hcleared.begin hidle speed) hbegun
  rw [henter]
  exact hu.launch hid

/-! ## Reporting -/

theorem steady_act (hemit : Tidy emit) {r : Reaction} (hr : r.IsAdmissible)
    (hs : Steady leftNotes leftPerformers s) : Steady leftNotes leftPerformers (act emit r s) := by
  cases r with
  | log => exact hs
  | fail => exact hs
  | stop => exact steady_stop hemit hs
  | play performers speed => exact steady_play hemit (hs.admissible.isSpeed_getD hr) performers hs
  | listen topic skip times reaction =>
    exact ⟨hs.addListener ⟨topic, skip, times, reaction⟩ hr, hs.timed⟩
  | resolve session => exact hs.resolve session .cancelled
  | assign performer values => exact ⟨hs.assign performer hr, hs.timed⟩
  | panic => exact ⟨hs.lessen Output.lessens_panic, hs.timed⟩

section Acting

variable {act : Reaction → Playback → Playback}

theorem steady_react (hact : ∀ {s} {r : Reaction}, r.IsAdmissible →
      Steady leftNotes leftPerformers s → Steady leftNotes leftPerformers (act r s))
    (hs : Steady leftNotes leftPerformers s) (i : Nat) :
    Steady leftNotes leftPerformers (react act s i) := by
  simp only [react]
  split
  · exact hs
  next l hl =>
    have hreaction := hs.admissible.reactions l (List.mem_of_getElem? hl)
    have hlistener (skip times : Nat) : Steady leftNotes leftPerformers
        (s.setListener i { l with skip, times }) :=
      ⟨hs.setListener i hreaction, hs.timed⟩
    split
    · exact hlistener _ _
    · next times _ _ =>
      have hcounted := hlistener l.skip times
      exact hact hreaction ⟨hcounted.record _, hcounted.timed⟩
    · exact hs

theorem tidy_emitWith (hleads : ∀ r s, Leads none (r.count - 1) s (act r s))
    (hact : ∀ {leftNotes leftPerformers s} {r : Reaction}, r.IsAdmissible →
      Steady leftNotes leftPerformers s → Steady leftNotes leftPerformers (act r s)) :
    Tidy (emitWith act) where
  leads := leads_emitWith hleads
  quiet r hs := quiet_emitWith hleads r hs
  steady {leftNotes leftPerformers s} r hs := by
    have hfoldl (is : List Nat) : ∀ s, Steady leftNotes leftPerformers s →
        Steady leftNotes leftPerformers (is.foldl (react act) s) := by
      induction is with
      | nil => exact fun _ hs => hs
      | cons i is ih => exact fun s hs => ih _ (steady_react hact hs i)
    exact hfoldl _ _ ⟨hs.record _, hs.timed⟩

end Acting

theorem tidy_emitWithin (depth : Nat) : Tidy (emitWithin depth) := by
  induction depth with
  | zero => exact tidy_emitWith (fun _ s => (Leads.refl s).mono _) fun _ hs => hs
  | succ depth ih => exact tidy_emitWith (leads_act ih.leads) (steady_act ih)

theorem tidy_emit : Tidy Playback.emit where
  leads := leads_emit
  quiet r hs := (tidy_emitWithin _).quiet r hs
  steady r hs := (tidy_emitWithin _).steady r hs

/-! ## Timers -/

theorem steady_strike (hs : Steady leftNotes leftPerformers s) (hid : s.current = some id)
    (hpart : part ∈ s.parts) (event : Nat) :
    Steady leftNotes leftPerformers (strike Playback.emit id part event s).2 := by
  let play (session : Session) : Session := { session with phase := .playing }
  have hplaying : Steady leftNotes leftPerformers (s.update id play) :=
    ⟨hs.update id (fun _ => rfl) (fun _ => rfl) (fun _ _ => rfl), hs.timed⟩
  have hsame : (s.update id play).parts = s.parts := parts_update fun _ => rfl
  have hpart' : part ∈ (s.update id play).parts := hsame.symm ▸ hpart
  simp only [strike]
  split
  · exact hplaying
  split
  · exact hplaying
  · exact hplaying
  obtain ⟨hreleased, hid', hparts, hfree⟩ := hplaying.release hid hpart'
  -- the timer that completes the session stays pending through all of this
  have htimed : (release id part (s.update id play)).Timed := by
    rw [Timed, release_clock, release_current]
    exact hs.timed
  split
  · exact ⟨hreleased, htimed⟩
  next seconds _ =>
    rename_i note _ _ _
    have hsteady : Steady leftNotes leftPerformers
        (sound id part event note seconds (release id part (s.update id play))) := by
      refine ⟨hreleased.sound hid' (hparts.symm ▸ hpart') hfree event note seconds,
        fun hcurrent => ?_⟩
      obtain ⟨t, ht, htask⟩ := htimed hcurrent
      exact ⟨t, Clock.mem_timers_after.mpr (.inr ht), htask⟩
    have hcursor := tidy_emit.steady (.cursor part.index (some event)) hsteady
    dsimp only
    split
    · exact tidy_emit.steady _ hcursor
    · exact hcursor

theorem steady_release (hs : Steady leftNotes leftPerformers s) (hid : s.current = some id)
    (hpart : part ∈ s.parts) : Steady leftNotes leftPerformers (release id part s) := by
  refine ⟨(hs.release hid hpart).1, ?_⟩
  rw [Timed, release_clock, release_current]
  exact hs.timed

/-- A timer comes up that has been cancelled or belongs to the active session. Unless it completes
the session, another one that does is pending. -/
theorem steady_fire {t : Timer Task} (hs : Settled leftNotes leftPerformers s)
    (hcurrent : t.cancelled = false → s.current = some t.owner ∧ ∀ p ∈ t.task.part?, p ∈ s.parts)
    (htimed : t.cancelled = true ∨ t.task ≠ .complete → s.Timed) :
    Steady leftNotes leftPerformers (fire Playback.emit t s).2 := by
  rw [fire]
  cases hcancelled : t.cancelled with
  | true => exact ⟨hs, htimed (.inl hcancelled)⟩
  | false =>
    obtain ⟨hid, hpart⟩ := hcurrent hcancelled
    rw [if_neg Bool.false_ne_true, if_pos (hs.isCurrent hid)]
    obtain ⟨due, owner, task, cancelled⟩ := t
    -- all but the last kind leave the timer that completes the session where it is
    cases task with
    | strike part event =>
      exact steady_strike ⟨hs, htimed (.inr (by simp))⟩ hid (hpart part rfl) event
    | release part event =>
      have hsteady : Steady leftNotes leftPerformers s := ⟨hs, htimed (.inr (by simp))⟩
      dsimp only
      rcases releaseEvent_eq_or owner part event s with heq | heq
      · rw [heq]
        exact steady_release hsteady hid (hpart part rfl)
      · rw [heq]
        exact hsteady
    | endPart part =>
      have hreleased := steady_release ⟨hs, htimed (.inr (by simp))⟩ hid (hpart part rfl)
      have hmoved : Steady leftNotes leftPerformers
          ((release owner part s).setCursor part.performer none) :=
        ⟨hreleased.setCursor part.performer none (by simp), hreleased.timed⟩
      have hcursor := tidy_emit.steady (.cursor part.index none) hmoved
      simp only [endPart]
      split
      · exact tidy_emit.steady _ hcursor
      · exact hcursor
    | complete => exact tidy_emit.steady _ (steady_finish tidy_emit hs hid .completed)

/-! ## Time -/

/-- The clock moves on to some of the timers. -/
theorem Settled.moved (hs : Settled leftNotes leftPerformers s) (now : Binary64)
    {queue : List (Timer Task)} (h : ∀ t ∈ queue, t ∈ s.clock.queue) :
    Settled leftNotes leftPerformers (s.moved now queue) := { hs with
  admissible := hs.admissible.congr rfl rfl rfl
  timers := fun t ht => by
    obtain ⟨hqueue, hpending⟩ := List.mem_filter.mp ht
    exact hs.timers t (List.mem_filter.mpr ⟨h t hqueue, hpending⟩) }

theorem steady_advanceTo (target : Binary64) (fuel : Nat) (hs : Steady leftNotes leftPerformers s) :
    Steady leftNotes leftPerformers (advanceTo target fuel s).2 := by
  induction fuel generalizing s with
  | zero => exact ⟨hs.moved target fun _ ht => ht, hs.timed⟩
  | succ fuel ih =>
    cases hqueue : s.clock.queue with
    | nil =>
      rw [advanceTo_nil _ _ hqueue, ← hqueue]
      exact ⟨hs.moved target fun _ ht => ht, hs.timed⟩
    | cons t rest =>
      by_cases hdue : t.due ≤ target + Clock.slack
      · rw [advanceTo_of_due fuel hqueue hdue]
        generalize (if t.cancelled then s.clock.now else t.due) = now
        have hrest : Settled leftNotes leftPerformers (s.moved now rest) :=
          hs.moved now fun u hu => hqueue ▸ List.mem_cons_of_mem t hu
        have hpending : t.cancelled = false → t ∈ s.clock.timers := fun hcancelled =>
          List.mem_filter.mpr ⟨hqueue ▸ List.mem_cons_self, by simp [hcancelled]⟩
        -- the timer that completes the session is still to come, unless it is this one
        have htimed : t.cancelled = true ∨ t.task ≠ .complete → (s.moved now rest).Timed := by
          intro hother hcurrent
          obtain ⟨u, hu, htask⟩ := hs.timed hcurrent
          obtain ⟨hmem, hlive⟩ := List.mem_filter.mp hu
          rw [hqueue] at hmem
          rcases List.mem_cons.mp hmem with rfl | hmem
          · rcases hother with hcancelled | hne
            · simp [hcancelled] at hlive
            · exact absurd htask hne
          · exact ⟨u, List.mem_filter.mpr ⟨hmem, hlive⟩, htask⟩
        have hfire := steady_fire hrest (fun hcancelled => hs.timers t (hpending hcancelled)) htimed
        split
        · next heq => rwa [heq] at hfire
        · next heq =>
          rw [heq] at hfire
          exact ih hfire
      · rw [advanceTo_of_not_due _ hqueue hdue, ← hqueue]
        exact ⟨hs.moved target fun _ ht => ht, hs.timed⟩

theorem steady_runWithin (fuel : Nat) (hs : Steady leftNotes leftPerformers s) :
    Steady leftNotes leftPerformers (runWithin fuel s).2 := by
  induction fuel generalizing s with
  | zero => exact hs
  | succ fuel ih =>
    simp only [runWithin]
    split
    · exact hs
    next due _ =>
      have hadvance := steady_advanceTo (s.clock.now + (due - s.clock.now)) s.workload hs
      simp only [advance]
      split
      · next heq => rwa [heq] at hadvance
      · next heq =>
        rw [heq] at hadvance
        exact ih hadvance

/-! ## Commands -/

theorem steady_perform {c : Command} (hc : c.IsAdmissible) (hs : Steady leftNotes leftPerformers s) :
    Steady leftNotes leftPerformers (perform c s).2 := by
  cases c with
  | play performers speed =>
    exact steady_play tidy_emit (hs.admissible.isSpeed_getD hc) performers hs
  | stop => exact steady_stop tidy_emit hs
  | advance seconds =>
    simp only [perform]
    split
    · exact steady_advanceTo _ _ hs
    · exact hs
  | runAll => exact steady_runWithin _ hs
  | eligible performers => exact hs
  | panic => exact ⟨hs.lessen Output.lessens_panic, hs.timed⟩
  | close =>
    have hstopped := steady_stop tidy_emit hs
    exact ⟨hstopped.lessen Output.lessens_close, hstopped.timed⟩
  | assign performer values =>
    exact ⟨hs.assign performer hc, hs.timed⟩
  | listen l => exact ⟨hs.addListener l hc, hs.timed⟩
  | resolve id =>
    rw [perform_resolve]
    exact hs.resolve id .cancelled

/-- No timer is pending, no note sounds, and no performer is at an event. -/
structure IsIdle (s : Playback) : Prop where
  timers : s.clock.timers = []
  active : s.output.active = []
  cursors : ∀ i, s.cursor? i = none

/-- All that is pending, sounds or is at an event belongs to a session that has not ended: the timers
with the one that completes it, the notes as those that its parts hold on their channels, and the
performers with a cursor as those of its parts. -/
structure BelongsTo (s : Playback) (id : Nat) (session : Session) : Prop where
  there : s.sessions[id]? = some session
  live : session.hasEnded = false
  timers : ∀ t ∈ s.clock.timers, t.owner = id
  completion : ∃ t ∈ s.clock.timers, t.task = .complete
  active : ∀ k ∈ s.output.active, ∃ part ∈ session.parts, ∃ h,
    session.held? part.index = some h ∧ k = ((part.channel.val : Int), (h.note.val : Int))
  cursors : ∀ i, (s.cursor? i).isSome → ∃ part ∈ session.parts, part.performer = i

/-- Either nothing is left of what has been played, or all there is belongs to the active session. -/
def IsOrderly (s : Playback) : Prop :=
  match s.current with
  | none => s.IsIdle
  | some id => ∃ session, s.BelongsTo id session

/-- With nothing left over, what is steady is orderly. -/
theorem Steady.isOrderly (hs : Steady (fun _ => False) (fun _ => False) s) : s.IsOrderly := by
  rw [IsOrderly]
  split
  · next hidle =>
    have hnone : s.currentSession? = none := by rw [currentSession?, hidle]; rfl
    have hheld : s.held = [] := by rw [held, hnone]; rfl
    have hparts : s.parts = [] := by rw [Playback.parts, hnone]; rfl
    exact {
      timers := List.eq_nil_iff_forall_not_mem.mpr fun t ht => by
        have howner := (hs.timers t ht).1
        rw [hidle] at howner
        cases howner
      active := List.eq_nil_iff_forall_not_mem.mpr fun k hk => by
        have hkept := hs.active k hk
        simp [hheld] at hkept
      cursors := fun i => by
        by_contra hne
        have hkept := hs.cursors i (Option.isSome_iff_ne_none.mpr hne)
        simp [hparts] at hkept }
  · next id hid =>
    obtain ⟨session, hsession, hlive⟩ := hs.live (by simp [hid])
    have hparts := parts_eq hsession
    have hheld := held_eq hsession
    refine ⟨session, {
      there := currentSession?_eq hid ▸ hsession
      live := hlive
      timers := fun t ht => (Option.some.inj (hid ▸ (hs.timers t ht).1)).symm
      completion := hs.timed (by simp [hid])
      active := fun k hk => ?_
      cursors := fun i hi => hparts ▸ (hs.cursors i hi).resolve_left fun h => h }⟩
    obtain ⟨h, hh, rfl⟩ := (hs.active k hk).resolve_left fun h => h
    obtain ⟨part, hpart, hindex⟩ := hs.holders h hh
    refine ⟨part, hparts ▸ hpart, h, ?_, ?_⟩
    · -- the first note that the part holds is the only one
      have hfirst : (session.held? part.index).isSome := by
        refine List.find?_isSome.mpr ⟨h, hheld ▸ hh, by simp [hindex]⟩
      obtain ⟨h', hh'⟩ := Option.isSome_iff_exists.mp hfirst
      have hpart' : h'.part = part.index := by simpa using List.find?_some hh'
      rw [hh', eq_of_part_eq (hheld ▸ hs.alone) (List.mem_of_find?_eq_some hh') (hheld ▸ hh)
        (hpart'.trans hindex)]
    · rw [Held.key, hs.channels part hpart, hindex]

/-- **Playback leaves nothing behind.** After every command, if no session is active then no timer is
pending, no note sounds and no performer is at an event; and if one is, all of these belong to it,
and one of the timers completes it. -/
theorem history_isOrderly (output : Output) (voices : List Voice) (listeners : List Listener)
    (defaultSpeed : Number) (cs : List Command) (houtput : output.active = [])
    (hvoices : ∀ v ∈ voices, v.IsAudible) (hlisteners : ∀ l ∈ listeners, l.reaction.IsAdmissible)
    (hspeed : defaultSpeed.IsSpeed) (hcs : ∀ c ∈ cs, c.IsAdmissible) :
    ∀ p ∈ history cs (start output voices listeners defaultSpeed true), p.2.IsOrderly := by
  have hstart : Steady (fun _ => False) (fun _ => False)
      (start output voices listeners defaultSpeed true) := {
    admissible := ⟨by simpa [start] using hvoices, hlisteners, hspeed⟩
    cancels := rfl
    live := fun h => absurd rfl h
    channels := fun _ hp => absurd hp List.not_mem_nil
    holders := fun _ hh => absurd hh List.not_mem_nil
    alone := .nil
    timers := fun _ ht => absurd ht List.not_mem_nil
    nodup := houtput ▸ List.nodup_nil
    active := fun k hk => absurd (houtput ▸ hk : k ∈ []) List.not_mem_nil
    cursors := fun i hi => by
      simp only [start, cursor?, List.getElem?_map] at hi
      cases hv : voices[i]? <;> simp [hv] at hi
    timed := fun h => absurd rfl h }
  intro p hp
  exact (history_forall (fun c s hc hs => steady_perform hc hs) hcs hstart p hp).isOrderly

/-- A listener that starts the session again while it is stopped, on a connection that fails. -/
theorem history_isOrderly_restart :
    let note : Melody.Event :=
      ⟨.note .c false 4, 0, Melody.defaultDuration, Melody.defaultDuration, none, ['C'], (0, 1)⟩
    let voice : Voice := .ofMelody ⟨['C'], [note]⟩
    let listener : Listener := ⟨.stop, 0, 1, .play [0] (some 2)⟩
    let commands : List Command := [.play [0] none, .advance (.real Number.half), .stop, .runAll]
    (voice.IsAudible ∧ listener.reaction.IsAdmissible ∧ ∀ c ∈ commands, c.IsAdmissible) ∧
      ∀ p ∈ history commands
        (start (.ofConnection (some ⟨true⟩) none) [voice] [listener] (.real 1) true),
        p.2.IsOrderly := by
  intro note voice listener commands
  have hvoice : voice.IsAudible := ⟨by decide +kernel, by decide +kernel⟩
  have hone : Number.IsSpeed (.real 1) := ⟨1, rfl, by decide +kernel, by decide +kernel⟩
  have htwo : Number.IsSpeed 2 := ⟨.ofInt 2, by decide +kernel, by decide +kernel, by decide +kernel⟩
  have hlistener : listener.reaction.IsAdmissible := fun x hx => Option.mem_some.mp hx ▸ htwo
  have hcommands : ∀ c ∈ commands, c.IsAdmissible := by
    simp [commands, Command.IsAdmissible]
  refine ⟨⟨hvoice, hlistener, hcommands⟩, ?_⟩
  exact history_isOrderly _ [voice] [listener] (.real 1) commands rfl
    (fun v hv => List.mem_singleton.mp hv ▸ hvoice)
    (fun l hl => List.mem_singleton.mp hl ▸ hlistener) hone hcommands

end Monody.Playback
