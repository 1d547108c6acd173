import Monody.Proofs.Playback.Leads

/-!
# Cancelled timers do nothing

A clock may take no notice of cancelling, and then the timers of ended sessions come up among those
of the active one and fire. This changes nothing that can be noticed. The run on such a clock is the
run on a clock that cancels, with the marks of cancelling taken away: the two go in lockstep, and
where the one passes a timer over, the other fires it for a session that is not active.

## Main definitions

* `Playback.heedless` — the state on a clock that takes no notice of cancelling
* `CancelledEnded` — every cancelled timer belongs to an ended session
* `Playback.withoutTimers` — all of the state but the timers

## Main results

* `heedless_play`, `heedless_finish`, `heedless_emitWithin` — starting, ending and reporting do the
  same on both clocks
* `heedless_advanceTo` — letting time pass does the same where every cancelled timer belongs to an
  ended session
* `cancelledEnded_perform` — commands keep it so
* `history_withoutTimers` — both clocks lead to the same history
-/

namespace Monody.Playback

variable {s s' : Playback} {id j : Nat} {emit : Report → Playback → Playback}

/-! ## Clocks that take no notice of cancelling -/

section Clock

variable {τ : Type}

/-- A timer as it is if nobody has cancelled it. -/
def Timer.restored (t : Timer τ) : Timer τ := { t with cancelled := false }

/-- The clock with the same timers that takes no notice of cancelling. -/
def Clock.heedless (c : Clock τ) : Clock τ := ⟨c.now, c.queue.map Timer.restored, false⟩

theorem Clock.heedless_after (c : Clock τ) (delay : Binary64) (owner : Nat) (task : τ) :
    (c.after delay owner task).heedless = c.heedless.after delay owner task := by
  have hinsert := Clock.map_insert (g := Timer.restored) (fun _ => rfl)
    ⟨c.now + Binary64.max 0 delay, owner, task, false⟩ c.queue
  rw [Clock.heedless, Clock.after, hinsert]
  rfl

/-- Cancelling leaves no trace where no notice is taken of it. -/
theorem Clock.heedless_cancel (c : Clock τ) (owner : Nat) :
    (c.cancel owner).heedless = c.heedless.cancel owner := by
  have hnone : c.heedless.cancel owner = c.heedless := rfl
  rw [hnone, Clock.cancel]
  split
  · simp only [Clock.heedless, List.map_map]
    rfl
  · rfl

end Clock

/-- The state on a clock that takes no notice of cancelling. -/
def heedless (s : Playback) : Playback := { s with clock := s.clock.heedless }

@[simp] theorem heedless_sessions : s.heedless.sessions = s.sessions := rfl
@[simp] theorem heedless_current : s.heedless.current = s.current := rfl
@[simp] theorem heedless_performers : s.heedless.performers = s.performers := rfl
@[simp] theorem heedless_listeners : s.heedless.listeners = s.listeners := rfl
@[simp] theorem heedless_defaultSpeed : s.heedless.defaultSpeed = s.defaultSpeed := rfl
@[simp] theorem heedless_now : s.heedless.clock.now = s.clock.now := rfl

theorem heedless_update (f : Session → Session) :
    (s.update id f).heedless = s.heedless.update id f := rfl

theorem heedless_through (call : Output → Output.Effect) :
    (s.through call).heedless = s.heedless.through call := rfl

theorem heedless_setCursor (i : Nat) (event : Option Nat) :
    (s.setCursor i event).heedless = s.heedless.setCursor i event := rfl

/-- Updates one after another do the same on both clocks if each of them does. -/
theorem heedless_foldl {α : Type} {f : Playback → α → Playback}
    (h : ∀ s a, (f s a).heedless = f s.heedless a) (as : List α) (s : Playback) :
    (as.foldl f s).heedless = as.foldl f s.heedless :=
  (List.foldl_hom heedless fun s a => (h s a).symm).symm

theorem heedless_after (delay : Binary64) (task : Task) :
    (s.after delay id task).heedless = s.heedless.after delay id task := by
  simp only [heedless, after, Clock.heedless_after]

/-! ## Starting and ending sessions on both clocks -/

theorem heedless_release (part : Part) :
    (release id part s).heedless = release id part s.heedless := by
  simp only [release, heedless_sessions]
  split <;> rfl

/-- Telling a report does the same on both clocks. -/
def Oblivious (emit : Report → Playback → Playback) : Prop :=
  ∀ r s, (emit r s).heedless = emit r s.heedless

theorem heedless_leave (hemit : Oblivious emit) (part : Part) :
    (leave emit id s part).heedless = leave emit id s.heedless part := by
  simp only [leave, ← heedless_release]
  have hcursor : ((release id part s).heedless.cursor? part.performer) =
      (release id part s).cursor? part.performer := rfl
  rw [hcursor]
  split
  · exact hemit ..
  · rfl

theorem heedless_conclude (how : Ending) :
    (s.conclude id how).heedless = s.heedless.conclude id how := by
  have hcancel := Clock.heedless_cancel s.clock id
  exact congrArg (fun clock => { s.conclude id how with clock }) hcancel

theorem heedless_finish (hemit : Oblivious emit) (how : Ending) :
    (finish emit id how s).heedless = finish emit id how s.heedless := by
  simp only [finish, heedless_sessions]
  split
  · rfl
  split
  · rfl
  rw [← heedless_conclude, ← heedless_foldl fun s part => heedless_leave hemit part]
  rfl

theorem heedless_stop (hemit : Oblivious emit) : (stop emit s).heedless = stop emit s.heedless := by
  simp only [stop, heedless_current]
  split
  · rfl
  · rw [hemit, heedless_finish hemit]

theorem heedless_clear (hemit : Oblivious emit) (fuel : Nat) :
    (clear emit fuel s).heedless = clear emit fuel s.heedless := by
  induction fuel generalizing s with
  | zero => rfl
  | succ fuel ih =>
    simp only [clear, heedless_current]
    split
    · rfl
    · rw [ih, heedless_finish hemit]

theorem heedless_enter (plan : Plan) : (enter id plan s).heedless = enter id plan s.heedless := by
  have hstrike (s : Playback) (p : Binary64 × Nat) :
      (s.after p.1 id (.strike plan.part p.2)).heedless =
        s.heedless.after p.1 id (.strike plan.part p.2) := heedless_after ..
  simp only [enter, heedless_after]
  rw [heedless_foldl hstrike, heedless_through, heedless_update]

/-- What a function that may fail does on a clock that takes no notice of cancelling. -/
def onHeedless {ε α : Type} (p : Except ε α × Playback) : Except ε α × Playback :=
  (p.1, p.2.heedless)

theorem heedless_enterAll (speed : Number) (cast : List (Nat × Nat)) :
    onHeedless (enterAll id speed cast s) = enterAll id speed cast s.heedless := by
  induction cast generalizing s with
  | nil => rfl
  | cons place rest ih =>
    obtain ⟨index, performer⟩ := place
    simp only [enterAll, heedless_performers]
    split
    · exact ih
    split
    · rfl
    · rw [ih, heedless_enter]

theorem heedless_launch : (launch id s).heedless = launch id s.heedless := by
  simp only [launch, heedless_sessions]
  split
  · rfl
  · rw [← heedless_after]
    rfl

theorem heedless_play (hemit : Oblivious emit) (performers : List Nat) (speed : Number) :
    onHeedless (play emit performers speed s) = play emit performers speed s.heedless := by
  have hcast : s.heedless.castOf performers = s.castOf performers := rfl
  have hleft : s.heedless.stop emit = (s.stop emit).heedless := (heedless_stop hemit).symm
  simp only [play, hcast]
  split
  · rfl
  split
  · rfl
  have hreactions : (s.stop emit).heedless.reactionsLeft = (s.stop emit).reactionsLeft := rfl
  rw [hleft, hreactions, ← heedless_clear hemit]
  generalize clear emit ((s.stop emit).reactionsLeft + 1) (s.stop emit) = t
  have hbegin : t.heedless.begin speed = (t.begin speed).heedless := rfl
  rw [hbegin, ← heedless_enterAll, heedless_sessions]
  cases h : enterAll t.sessions.length speed (s.castOf performers) (t.begin speed) with
  | mk result u =>
    cases result with
    | error fault => rfl
    | ok _ =>
      simp only [onHeedless]
      rw [heedless_launch]

/-! ## Reporting on both clocks -/

theorem heedless_act (hemit : Oblivious emit) (r : Reaction) :
    (act emit r s).heedless = act emit r s.heedless := by
  cases r with
  | log => rfl
  | fail => rfl
  | stop => exact heedless_stop hemit
  | play performers speed =>
    exact congrArg Prod.snd (heedless_play hemit performers (speed.getD s.defaultSpeed))
  | listen | resolve | assign | panic => rfl

theorem heedless_react {act : Reaction → Playback → Playback}
    (hact : ∀ r s, (act r s).heedless = act r s.heedless) (i : Nat) :
    (react act s i).heedless = react act s.heedless i := by
  simp only [react, heedless_listeners]
  split
  · rfl
  split
  · rfl
  · exact hact ..
  · rfl

theorem heedless_emitWith {act : Reaction → Playback → Playback}
    (hact : ∀ r s, (act r s).heedless = act r s.heedless) : Oblivious (emitWith act) := by
  intro r s
  have hlistening : s.heedless.listening r.topic = s.listening r.topic := rfl
  simp only [emitWith, hlistening]
  exact heedless_foldl (fun s i => heedless_react hact i) _ _

theorem heedless_emitWithin (depth : Nat) : Oblivious (emitWithin depth) := by
  induction depth with
  | zero => exact heedless_emitWith fun _ _ => rfl
  | succ depth ih => exact heedless_emitWith fun r s => heedless_act ih r

theorem heedless_emit : Oblivious Playback.emit :=
  fun r s => heedless_emitWithin s.reactionsLeft r s

/-! ## Timers on both clocks -/

theorem heedless_sound (part : Part) (event : Nat) (note : Midi.Data) (seconds : Binary64) :
    (sound id part event note seconds s).heedless =
      sound id part event note seconds s.heedless := by
  simp only [sound, heedless_after]
  rfl

theorem heedless_strike (hemit : Oblivious emit) (part : Part) (event : Nat) :
    onHeedless (strike emit id part event s) = strike emit id part event s.heedless := by
  have heventAt (s : Playback) : s.heedless.eventAt? id part event = s.eventAt? id part event := rfl
  simp only [strike, ← heedless_update, heventAt, ← heedless_release, ← heedless_sound, ← hemit _ _]
  split
  · rfl
  split
  · rfl
  · rfl
  split
  · rfl
  rename_i seconds _
  generalize emit _ (sound ..) = t
  by_cases h : t.IsCurrent id
  · have h' : t.heedless.IsCurrent id := h
    rw [if_pos h, if_pos h']
    rfl
  · have h' : ¬ t.heedless.IsCurrent id := h
    rw [if_neg h, if_neg h']
    rfl

theorem heedless_releaseEvent (part : Part) (event : Nat) :
    (releaseEvent id part event s).heedless = releaseEvent id part event s.heedless := by
  simp only [releaseEvent, heedless_sessions]
  split
  · split
    · exact heedless_release part
    · rfl
  · rfl

theorem heedless_endPart (hemit : Oblivious emit) (part : Part) :
    (endPart emit id part s).heedless = endPart emit id part s.heedless := by
  simp only [endPart, ← heedless_release, ← heedless_setCursor, ← hemit _ _]
  generalize emit _ (setCursor ..) = t
  by_cases h : t.IsCurrent id
  · have h' : t.heedless.IsCurrent id := h
    rw [if_pos h, if_pos h', hemit]
  · have h' : ¬ t.heedless.IsCurrent id := h
    rw [if_neg h, if_neg h']

/-- Where a cancelled timer is passed over on the one clock, it fires on the other for a session that
is not active, and so does nothing there either. -/
theorem heedless_fire (hemit : Oblivious emit) {t : Timer Task}
    (ht : t.cancelled = true → ¬ s.IsCurrent t.owner) :
    onHeedless (fire emit t s) = fire emit t.restored s.heedless := by
  rw [fire, fire, if_neg (show ¬ t.restored.cancelled = true from Bool.false_ne_true)]
  by_cases hcurrent : s.IsCurrent t.owner
  · have hlive : ¬ t.cancelled = true := fun h => ht h hcurrent
    have hcurrent' : s.heedless.IsCurrent t.restored.owner := hcurrent
    rw [if_neg hlive, if_pos hcurrent, if_pos hcurrent']
    obtain ⟨due, owner, task, cancelled⟩ := t
    cases task with
    | strike part event => exact heedless_strike hemit part event
    | release part event => exact congrArg (Prod.mk _) (heedless_releaseEvent part event)
    | endPart part => exact congrArg (Prod.mk _) (heedless_endPart hemit part)
    | complete =>
      refine congrArg (Prod.mk _) ?_
      rw [hemit, heedless_finish hemit]
      rfl
  · have hcurrent' : ¬ s.heedless.IsCurrent t.restored.owner := hcurrent
    rw [if_neg hcurrent, if_neg hcurrent', ite_self]
    rfl

/-! ## Letting time pass on both clocks -/

/-- Every cancelled timer belongs to a session that has ended. -/
def CancelledEnded (s : Playback) : Prop :=
  ∀ t ∈ s.clock.queue, t.cancelled = true → s.HasEnded t.owner

theorem Leads.cancelledEnded {but : Option Nat} {more : Nat} (h : Leads but more s s')
    (hs : s.CancelledEnded) :
    s'.CancelledEnded := by
  intro t ht hcancelled
  rcases h.cancelled t ht hcancelled with ht | ht
  · exact h.ended _ (hs t ht hcancelled)
  · exact ht

/-- A cancelled timer comes to nothing on the clock that never cancels, where it comes up as any other. -/
theorem fire_restored_of_cancelled {t : Timer Task} (rest : List (Timer Task))
    (hcancelled : t.cancelled = true) (hended : s.HasEnded t.owner) :
    fire Playback.emit t.restored (s.heedless.moved t.due (rest.map Timer.restored)) =
      (.ok (), s.heedless.moved t.due (rest.map Timer.restored)) := by
  have hidle := heedless_fire heedless_emit (s := s.moved t.due rest) (t := t)
    fun _ hcurrent => hcurrent.not_hasEnded hended
  exact hidle.symm.trans (congrArg onHeedless (fire_of_cancelled _ _ hcancelled))

/-- Time passes alike on both clocks, timer by timer. -/
theorem heedless_advanceTo (target : Binary64) (fuel : Nat) (hs : s.CancelledEnded) :
    onHeedless (advanceTo target fuel s) = advanceTo target fuel s.heedless := by
  induction fuel generalizing s with
  | zero => rfl
  | succ fuel ih =>
    cases hqueue : s.clock.queue with
    | nil =>
      have hqueue' : s.heedless.clock.queue = [] := congrArg (List.map Timer.restored) hqueue
      rw [advanceTo_nil _ _ hqueue, advanceTo_nil _ _ hqueue']; rfl
    | cons t rest =>
      have hqueue' : s.heedless.clock.queue = t.restored :: rest.map Timer.restored :=
        congrArg (List.map Timer.restored) hqueue
      by_cases hdue : t.due ≤ target + Clock.slack
      · have hdue' : t.restored.due ≤ target + Clock.slack := hdue
        have hrest (now : Binary64) : (s.moved now rest).CancelledEnded := fun u hu hcancelled =>
          hs u (hqueue ▸ List.mem_cons_of_mem t hu) hcancelled
        rw [advanceTo_of_due fuel hqueue hdue, advanceTo_of_due fuel hqueue' hdue',
          if_neg (show ¬ t.restored.cancelled = true from Bool.false_ne_true)]
        cases hcancelled : t.cancelled with
        | true =>
          have hidle := fire_restored_of_cancelled rest hcancelled
            (hs t (hqueue ▸ List.mem_cons_self) hcancelled)
          rw [if_pos rfl, fire_of_cancelled _ _ hcancelled, show t.restored.due = t.due from rfl, hidle]
          -- the clocks now stand at different times, which does not matter to what follows
          exact (ih (hrest s.clock.now)).trans
            (advanceTo_moved_now target t.due fuel (s.moved s.clock.now rest).heedless).symm
        | false =>
          have hfire := heedless_fire heedless_emit (s := s.moved t.due rest) (t := t)
            fun h => absurd h (hcancelled ▸ Bool.false_ne_true)
          have hfire' : onHeedless (fire Playback.emit t (s.moved t.due rest)) =
              fire Playback.emit t.restored
                (s.heedless.moved t.restored.due (rest.map Timer.restored)) := hfire
          have hleads := (leads_fire (s := s.moved t.due rest) t).cancelledEnded (hrest t.due)
          rw [if_neg Bool.false_ne_true, ← hfire']
          generalize fire Playback.emit t (s.moved t.due rest) = p at hleads
          obtain ⟨result, u⟩ := p
          cases result with
          | error fault => rfl
          | ok _ => exact ih hleads
      · have hdue' : ¬ t.restored.due ≤ target + Clock.slack := hdue
        rw [advanceTo_of_not_due _ hqueue hdue, advanceTo_of_not_due _ hqueue' hdue']; rfl

/-! ## Commands on both clocks -/

/-- Commands keep it so that every cancelled timer belongs to an ended session. -/
theorem cancelledEnded_perform {c : Command} (hc : c ≠ .runAll) (hs : s.CancelledEnded) :
    (perform c s).2.CancelledEnded := by
  cases c with
  | play performers speed => exact (leads_play leads_emit performers _).cancelledEnded hs
  | stop => exact (leads_stop leads_emit).cancelledEnded hs
  | advance seconds =>
    simp only [perform]
    split
    · exact (leads_advanceTo _ _).cancelledEnded hs
    · exact hs
  | runAll => exact absurd rfl hc
  | eligible performers => exact hs
  | panic => exact hs
  | close => exact (leads_stop leads_emit).cancelledEnded hs
  | assign performer values => exact hs
  | listen l => exact hs
  | resolve id =>
    have hresolve : Leads none 0 s (s.update id (·.resolve .cancelled)) := .resolve .cancelled
    rw [perform_resolve]
    exact hresolve.cancelledEnded hs

theorem heedless_workload : s.heedless.workload = s.workload := by
  have hqueue : s.heedless.clock.queue.foldl (fun n t => n + t.task.weight) 0 =
      s.clock.queue.foldl (fun n t => n + t.task.weight) 0 := by
    simp only [heedless, Clock.heedless, List.foldl_map]
    rfl
  have hweight (r : Reaction) : s.heedless.reactionWeight r = s.reactionWeight r :=
    reactionWeight_congr heedless_performers r
  simp only [workload, hqueue, hweight, heedless_listeners]

/-- A command does the same on both clocks. Only `runAll`, which asks for pending timers, can tell
them apart. -/
theorem heedless_perform {c : Command} (hc : c ≠ .runAll) (hs : s.CancelledEnded) :
    onHeedless (perform c s) = perform c s.heedless := by
  cases c with
  | play performers speed => exact congrArg (answer .session) (heedless_play heedless_emit ..)
  | stop => exact congrArg done (heedless_stop heedless_emit)
  | advance seconds =>
    simp only [perform, advance, heedless_workload, heedless_now, ← heedless_advanceTo _ _ hs]
    split <;> rfl
  | runAll => exact absurd rfl hc
  | eligible performers => rfl
  | panic => rfl
  | close =>
    have hclose := congrArg (fun s : Playback => s.through (·.close))
      (heedless_stop (s := s) heedless_emit)
    exact congrArg done hclose
  | assign performer values => rfl
  | listen l => rfl
  | resolve id =>
    simp only [perform, resolveFrom, heedless_sessions]
    split <;> rfl

/-- All of the state but the timers: what has been sent and told, the output with the notes that
sound, the sessions with their phases and results, and the performers with their places. -/
def withoutTimers (s : Playback) : Playback := { s with clock := ⟨s.clock.now, [], false⟩ }

/-- **Cancelled timers do nothing.** On a clock that takes no notice of cancelling, every command
but `runAll` has the same answer and leads to the same state, timers apart, as on one that
cancels. -/
theorem history_withoutTimers (output : Output) (voices : List Voice) (listeners : List Listener)
    (defaultSpeed : Number) (cs : List Command) (hcs : ∀ c ∈ cs, c ≠ .runAll) :
    (history cs (start output voices listeners defaultSpeed true)).map
        (fun p => (p.1, p.2.withoutTimers)) =
      (history cs (start output voices listeners defaultSpeed false)).map
        (fun p => (p.1, p.2.withoutTimers)) := by
  have hstart : (start output voices listeners defaultSpeed true).heedless =
      start output voices listeners defaultSpeed false := rfl
  have hlawful : (start output voices listeners defaultSpeed true).CancelledEnded := by
    intro t ht
    exact absurd ht List.not_mem_nil
  rw [← hstart]
  -- each command keeps that what is cancelled has ended, which is all that the next one needs
  generalize start output voices listeners defaultSpeed true = s at hlawful
  induction cs generalizing s with
  | nil => rfl
  | cons c cs ih =>
    have hc := hcs c List.mem_cons_self
    have hstep := heedless_perform hc hlawful
    have hrest := ih (fun c h => hcs c (List.mem_cons_of_mem _ h)) _
      (cancelledEnded_perform hc hlawful)
    simp only [history, List.map_cons, ← hstep, onHeedless, hrest]
    rfl

/-- A listener that starts the session again while it is stopped: on either clock the history is the
same, although on the one the timers of the first session still come up. -/
theorem history_withoutTimers_restart :
    let note : Melody.Event :=
      ⟨.note .c false 4, 0, Melody.defaultDuration, Melody.defaultDuration, none, ['C'], (0, 1)⟩
    let commands : List Command :=
      [.play [0] none, .advance (.real Number.half), .stop, .advance 2, .play [0] none, .advance 2]
    let run (cancels : Bool) := history commands
      (start (.ofConnection (some ⟨false⟩) none) [.ofMelody ⟨['C'], [note]⟩]
        [⟨.stop, 0, 1, .play [0] none⟩] (.real 1) cancels)
    (∀ c ∈ commands, c ≠ .runAll) ∧
      (run true).map (fun p => (p.1, p.2.withoutTimers)) =
        (run false).map (fun p => (p.1, p.2.withoutTimers)) := by
  intro note commands run
  have hcommands : ∀ c ∈ commands, c ≠ .runAll := by simp [commands]
  exact ⟨hcommands, history_withoutTimers _ _ _ _ commands hcommands⟩

end Monody.Playback
