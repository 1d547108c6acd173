import Mathlib.Algebra.BigOperators.Group.List.Basic
import Mathlib.Tactic.Ring
import Monody.Playback.Run

/-!
# What the updates of playback leave alone

Every step of playback is made of a few updates of its state. Each of them changes one component,
and most facts about a run only need to know which.

## Main definitions

* `Playback.HasEnded` — a session is there and has ended
* `Command.IsWait` — a command asks for time to pass

## Main results

* `sessions_update_of_ne`, `sessions_update_self` — an update changes one session
* `history_forall` — what every command keeps holds all along a history
-/

namespace Monody.Playback

variable {s : Playback} {id j : Nat}

/-! ## Single updates -/

section Updates

variable (s : Playback) (e : Entry) (id : Nat) (f : Session → Session)
  (call : Output → Output.Effect) (i : Nat) (event : Option Nat) (l : Listener)
  (values : Assignment) (delay : Binary64) (task : Task)

@[simp] theorem record_clock : (s.record e).clock = s.clock := rfl
@[simp] theorem record_sessions : (s.record e).sessions = s.sessions := rfl
@[simp] theorem record_current : (s.record e).current = s.current := rfl
@[simp] theorem record_output : (s.record e).output = s.output := rfl
@[simp] theorem record_performers : (s.record e).performers = s.performers := rfl
@[simp] theorem record_listeners : (s.record e).listeners = s.listeners := rfl
@[simp] theorem record_defaultSpeed : (s.record e).defaultSpeed = s.defaultSpeed := rfl

@[simp] theorem update_clock : (s.update id f).clock = s.clock := rfl
@[simp] theorem update_sessions : (s.update id f).sessions = s.sessions.modify id f := rfl
@[simp] theorem update_current : (s.update id f).current = s.current := rfl
@[simp] theorem update_output : (s.update id f).output = s.output := rfl
@[simp] theorem update_performers : (s.update id f).performers = s.performers := rfl
@[simp] theorem update_listeners : (s.update id f).listeners = s.listeners := rfl
@[simp] theorem update_defaultSpeed : (s.update id f).defaultSpeed = s.defaultSpeed := rfl

@[simp] theorem through_clock : (s.through call).clock = s.clock := rfl
@[simp] theorem through_sessions : (s.through call).sessions = s.sessions := rfl
@[simp] theorem through_current : (s.through call).current = s.current := rfl
@[simp] theorem through_output : (s.through call).output = (call s.output).output := rfl
@[simp] theorem through_performers : (s.through call).performers = s.performers := rfl
@[simp] theorem through_listeners : (s.through call).listeners = s.listeners := rfl
@[simp] theorem through_defaultSpeed : (s.through call).defaultSpeed = s.defaultSpeed := rfl

@[simp] theorem setCursor_clock : (s.setCursor i event).clock = s.clock := rfl
@[simp] theorem setCursor_sessions : (s.setCursor i event).sessions = s.sessions := rfl
@[simp] theorem setCursor_current : (s.setCursor i event).current = s.current := rfl
@[simp] theorem setCursor_output : (s.setCursor i event).output = s.output := rfl
@[simp] theorem setCursor_listeners : (s.setCursor i event).listeners = s.listeners := rfl
@[simp] theorem setCursor_defaultSpeed : (s.setCursor i event).defaultSpeed = s.defaultSpeed := rfl

@[simp] theorem setListener_clock : (s.setListener i l).clock = s.clock := rfl
@[simp] theorem setListener_sessions : (s.setListener i l).sessions = s.sessions := rfl
@[simp] theorem setListener_current : (s.setListener i l).current = s.current := rfl
@[simp] theorem setListener_output : (s.setListener i l).output = s.output := rfl
@[simp] theorem setListener_performers : (s.setListener i l).performers = s.performers := rfl
@[simp] theorem setListener_listeners : (s.setListener i l).listeners = s.listeners.set i l := rfl
@[simp] theorem setListener_defaultSpeed : (s.setListener i l).defaultSpeed = s.defaultSpeed := rfl

@[simp] theorem addListener_clock : (s.addListener l).clock = s.clock := rfl
@[simp] theorem addListener_sessions : (s.addListener l).sessions = s.sessions := rfl
@[simp] theorem addListener_current : (s.addListener l).current = s.current := rfl
@[simp] theorem addListener_output : (s.addListener l).output = s.output := rfl
@[simp] theorem addListener_performers : (s.addListener l).performers = s.performers := rfl
@[simp] theorem addListener_listeners : (s.addListener l).listeners = s.listeners ++ [l] := rfl
@[simp] theorem addListener_defaultSpeed : (s.addListener l).defaultSpeed = s.defaultSpeed := rfl

@[simp] theorem assign_clock : (s.assign i values).clock = s.clock := rfl
@[simp] theorem assign_sessions : (s.assign i values).sessions = s.sessions := rfl
@[simp] theorem assign_current : (s.assign i values).current = s.current := rfl
@[simp] theorem assign_output : (s.assign i values).output = s.output := rfl
@[simp] theorem assign_listeners : (s.assign i values).listeners = s.listeners := rfl
@[simp] theorem assign_defaultSpeed : (s.assign i values).defaultSpeed = s.defaultSpeed := rfl

@[simp] theorem after_clock : (s.after delay id task).clock = s.clock.after delay id task := rfl
@[simp] theorem after_sessions : (s.after delay id task).sessions = s.sessions := rfl
@[simp] theorem after_current : (s.after delay id task).current = s.current := rfl
@[simp] theorem after_output : (s.after delay id task).output = s.output := rfl
@[simp] theorem after_performers : (s.after delay id task).performers = s.performers := rfl
@[simp] theorem after_listeners : (s.after delay id task).listeners = s.listeners := rfl
@[simp] theorem after_defaultSpeed : (s.after delay id task).defaultSpeed = s.defaultSpeed := rfl

end Updates

/-- An update leaves every other session as it is. -/
theorem sessions_update_of_ne {f : Session → Session} (h : id ≠ j) :
    (s.update id f).sessions[j]? = s.sessions[j]? := by
  simp [h]

theorem sessions_update_self {f : Session → Session} {session : Session}
    (h : s.sessions[id]? = some session) :
    (s.update id f).sessions[id]? = some (f session) := by
  simp [h]

/-- What none of several updates changes stays the same. -/
theorem foldl_keeps {α β : Type} {f : Playback → α → Playback} {g : Playback → β}
    (h : ∀ s a, g (f s a) = g s) (as : List α) (s : Playback) : g (as.foldl f s) = g s := by
  induction as generalizing s with
  | nil => rfl
  | cons a as ih => rw [List.foldl_cons, ih, h]

/-- A performer who enters a session changes nothing but its parts in the sessions. -/
theorem enter_sessions (plan : Plan) :
    (enter id plan s).sessions =
      s.sessions.modify id fun session => { session with parts := session.parts ++ [plan.part] } := by
  have hstrike (s : Playback) (p : Binary64 × Nat) :
      (s.after p.1 id (.strike plan.part p.2)).sessions = s.sessions := after_sessions ..
  simp only [enter, after_sessions]
  rw [foldl_keeps (g := Playback.sessions) hstrike, through_sessions, update_sessions]

theorem enter_performers (plan : Plan) : (enter id plan s).performers = s.performers := by
  have hstrike (s : Playback) (p : Binary64 × Nat) :
      (s.after p.1 id (.strike plan.part p.2)).performers = s.performers := after_performers ..
  simp only [enter, after_performers]
  rw [foldl_keeps (g := Playback.performers) hstrike, through_performers, update_performers]

theorem release_clock (id : Nat) (part : Part) : (release id part s).clock = s.clock := by
  simp only [release]
  split <;> rfl

theorem release_current (id : Nat) (part : Part) : (release id part s).current = s.current := by
  simp only [release]
  split <;> rfl

theorem release_listeners (id : Nat) (part : Part) : (release id part s).listeners = s.listeners := by
  simp only [release]
  split <;> rfl

theorem release_performers (id : Nat) (part : Part) :
    (release id part s).performers = s.performers := by
  simp only [release]
  split <;> rfl

/-- When its note is to be released, a part releases it, unless it holds none or another one by then. -/
theorem releaseEvent_eq_or (id : Nat) (part : Part) (event : Nat) (s : Playback) :
    releaseEvent id part event s = release id part s ∨ releaseEvent id part event s = s := by
  rw [releaseEvent]
  split
  · split
    · exact .inl rfl
    · exact .inr rfl
  · exact .inr rfl

theorem releaseEvent_clock (id : Nat) (part : Part) (event : Nat) :
    (releaseEvent id part event s).clock = s.clock := by
  rcases releaseEvent_eq_or id part event s with heq | heq
  · rw [heq, release_clock]
  · rw [heq]

/-! ## Timers -/

namespace Clock

variable {τ : Type} {c : Clock τ} {t u : Timer τ} {us : List (Timer τ)} {owner : Nat}

theorem mem_insert : u ∈ insert t us ↔ u = t ∨ u ∈ us := by
  induction us with
  | nil => simp [insert]
  | cons v us ih =>
    simp only [insert]
    split
    · simp
    · rw [List.mem_cons, ih, List.mem_cons, or_left_comm]

/-- Where a timer takes its place depends only on when timers are due. -/
theorem map_insert {τ' : Type} {g : Timer τ → Timer τ'} (hdue : ∀ u, (g u).due = u.due) (t : Timer τ)
    (us : List (Timer τ)) : (insert t us).map g = insert (g t) (us.map g) := by
  induction us with
  | nil => rfl
  | cons u us ih =>
    rw [insert, List.map_cons, insert, hdue, hdue]
    split
    · rfl
    · rw [List.map_cons, ih]

/-- A new timer is pending along with those before it. -/
theorem mem_timers_after {delay : Binary64} {task : τ} :
    t ∈ (c.after delay owner task).timers ↔
      t = ⟨c.now + Binary64.max 0 delay, owner, task, false⟩ ∨ t ∈ c.timers := by
  simp only [timers, after, List.mem_filter, mem_insert]
  constructor
  · rintro ⟨rfl | ht, hpending⟩
    · exact .inl rfl
    · exact .inr ⟨ht, hpending⟩
  · rintro (rfl | ⟨ht, hpending⟩)
    · exact ⟨.inl rfl, rfl⟩
    · exact ⟨.inr ht, hpending⟩

/-- Cancelling passes over the timers of other owners. -/
theorem cancelIf_of_ne (h : t.owner ≠ owner) : cancelIf owner t = t := by
  obtain ⟨due, of, task, cancelled⟩ := t
  have hother : (of == owner) = false := beq_false_of_ne h
  rw [cancelIf, hother, Bool.or_false]

/-- Where all pending timers belong to one owner, none is left when he has cancelled them. -/
theorem timers_cancel (hcancels : c.cancels = true) (h : ∀ t ∈ c.timers, t.owner = owner) :
    (c.cancel owner).timers = [] := by
  rw [cancel, if_pos hcancels]
  refine List.filter_eq_nil_iff.mpr fun t ht => ?_
  obtain ⟨u, hu, rfl⟩ := List.mem_map.mp ht
  cases hcancelled : u.cancelled with
  | true => simp [cancelIf, hcancelled]
  | false =>
    have howner := h u (List.mem_filter.mpr ⟨hu, by simp [hcancelled]⟩)
    simp [cancelIf, howner]

end Clock

/-! ## Listeners -/

theorem Reaction.count_pos (r : Reaction) : 0 < r.count := by
  cases r with
  | listen => exact Nat.succ_pos _
  | log | fail | stop | play | resolve | assign | panic => exact Nat.one_pos

theorem reactionsLeft_eq_sum :
    s.reactionsLeft = (s.listeners.map fun l => l.times * l.reaction.count).sum := by
  rw [reactionsLeft, List.sum_eq_foldl, List.foldl_map]

theorem sum_map_set {α : Type} {f : α → Nat} {as : List α} {i : Nat} {a : α} (h : as[i]? = some a)
    (b : α) : ((as.set i b).map f).sum + f a = (as.map f).sum + f b := by
  induction as generalizing i with
  | nil => simp at h
  | cons c as ih =>
    cases i with
    | zero =>
      obtain rfl : c = a := by simpa using h
      simp only [List.set_cons_zero, List.map_cons, List.sum_cons]
      omega
    | succ i =>
      have hrest := ih (i := i) (by simpa using h)
      simp only [List.set_cons_succ, List.map_cons, List.sum_cons]
      omega

/-- What may come of a listener takes the place of what might have come of the one before him. -/
theorem reactionsLeft_setListener {i : Nat} {l : Listener} (h : s.listeners[i]? = some l)
    (l' : Listener) : (s.setListener i l').reactionsLeft + l.times * l.reaction.count =
      s.reactionsLeft + l'.times * l'.reaction.count := by
  rw [reactionsLeft_eq_sum, reactionsLeft_eq_sum]
  exact sum_map_set (f := fun l => l.times * l.reaction.count) h l'

theorem reactionsLeft_skipped {i : Nat} {l : Listener} (h : s.listeners[i]? = some l) (skip : Nat) :
    (s.setListener i { l with skip }).reactionsLeft = s.reactionsLeft :=
  Nat.add_right_cancel (reactionsLeft_setListener h { l with skip })

/-- A reaction that is used up counts no more. -/
theorem reactionsLeft_used {i times : Nat} {l : Listener} (h : s.listeners[i]? = some l)
    (htimes : l.times = times + 1) :
    (s.setListener i { l with times }).reactionsLeft + l.reaction.count = s.reactionsLeft := by
  have hcount := reactionsLeft_setListener h { l with times }
  rw [htimes, Nat.succ_mul] at hcount
  dsimp only at hcount
  omega

theorem reactionsLeft_addListener (l : Listener) :
    (s.addListener l).reactionsLeft = s.reactionsLeft + l.times * l.reaction.count := by
  rw [reactionsLeft_eq_sum, reactionsLeft_eq_sum, addListener_listeners, List.map_append, List.sum_append,
    List.map_singleton, List.sum_singleton]

/-- What a reaction may set depends on the performers alone. -/
theorem reactionWeight_congr {s' : Playback} (h : s'.performers = s.performers) (r : Reaction) :
    s'.reactionWeight r = s.reactionWeight r := by
  induction r with
  | log | fail | stop | resolve | assign | panic => rfl
  | play performers speed => simp only [reactionWeight, h]
  | listen topic skip times reaction ih => exact congrArg (times * ·) ih

/-! ## Cursors -/

/-- A performer who is at an event after another one was sent to one was at it before. -/
theorem isSome_cursor?_setCursor {i : Nat} {event : Option Nat}
    (h : ((s.setCursor i event).cursor? j).isSome) :
    j = i ∧ event.isSome ∨ j ≠ i ∧ (s.cursor? j).isSome := by
  simp only [cursor?, setCursor, List.getElem?_modify] at h ⊢
  by_cases hij : i = j
  · subst hij
    refine .inl ⟨rfl, ?_⟩
    cases hp : s.performers[i]? <;> simp [hp] at h
    exact h
  · refine .inr ⟨Ne.symm hij, ?_⟩
    simpa [hij] using h

/-- New settings of a voice do not move its performer. -/
@[simp]
theorem cursor?_assign (performer : Nat) (values : Assignment) (i : Nat) :
    (s.assign performer values).cursor? i = s.cursor? i := by
  simp only [cursor?, assign, List.getElem?_modify]
  cases s.performers[i]? with
  | none => rfl
  | some p => by_cases h : performer = i <;> simp [h]

/-! ## Ended sessions -/

/-- A session is there and has ended. -/
def HasEnded (s : Playback) (id : Nat) : Prop :=
  ∃ session, s.sessions[id]? = some session ∧ session.hasEnded = true

/-- An active session has not ended. -/
theorem IsCurrent.not_hasEnded (h : s.IsCurrent id) : ¬ s.HasEnded id := by
  rintro ⟨session, hs, hended⟩
  obtain ⟨-, other, hother, hnot⟩ := h
  rw [hs, Option.mem_some] at hother
  subst hother
  rw [hended] at hnot
  exact Bool.noConfusion hnot

/-- Whether a session has ended depends on the sessions alone. -/
theorem HasEnded.congr {s' : Playback} (h : s'.sessions = s.sessions) :
    s'.HasEnded id ↔ s.HasEnded id := by
  rw [HasEnded, HasEnded, h]

/-- An update that does not touch the phase ends no session and revives none. -/
theorem hasEnded_update_iff {f : Session → Session}
    (hf : ∀ session : Session, (f session).phase = session.phase) :
    (s.update id f).HasEnded j ↔ s.HasEnded j := by
  have hended (session : Session) : (f session).hasEnded = session.hasEnded := by
    simp only [Session.hasEnded, hf]
  rw [HasEnded, HasEnded]
  by_cases hid : id = j
  · subst hid
    cases hs : s.sessions[id]? <;> simp [hs, hended]
  · rw [sessions_update_of_ne hid]

/-- What an update does to one session does not matter to the end of another. -/
theorem hasEnded_update_of_ne {f : Session → Session} (h : id ≠ j) :
    (s.update id f).HasEnded j ↔ s.HasEnded j := by
  rw [HasEnded, HasEnded, sessions_update_of_ne h]

/-- A session that has not ended yet is concluded, all its parts leave, and its result is recorded. -/
theorem finish_of_live {session : Session} (hsession : s.sessions[id]? = some session)
    (hlive : session.hasEnded = false) (emit : Report → Playback → Playback) (how : Ending) :
    finish emit id how s =
      (session.parts.foldl (leave emit id) (s.conclude id how)).update id (·.resolve how) := by
  rw [finish, hsession]
  dsimp only
  rw [hlive, if_neg Bool.false_ne_true]

/-- Where no session is active, none is to be cancelled. -/
theorem clear_eq (emit : Report → Playback → Playback) (fuel : Nat) (h : s.current = none) :
    clear emit fuel s = s := by
  cases fuel with
  | zero => rfl
  | succ fuel => rw [clear, h]

/-! ## Time -/

/-- The state with the clock moved and some timers left. -/
def moved (s : Playback) (now : Binary64) (queue : List (Timer Task)) : Playback :=
  { s with clock := { s.clock with now, queue } }

/-- A cancelled timer comes to nothing. -/
theorem fire_of_cancelled {t : Timer Task} (emit : Report → Playback → Playback) (s : Playback)
    (h : t.cancelled = true) : fire emit t s = (.ok (), s) := by
  rw [fire, if_pos h]

theorem advanceTo_nil (target : Binary64) (fuel : Nat) (h : s.clock.queue = []) :
    advanceTo target fuel s = (.ok (), s.moved target []) := by
  cases fuel with
  | zero => simp only [advanceTo, moved, h]
  | succ fuel => simp only [advanceTo, Clock.due?, moved, h]

theorem advanceTo_of_not_due {target : Binary64} {t : Timer Task} {rest : List (Timer Task)}
    (fuel : Nat) (h : s.clock.queue = t :: rest) (hdue : ¬ t.due ≤ target + Clock.slack) :
    advanceTo target fuel s = (.ok (), s.moved target (t :: rest)) := by
  cases fuel with
  | zero => simp only [advanceTo, moved, h]
  | succ fuel => simp only [advanceTo, Clock.due?, moved, h, if_neg hdue]

/-- A timer that comes up does what it does, and then the next ones come up. -/
theorem advanceTo_of_due {target : Binary64} {t : Timer Task} {rest : List (Timer Task)}
    (fuel : Nat) (h : s.clock.queue = t :: rest) (hdue : t.due ≤ target + Clock.slack) :
    advanceTo target (fuel + 1) s =
      match fire Playback.emit t (s.moved (if t.cancelled then s.clock.now else t.due) rest) with
      | (.error fault, s) => (.error fault, s)
      | (.ok (), s) => advanceTo target fuel s := by
  rw [advanceTo, Clock.due?, h]
  dsimp only
  rw [if_pos hdue]
  rfl

/-- The time at which the clock stands does not matter to what comes up until a target. -/
theorem advanceTo_moved_now (target now : Binary64) (fuel : Nat) (s : Playback) :
    advanceTo target fuel (s.moved now s.clock.queue) = advanceTo target fuel s := by
  induction fuel generalizing s with
  | zero => rfl
  | succ fuel ih =>
    cases hqueue : s.clock.queue with
    | nil => rw [advanceTo_nil _ _ hqueue, advanceTo_nil _ _ rfl]; rfl
    | cons t rest =>
      by_cases hdue : t.due ≤ target + Clock.slack
      · rw [advanceTo_of_due fuel hqueue hdue, advanceTo_of_due fuel rfl hdue]
        cases hcancelled : t.cancelled with
        | true =>
          rw [if_pos rfl, if_pos rfl, fire_of_cancelled _ _ hcancelled, fire_of_cancelled _ _ hcancelled]
          exact (ih (s.moved now rest)).symm.trans (ih (s.moved s.clock.now rest))
        | false => rfl
      · rw [advanceTo_of_not_due _ hqueue hdue, advanceTo_of_not_due _ rfl hdue]; rfl

/-! ## Commands -/

/-- Commands that ask for time to pass. -/
def Command.IsWait : Command → Prop
  | .advance _ | .runAll => True
  | _ => False

/-- Telling a result again changes nothing, so it makes no difference whether one asks first. -/
theorem perform_resolve (id : Nat) (s : Playback) :
    (perform (.resolve id) s).2 = s.update id (·.resolve .cancelled) := by
  rw [perform, resolveFrom]
  split
  · next how hresult =>
    obtain ⟨session, hsession, htold⟩ := Option.bind_eq_some_iff.mp hresult
    have hresolved : session.resolve .cancelled = session := by
      rw [Session.resolve, htold]
      exact congrArg (fun result => { session with result }) htold.symm
    have hsessions : s.sessions.modify id (·.resolve .cancelled) = s.sessions := by
      refine List.ext_getElem? fun j => ?_
      by_cases hj : id = j
      · subst hj
        simp [hsession, hresolved]
      · simp [hj]
    rw [update, hsessions]
  · rfl

/-! ## Histories -/

/-- What holds at first and is kept by every command holds after each step of a history. -/
theorem history_forall {P : Playback → Prop} {allowed : Command → Prop}
    (step : ∀ c s, allowed c → P s → P (perform c s).2) {cs : List Command}
    (hcs : ∀ c ∈ cs, allowed c) {s : Playback} (hs : P s) :
    ∀ p ∈ history cs s, P p.2 := by
  induction cs generalizing s with
  | nil => simp [history]
  | cons c cs ih =>
    have hnext := step c s (hcs c List.mem_cons_self) hs
    intro p hp
    rcases List.mem_cons.mp hp with rfl | hp
    · exact hnext
    · exact ih (fun c hc => hcs c (List.mem_cons_of_mem _ hc)) hnext p hp

end Monody.Playback
