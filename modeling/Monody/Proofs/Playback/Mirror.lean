import Monody.Proofs.Playback.Queue
import Monody.Proofs.Playback.Remains

/-!
# Playback that mirrors another one

Two states of playback may look alike from some session on: the one has a past, with sessions that are
over and timers of theirs that are left, and the other one has none. Sessions are then counted from
different numbers, and the log of the one goes further back. Where listeners only log, whatever happens to
both of them keeps them alike. What happens to the timers of the past does not matter, as they belong to
no active session, and as all timers are due at moments, the others come up as if they were not there.

## Main definitions

* `Timer.shift` — the timer for a session that is counted from another number
* `Clock.Mirrors` — a clock has the same timers as another one, besides those of the past
* `Mirrors` — playback looks like another one, apart from its past
* `Alike` — two answers are the same, and playback looks alike after them
* `Tallies` — playback looks alike, to whatever time the clocks have been set

## Main results

* `Mirrors.finish`, `Mirrors.fire` — whatever happens to both keeps them alike
* `Mirrors.play` — a session is started alike
* `Mirrors.advanceTo` — time passes alike
-/

namespace Monody.Playback

open Binary64 (IsMoment)

variable {k id : Nat} {before : List Entry} {a b : Playback} {c d : Clock Task}

/-! ## Clocks -/

/-- The timer for a session that is counted from another number. -/
def Timer.shift (k : Nat) (t : Timer Task) : Timer Task := { t with owner := k + t.owner }

namespace Clock

/-- A clock has the same timers as another one, besides those of owners before some number. It stands at the
same time, and if this is a moment, all its timers are due at moments. -/
structure Mirrors (k : Nat) (c d : Clock Task) : Prop where
  now : c.now = d.now
  cancels : c.cancels = d.cancels
  queue : c.now = .nan ∨ IsMoment c.now ∧ IsOrdered c.queue ∧ c.IsNumbered ∧
    c.queue.filter (k ≤ ·.owner) = d.queue.map (·.shift k)

namespace Mirrors

theorem after (h : c.Mirrors k d) (delay : Binary64) (id : Nat) (task : Task) :
    (c.after delay (k + id) task).Mirrors k (d.after delay id task) where
  now := h.now
  cancels := h.cancels
  queue := by
    refine h.queue.imp_right ?_
    rintro ⟨hnow, hordered, hnumbered, hqueue⟩
    refine ⟨hnow, isOrdered_insert _ hordered, fun t ht => ?_, ?_⟩
    · rcases mem_insert.mp ht with rfl | ht
      · exact hnow.add (Binary64.isTime_zero_max delay)
      · exact hnumbered t ht
    · have hown : decide (k ≤ k + id) = true := decide_eq_true (Nat.le_add_right k id)
      have hplace := filter_insert (p := (k ≤ ·.owner)) (t := timerAfter c.now delay (k + id) task)
        hordered hnumbered hown
      have hshift := map_insert (g := Timer.shift k) (fun _ => rfl) (timerAfter c.now delay id task) d.queue
      have hafter : (d.after delay id task).queue = insert (timerAfter c.now delay id task) d.queue := by
        rw [h.now]
        rfl
      rw [hqueue] at hplace
      rw [hafter]
      exact hplace.trans hshift.symm

theorem cancel (h : c.Mirrors k d) (id : Nat) : (c.cancel (k + id)).Mirrors k (d.cancel id) := by
  rw [Clock.cancel, Clock.cancel, ← h.cancels]
  split
  · refine ⟨h.now, rfl, h.queue.imp_right ?_⟩
    rintro ⟨hnow, hordered, hnumbered, hqueue⟩
    refine ⟨hnow, hordered.map fun _ => rfl, List.forall_mem_map.mpr hnumbered, ?_⟩
    have hsame (t : Timer Task) : cancelIf (k + id) (t.shift k) = (cancelIf id t).shift k := by
      have howner : (k + t.owner == k + id) = (t.owner == id) := by simp
      rw [cancelIf, Timer.shift, howner]
      rfl
    rw [List.filter_map, Function.comp_def]
    change ((c.queue.filter (k ≤ ·.owner)).map _) = _
    rw [hqueue, List.map_map, List.map_map]
    exact List.map_congr_left fun t _ => hsame t
  · exact h

end Mirrors

end Clock

/-! ## Playback -/

/-- What is sent and told. -/
def observed (log : List Entry) : List Entry :=
  log.filter fun e => match e with
    | .reaction _ => false
    | _ => true

theorem observed_append (log log' : List Entry) : observed (log ++ log') = observed log ++ observed log' :=
  List.filter_append ..

theorem observed_emit {s : Playback} (h : s.IsLogging) (r : Report) :
    observed (emit r s).log = observed s.log ++ [.report r] := by
  obtain ⟨n, ls, -, heq⟩ := emit_eq h r
  have hnone : observed (List.replicate n (.reaction .log)) = [] :=
    List.filter_eq_nil_iff.mpr fun e he => by
      rw [List.eq_of_mem_replicate he]
      exact Bool.false_ne_true
  rw [heq, observed_append]
  exact congrArg (observed s.log ++ .report r :: ·) hnone

/-- Playback looks like another one, apart from its past: what was logged before, and the first sessions
with their timers. Listeners only log. -/
structure Mirrors (k : Nat) (before : List Entry) (a b : Playback) : Prop where
  clock : a.clock.Mirrors k b.clock
  length : a.sessions.length = k + b.sessions.length
  sessions : ∀ id, a.sessions[k + id]? = b.sessions[id]?
  current : a.current = b.current.map (k + ·)
  output : a.output = b.output
  performers : a.performers = b.performers
  log : observed a.log = before ++ observed b.log
  logging : a.IsLogging ∧ b.IsLogging

/-- Two answers are the same, and playback looks alike after them. -/
def Alike {ε α : Type} (k : Nat) (before : List Entry) (x y : Except ε α × Playback) : Prop :=
  x.1 = y.1 ∧ Mirrors k before x.2 y.2

namespace Mirrors

/-! ### Single changes -/

section Changes

variable (h : Mirrors k before a b)
include h

theorem update (id : Nat) (f : Session → Session) :
    Mirrors k before (a.update (k + id) f) (b.update id f) := { h with
  length := by
    rw [update_sessions, update_sessions, List.length_modify, List.length_modify]
    exact h.length
  sessions := fun j => by
    rw [update_sessions, update_sessions, List.getElem?_modify, List.getElem?_modify, h.sessions]
    simp only [Nat.add_left_cancel_iff] }

theorem through (call : Output → Output.Effect) : Mirrors k before (a.through call) (b.through call) := { h with
  output := congrArg (fun o => (call o).output) h.output
  log := by
    have hsame : (a.through call).log = a.log ++ (call b.output).signals.map .signal := by rw [← h.output]; rfl
    rw [hsame, observed_append, h.log, List.append_assoc, ← observed_append]
    rfl }

theorem setCursor (i : Nat) (event : Option Nat) :
    Mirrors k before (a.setCursor i event) (b.setCursor i event) := { h with
  performers :=
    congrArg (fun ps : List Performer => ps.modify i fun p => { p with cursor := event }) h.performers }

theorem after (delay : Binary64) (id : Nat) (task : Task) :
    Mirrors k before (a.after delay (k + id) task) (b.after delay id task) := { h with
  clock := h.clock.after delay id task }

theorem emit (r : Report) : Mirrors k before (emit r a) (emit r b) where
  clock := by
    rw [emit_clock h.logging.1, emit_clock h.logging.2]
    exact h.clock
  length := by
    rw [emit_sessions h.logging.1, emit_sessions h.logging.2]
    exact h.length
  sessions := by
    rw [emit_sessions h.logging.1, emit_sessions h.logging.2]
    exact h.sessions
  current := by
    rw [emit_current h.logging.1, emit_current h.logging.2]
    exact h.current
  output := by
    rw [emit_output h.logging.1, emit_output h.logging.2]
    exact h.output
  performers := by
    rw [(told_emit h.logging.1 r).performers, (told_emit h.logging.2 r).performers]
    exact h.performers
  log := by
    rw [observed_emit h.logging.1, observed_emit h.logging.2, h.log, List.append_assoc]
  logging := ⟨isLogging_emit h.logging.1 r, isLogging_emit h.logging.2 r⟩

theorem current_eq_iff (id : Nat) : a.current = some (k + id) ↔ b.current = some id := by
  rw [h.current, Option.map_eq_some_iff]
  simp

theorem isCurrent_iff (id : Nat) : a.IsCurrent (k + id) ↔ b.IsCurrent id := by
  rw [IsCurrent, IsCurrent, h.current_eq_iff, h.sessions]

theorem conclude (id : Nat) (how : Ending) :
    Mirrors k before (a.conclude (k + id) how) (b.conclude id how) := { h.update id fun session =>
      { session with phase := .ended how } with
  clock := h.clock.cancel id
  current := by
    change (if a.current = some (k + id) then none else a.current) =
      (if b.current = some id then none else b.current).map (k + ·)
    by_cases hid : b.current = some id
    · rw [if_pos hid, if_pos ((h.current_eq_iff id).mpr hid)]
      rfl
    · rw [if_neg hid, if_neg fun h' => hid ((h.current_eq_iff id).mp h')]
      exact h.current }

theorem begin (speed : Number) : Mirrors k before (a.begin speed) (b.begin speed) := { h with
  length := by
    simp only [Playback.begin, List.length_append]
    rw [h.length, Nat.add_assoc]
  sessions := fun id => by
    simp only [Playback.begin, List.getElem?_append, h.length, Nat.add_lt_add_iff_left, h.sessions,
      Nat.add_sub_add_left]
  current := by
    simp only [Playback.begin, Option.map_some, h.length] }

end Changes

/-! ### Ending a session -/

section Ending

variable (h : Mirrors k before a b)
include h

theorem cursor?_eq (i : Nat) : a.cursor? i = b.cursor? i := by
  rw [cursor?, cursor?, h.performers]

theorem release (id : Nat) (p : Part) : Mirrors k before (release (k + id) p a) (release id p b) := by
  rw [Playback.release, Playback.release, h.sessions]
  split
  · exact h
  · exact (h.update id (·.drop p.index)).through _

theorem leave (id : Nat) (p : Part) :
    Mirrors k before (leave Playback.emit (k + id) a p) (leave Playback.emit id b p) := by
  have hreleased := h.release id p
  rw [Playback.leave, Playback.leave, hreleased.cursor?_eq]
  split
  · exact (hreleased.setCursor p.performer none).emit _
  · exact hreleased

theorem foldl_leave (id : Nat) (ps : List Part) :
    Mirrors k before (ps.foldl (Playback.leave Playback.emit (k + id)) a)
      (ps.foldl (Playback.leave Playback.emit id) b) := by
  induction ps generalizing a b with
  | nil => exact h
  | cons p ps ih => exact ih (h.leave id p)

theorem finish (id : Nat) (how : Ending) :
    Mirrors k before (finish Playback.emit (k + id) how a) (finish Playback.emit id how b) := by
  rw [Playback.finish, Playback.finish, h.sessions]
  split
  · exact h
  · split
    · exact h
    · exact ((h.conclude id how).foldl_leave id _).update id (·.resolve how)

end Ending

/-! ### Starting a session -/

section Starting

variable (h : Mirrors k before a b)
include h

theorem enter (id : Nat) (plan : Plan) : Mirrors k before (enter (k + id) plan a) (enter id plan b) := by
  have hstrikes (ks : List (Binary64 × Nat)) : ∀ a b, Mirrors k before a b →
      Mirrors k before (ks.foldl (fun s p => s.after p.1 (k + id) (.strike plan.part p.2)) a)
        (ks.foldl (fun s p => s.after p.1 id (.strike plan.part p.2)) b) := by
    induction ks with
    | nil => exact fun _ _ h => h
    | cons x ks ih => exact fun a b h => ih _ _ (h.after x.1 id (.strike plan.part x.2))
  have hjoined := h.update id fun session => { session with parts := session.parts ++ [plan.part] }
  exact (hstrikes plan.strikes _ _ (hjoined.through _)).after plan.part.ends id (.endPart plan.part)

theorem enterAll (id : Nat) (speed : Number) (cast : List (Nat × Nat)) :
    Alike k before (enterAll (k + id) speed cast a) (enterAll id speed cast b) := by
  induction cast generalizing a b with
  | nil => exact ⟨rfl, h⟩
  | cons place rest ih =>
    obtain ⟨index, performer⟩ := place
    rw [Playback.enterAll, Playback.enterAll, h.performers]
    split
    · exact ih h
    · split
      · exact ⟨rfl, h⟩
      · exact ih (h.enter id _)

theorem launch (id : Nat) : Mirrors k before (launch (k + id) a) (launch id b) := by
  rw [Playback.launch, Playback.launch, h.sessions]
  split
  · exact h
  · exact (h.after _ id .complete).update id _

end Starting

/-- A session is started alike where no other is active. Before that, the one on the left may have had to
be stopped. -/
theorem play {s : Playback} (h : Mirrors k before (stop Playback.emit s) b) (hidle : b.current = none)
    {performers : List Nat} (hcast : b.castOf performers = s.castOf performers) {speed : Number}
    (hplayed : (play Playback.emit performers speed s).1 = .ok id) :
    (Playback.play Playback.emit performers speed s).1 =
        (Playback.play Playback.emit performers speed b).1.map (k + ·) ∧
      Mirrors k before (Playback.play Playback.emit performers speed s).2
        (Playback.play Playback.emit performers speed b).2 := by
  have hcleared : (stop Playback.emit s).current = none := by
    rw [h.current, hidle]
    rfl
  have hstopped : stop Playback.emit b = b := by rw [stop, hidle]
  by_cases hspeed : speed ≤ 0
  · rw [Playback.play, if_pos hspeed] at hplayed
    cases hplayed
  by_cases hnone : (s.castOf performers).isEmpty
  · simp only [Playback.play, if_neg hspeed, if_pos hnone] at hplayed
    cases hplayed
  simp only [Playback.play, if_neg hspeed, hcast, if_neg hnone, hstopped, clear_eq _ _ hcleared,
    clear_eq _ _ hidle, h.length]
  -- both now enter the same cast into a session that has just begun
  have hentered := (h.begin speed).enterAll b.sessions.length speed (s.castOf performers)
  rcases ha : Playback.enterAll (k + b.sessions.length) speed (s.castOf performers) _ with ⟨answer, a'⟩
  rcases hb : Playback.enterAll b.sessions.length speed (s.castOf performers) _ with ⟨answer', b'⟩
  rw [ha, hb] at hentered
  obtain ⟨hanswer, hmirrors⟩ := hentered
  obtain rfl : answer = answer' := hanswer
  cases answer with
  | error fault => exact ⟨rfl, hmirrors⟩
  | ok => exact ⟨rfl, hmirrors.launch b.sessions.length⟩

/-! ### Timers -/

section Timers

variable (h : Mirrors k before a b)
include h

theorem eventAt?_eq (id : Nat) (p : Part) (event : Nat) : a.eventAt? (k + id) p event = b.eventAt? id p event := by
  rw [eventAt?, eventAt?, h.performers, h.sessions]

theorem sound (id : Nat) (p : Part) (event : Nat) (note : Midi.Data) (seconds : Binary64) :
    Mirrors k before (sound (k + id) p event note seconds a) (sound id p event note seconds b) :=
  (((h.setCursor _ _).through _).update id _).after _ id _

theorem emit_if (id : Nat) (r : Report) :
    Mirrors k before (if a.IsCurrent (k + id) then Playback.emit r a else a)
      (if b.IsCurrent id then Playback.emit r b else b) := by
  by_cases hid : b.IsCurrent id
  · rw [if_pos hid, if_pos ((h.isCurrent_iff id).mpr hid)]
    exact h.emit r
  · rw [if_neg hid, if_neg fun h' => hid ((h.isCurrent_iff id).mp h')]
    exact h

theorem strike (id : Nat) (p : Part) (event : Nat) :
    Alike k before (strike Playback.emit (k + id) p event a) (strike Playback.emit id p event b) := by
  have hplaying := h.update id fun session => { session with phase := .playing }
  rw [Playback.strike, Playback.strike]
  dsimp only
  rw [hplaying.eventAt?_eq]
  split
  · exact ⟨rfl, hplaying⟩
  split
  · exact ⟨rfl, hplaying⟩
  · exact ⟨rfl, hplaying⟩
  split
  · exact ⟨rfl, hplaying.release id p⟩
  · exact ⟨rfl, (((hplaying.release id p).sound id p event _ _).emit _).emit_if id _⟩

theorem releaseEvent (id : Nat) (p : Part) (event : Nat) :
    Mirrors k before (releaseEvent (k + id) p event a) (releaseEvent id p event b) := by
  rw [Playback.releaseEvent, Playback.releaseEvent, h.sessions]
  split
  · split
    · exact h.release id p
    · exact h
  · exact h

theorem endPart (id : Nat) (p : Part) :
    Mirrors k before (endPart Playback.emit (k + id) p a) (endPart Playback.emit id p b) :=
  ((((h.release id p).setCursor p.performer none).emit _).emit_if id _)

/-- A timer does the same on both sides. -/
theorem fire (t : Timer Task) :
    Alike k before (fire Playback.emit (t.shift k) a) (fire Playback.emit t b) := by
  obtain ⟨due, owner, task, cancelled⟩ := t
  have hshift : Timer.shift k ⟨due, owner, task, cancelled⟩ = ⟨due, k + owner, task, cancelled⟩ := rfl
  rw [hshift, Playback.fire, Playback.fire]
  dsimp only
  split
  · exact ⟨rfl, h⟩
  · by_cases hid : b.IsCurrent owner
    · rw [if_pos hid, if_pos ((h.isCurrent_iff owner).mpr hid)]
      cases task with
      | strike p event => exact h.strike owner p event
      | release p event => exact ⟨rfl, h.releaseEvent owner p event⟩
      | endPart p => exact ⟨rfl, h.endPart owner p⟩
      | complete => exact ⟨rfl, (h.finish owner .completed).emit _⟩
    · rw [if_neg hid, if_neg fun h' => hid ((h.isCurrent_iff owner).mp h')]
      exact ⟨rfl, h⟩

/-- No session of the past is active. -/
theorem le_of_current (hid : a.current = some id) : k ≤ id := by
  rw [h.current] at hid
  obtain ⟨j, -, rfl⟩ := Option.map_eq_some_iff.mp hid
  exact Nat.le_add_right k j

end Timers

/-! ### Time -/

/-- The clocks move on to some of the timers. -/
theorem moved (h : Mirrors k before a b) {now : Binary64} (hnow : IsMoment now) {us vs : List (Timer Task)}
    (hordered : Clock.IsOrdered us) (hnumbered : ∀ t ∈ us, IsMoment t.due)
    (hqueue : us.filter (k ≤ ·.owner) = vs.map (·.shift k)) :
    Mirrors k before (a.moved now us) (b.moved now vs) := { h with
  clock := ⟨rfl, h.clock.cancels, .inr ⟨hnow, hordered, hnumbered, hqueue⟩⟩ }

end Mirrors

/-- Playback looks like another one, to whatever time the clocks have been set. -/
def Tallies (k : Nat) (before : List Entry) (a b : Playback) : Prop :=
  a.clock.now = b.clock.now ∧ (a.clock.now = .nan ∧ Mirrors k before a b ∨
    ∃ now, IsMoment now ∧ Mirrors k before (a.moved now a.clock.queue) (b.moved now b.clock.queue))

theorem Mirrors.tallies (h : Mirrors k before a b) : Tallies k before a b := by
  refine ⟨h.clock.now, h.clock.queue.imp (fun hnan => ⟨hnan, h⟩) fun hmoment => ⟨a.clock.now, hmoment.1, ?_⟩⟩
  have hsame : b.moved a.clock.now b.clock.queue = b := by
    rw [h.clock.now]
    rfl
  rw [hsame]
  exact h

/-- Answers are the same, and playback looks alike after them, to whatever time the clocks have been set. -/
def Passes {ε α : Type} (k : Nat) (before : List Entry) (x y : Except ε α × Playback) : Prop :=
  x.1 = y.1 ∧ Tallies k before x.2 y.2

theorem advanceTo_of_none_due {s : Playback} {target : Binary64} (fuel : Nat)
    (h : ∀ t ∈ s.clock.queue, ¬ t.due ≤ target + Clock.slack) :
    advanceTo target fuel s = (.ok (), s.moved target s.clock.queue) := by
  cases hqueue : s.clock.queue with
  | nil => exact advanceTo_nil target fuel hqueue
  | cons t rest => exact advanceTo_of_not_due fuel hqueue (h t (hqueue ▸ List.mem_cons_self))

namespace Mirrors

variable {target : Binary64}

/-- Where no timer is due, the clocks are set alike. -/
theorem advanceTo_of_none_due (h : Mirrors k before a b) (hnow : IsMoment a.clock.now) (m n : Nat)
    (hnone : ∀ t ∈ a.clock.queue, ¬ t.due ≤ target + Clock.slack) :
    Passes k before (Playback.advanceTo target m a) (Playback.advanceTo target n b) := by
  obtain ⟨-, hordered, hnumbered, hown⟩ := h.clock.queue.resolve_left (IsMoment.ne_nan hnow)
  have hnone' : ∀ u ∈ b.clock.queue, ¬ u.due ≤ target + Clock.slack := by
    intro u hu
    have hmem : u.shift k ∈ a.clock.queue.filter (k ≤ ·.owner) := hown ▸ List.mem_map_of_mem hu
    have hmem' : u.shift k ∈ a.clock.queue := List.mem_of_mem_filter hmem
    exact hnone (u.shift k) hmem'
  rw [Playback.advanceTo_of_none_due m hnone, Playback.advanceTo_of_none_due n hnone']
  exact ⟨rfl, rfl, .inr ⟨a.clock.now, hnow, h.moved hnow hordered hnumbered hown⟩⟩

/-- A timer of the past comes to nothing. -/
theorem advanceTo_of_past (h : Mirrors k before a b) {t : Timer Task} {rest : List (Timer Task)} (m : Nat)
    (hqueue : a.clock.queue = t :: rest) (hdue : t.due ≤ target + Clock.slack) (hpast : ¬ k ≤ t.owner) :
    Playback.advanceTo target (m + 1) a = Playback.advanceTo target m (a.moved a.clock.now rest) := by
  have hidle (now : Binary64) : ¬ (a.moved now rest).IsCurrent t.owner := fun hid => hpast (h.le_of_current hid.1)
  rw [advanceTo_of_due m hqueue hdue, Playback.fire, if_neg (hidle _), ite_self]
  exact (advanceTo_moved_now target a.clock.now m (a.moved _ rest)).symm

/-- A timer that is due comes up on both sides, which then stay alike, and fewer are still to come up. -/
theorem fire_moved (h : Mirrors k before a b) {now : Binary64} (hnow : IsMoment now) {u : Timer Task}
    {rest us : List (Timer Task)} (hordered : Clock.IsOrdered rest) (hnumbered : ∀ t ∈ rest, IsMoment t.due)
    (hown : rest.filter (k ≤ ·.owner) = us.map (·.shift k)) :
    ∃ answer a' b', Playback.fire Playback.emit (u.shift k) (a.moved now rest) = (answer, a') ∧
      Playback.fire Playback.emit u (b.moved now us) = (answer, b') ∧ Mirrors k before a' b' ∧
      IsMoment a'.clock.now ∧ load a'.clock.queue < u.task.weight + load rest ∧
      load b'.clock.queue < u.task.weight + load us := by
  have hfired := (h.moved hnow hordered hnumbered hown).fire u
  have hstands : Stands (a.moved now rest) (Playback.fire Playback.emit (u.shift k) (a.moved now rest)).2 :=
    stepwise_stands.fire _
  -- where listeners only log, what is set while a timer fires is worth less than the timer
  have hload := load_fire_lt (s := a.moved now rest) h.logging.1 (u.shift k)
  have hload' := load_fire_lt (s := b.moved now us) h.logging.2 u
  rcases hx : Playback.fire Playback.emit (u.shift k) (a.moved now rest) with ⟨answer, a'⟩
  rcases hy : Playback.fire Playback.emit u (b.moved now us) with ⟨answer', b'⟩
  rw [hx] at hload hstands hfired
  rw [hy] at hload' hfired
  obtain ⟨hanswer, hmirrors⟩ := hfired
  have hmoment : IsMoment a'.clock.now := by
    rw [hstands.now]
    exact hnow
  exact ⟨answer, a', b', rfl, congrArg (·, b') hanswer.symm, hmirrors, hmoment, hload, hload'⟩

/-- Time passes alike, and the timers of the past come up in between. -/
theorem advanceTo (target : Binary64) {m n : Nat} (h : Mirrors k before a b) (hnow : IsMoment a.clock.now)
    (hm : load a.clock.queue ≤ m) (hn : load b.clock.queue ≤ n) :
    Passes k before (Playback.advanceTo target m a) (Playback.advanceTo target n b) := by
  induction m generalizing a b n with
  | zero =>
    refine h.advanceTo_of_none_due hnow 0 n fun t ht => ?_
    rw [load_eq_zero (Nat.le_zero.mp hm)] at ht
    exact absurd ht List.not_mem_nil
  | succ m ih =>
    obtain ⟨-, hordered, hnumbered, hown⟩ := h.clock.queue.resolve_left (IsMoment.ne_nan hnow)
    cases hqueue : a.clock.queue with
    | nil =>
      refine h.advanceTo_of_none_due hnow _ n fun t ht => ?_
      rw [hqueue] at ht
      exact absurd ht List.not_mem_nil
    | cons t rest =>
      rw [Clock.IsNumbered] at hnumbered
      rw [hqueue] at hordered hown hnumbered hm
      rw [load_cons] at hm
      obtain ⟨ht, hrest⟩ := List.forall_mem_cons.mp hnumbered
      by_cases hdue : t.due ≤ target + Clock.slack
      · by_cases hpast : k ≤ t.owner
        · rw [List.filter_cons, if_pos (decide_eq_true hpast)] at hown
          obtain ⟨u, us, hqueue', rfl, hus⟩ := List.map_eq_cons_iff.mp hown.symm
          rw [hqueue', load_cons] at hn
          have hpositive := one_le_weight u.task
          obtain ⟨n, rfl⟩ : ∃ n', n = n' + 1 := Nat.exists_eq_succ_of_ne_zero (by omega)
          have hmoved : IsMoment (if u.cancelled then a.clock.now else u.due) := by
            split
            · exact hnow
            · exact ht
          obtain ⟨answer, a', b', ha, hb, hfired, hnow', hload, hload'⟩ :=
            h.fire_moved hmoved (u := u) hordered.tail hrest hus.symm
          -- a shifted timer is cancelled and due as the timer is
          have ha : Playback.fire Playback.emit (u.shift k)
              (a.moved (if (u.shift k).cancelled then a.clock.now else (u.shift k).due) rest) =
                (answer, a') := ha
          rw [advanceTo_of_due m hqueue hdue, advanceTo_of_due n hqueue' hdue, ← h.clock.now, hb, ha]
          cases answer with
          | error fault => exact ⟨rfl, hfired.tallies⟩
          | ok =>
            have hweight : (u.shift k).task.weight = u.task.weight := rfl
            exact ih hfired hnow' (by omega) (by omega)
        · rw [List.filter_cons_of_neg (by simpa using hpast)] at hown
          have hboth : Mirrors k before (a.moved a.clock.now rest) b := { h with
            clock := ⟨h.clock.now, h.clock.cancels, .inr ⟨hnow, hordered.tail, hrest, hown⟩⟩ }
          have hpositive := one_le_weight t.task
          rw [h.advanceTo_of_past m hqueue hdue hpast]
          refine ih hboth hnow ?_ hn
          change load rest ≤ m
          omega
      · refine h.advanceTo_of_none_due hnow _ n fun u hu hdue' => hdue ?_
        rw [hqueue] at hu
        exact Binary64.le_trans (hordered.le_due hnumbered hu) hdue'

end Mirrors

end Monody.Playback
