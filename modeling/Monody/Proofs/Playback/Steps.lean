import Monody.Proofs.Playback.Admissible
import Monody.Proofs.Playback.State

/-!
# What follows from single changes

While no time passes, all that happens to playback is a number of elementary changes one after
another, whatever the listeners do. A relation between states that can be chained and holds for each
of these changes therefore holds for everything that is made of them. One that holds for the changes
that are no doing of the listeners holds for all that is made of these and of reports that it holds for.

## Main definitions

* `HasTimes` — times have results at the speed of a session
* `MaySet` — which timers are set for a session
* `Unattended` — a relation that can be chained and holds for every elementary change, but for what
  listeners do
* `Stepwise` — a relation that holds for that as well

## Main results

* `Unattended.finish`, `Unattended.play`, `Unattended.fire`, `Unattended.perform` — it holds for whatever
  happens, if it does for reports
* `Stepwise.emit` — it holds for reports
* `Stepwise.fire`, `Stepwise.perform` — and so for whatever happens
-/

namespace Monody.Playback

/-- The speed of a session. -/
def speed? (s : Playback) (id : Nat) : Option Number := (s.sessions[id]?).map (·.speed)

/-- Times have results at the speed of a session. -/
def HasTimes (s : Playback) (id : Nat) : Prop :=
  ∃ speed r, s.speed? id = some speed ∧ speed.toReal = .ok r ∧ r.isZero = false

/-- Timers are set for sessions that there are, and those that strike notes for sessions at whose speed
times have results. -/
def MaySet (s : Playback) (id : Nat) : Task → Prop
  | .strike .. => s.HasTimes id
  | _ => (s.speed? id).isSome

/-- A relation between a state and a later one that can be chained and holds for every elementary
change of the state, but for reports and reactions in the log and changes of the listeners. A session is
never changed in its speed. -/
structure Unattended (R : Playback → Playback → Prop) : Prop where
  refl : ∀ s, R s s
  trans : ∀ {s₁ s₂ s₃}, R s₁ s₂ → R s₂ s₃ → R s₁ s₃
  update : ∀ s id f, (∀ session : Session, (f session).speed = session.speed) → R s (s.update id f)
  through : ∀ s call, R s (s.through call)
  setCursor : ∀ s i event, R s (s.setCursor i event)
  assign : ∀ s i values, R s (s.assign i values)
  after : ∀ s delay id task, s.MaySet id task → R s (s.after delay id task)
  conclude : ∀ s id how, R s (s.conclude id how)
  begin : ∀ s speed, R s (s.begin speed)

/-- A relation that can be chained and holds for every elementary change of the state. -/
structure Stepwise (R : Playback → Playback → Prop) : Prop extends Unattended R where
  record : ∀ s e, R s (s.record e)
  setListener : ∀ s i l, R s (s.setListener i l)
  addListener : ∀ s l, R s (s.addListener l)

/-! ## Speeds -/

section Speeds

variable {s s' : Playback} {id : Nat} {task : Task}

theorem speed?_congr (h : s'.sessions = s.sessions) (id : Nat) : s'.speed? id = s.speed? id := by
  rw [speed?, speed?, h]

theorem speed?_update {f : Session → Session} (hf : ∀ session : Session, (f session).speed = session.speed)
    (j id : Nat) : (s.update j f).speed? id = s.speed? id := by
  rw [speed?, speed?, update_sessions, List.getElem?_modify, Option.map_eq_map, Option.map_map]
  refine congrArg (Option.map · _) (funext fun session => ?_)
  rw [Function.comp_apply]
  split
  · exact hf session
  · rfl

theorem speed?_begin (s : Playback) (speed : Number) :
    (s.begin speed).speed? s.sessions.length = some speed := by
  simp [speed?, begin, Session.new]

theorem HasTimes.congr (h : s'.speed? id = s.speed? id) : s'.HasTimes id ↔ s.HasTimes id := by
  rw [HasTimes, HasTimes, h]

theorem HasTimes.isSome (h : s.HasTimes id) : (s.speed? id).isSome := by
  obtain ⟨speed, r, hspeed, -⟩ := h
  rw [hspeed]
  rfl

theorem HasTimes.maySet (h : s.HasTimes id) (task : Task) : s.MaySet id task := by
  cases task with
  | strike => exact h
  | release | endPart | complete => exact h.isSome

/-- A session at a positive speed that a voice has a plan at. -/
theorem hasTimes_of_planOf {speed : Number} {index performer : Nat} {v : Voice} {plan : Plan}
    (hid : s.speed? id = some speed) (hpos : ¬ speed ≤ 0)
    (h : planOf speed index performer v = .ok plan) : s.HasTimes id := by
  obtain ⟨r, hr⟩ := exists_toReal_of_planOf h
  exact ⟨speed, r, hid, hr, isZero_eq_false_of_not_le hpos hr⟩

theorem speed?_enter (plan : Plan) (j : Nat) : (enter j plan s).speed? id = s.speed? id := by
  have hparts : (enter j plan s).sessions = (s.update j fun session =>
      { session with parts := session.parts ++ [plan.part] }).sessions := enter_sessions plan
  rw [speed?_congr hparts]
  exact speed?_update (f := fun session => { session with parts := session.parts ++ [plan.part] })
    (fun _ => rfl) j id

theorem speed?_release (j : Nat) (part : Part) : (release j part s).speed? id = s.speed? id := by
  simp only [release]
  split
  · rfl
  · exact speed?_update (f := (·.drop part.index)) (fun _ => rfl) j id

theorem speed?_of_eventAt? {part : Part} {event : Nat} {e : Melody.Event} {speed : Number}
    (h : s.eventAt? id part event = some (e, speed)) : s.speed? id = some speed := by
  simp only [eventAt?, Option.bind_eq_bind, Option.bind_eq_some_iff] at h
  obtain ⟨p, -, e', -, session, hsession, hsame⟩ := h
  obtain rfl : session.speed = speed := congrArg Prod.snd (Option.some.inj hsame)
  rw [speed?, hsession]
  rfl

end Speeds

namespace Unattended

variable {R : Playback → Playback → Prop} (h : Unattended R) {s : Playback}
include h

theorem foldl {α : Type} {f : Playback → α → Playback} (hf : ∀ s a, R s (f s a)) (as : List α)
    (s : Playback) : R s (as.foldl f s) := by
  induction as generalizing s with
  | nil => exact h.refl s
  | cons a as ih => exact h.trans (hf s a) (ih (f s a))

/-! ## Ending and starting sessions -/

theorem release (id : Nat) (part : Part) : R s (release id part s) := by
  simp only [Playback.release]
  split
  · exact h.refl s
  · exact h.trans (h.update s id (·.drop part.index) fun _ => rfl) (h.through _ _)

section Reporting

variable {emit : Report → Playback → Playback} (hemit : ∀ r s, R s (emit r s))
include hemit

theorem leave (id : Nat) (s : Playback) (part : Part) : R s (leave emit id s part) := by
  simp only [Playback.leave]
  split
  · exact h.trans (h.trans (h.release id part) (h.setCursor _ part.performer none)) (hemit ..)
  · exact h.release id part

theorem finish (id : Nat) (how : Ending) : R s (finish emit id how s) := by
  simp only [Playback.finish]
  split
  · exact h.refl s
  split
  · exact h.refl s
  · exact h.trans (h.trans (h.conclude s id how) (h.foldl (h.leave hemit id) ..))
      (h.update _ id (·.resolve how) fun _ => rfl)

theorem stop : R s (stop emit s) := by
  simp only [Playback.stop]
  split
  · exact h.refl s
  · exact h.trans (h.finish hemit _ .cancelled) (hemit ..)

theorem clear (fuel : Nat) : R s (clear emit fuel s) := by
  induction fuel generalizing s with
  | zero => exact h.refl s
  | succ fuel ih =>
    simp only [Playback.clear]
    split
    · exact h.refl s
    · exact h.trans (h.finish hemit _ .cancelled) ih

end Reporting

/-- Notes are set to be struck. -/
theorem strikes {id : Nat} (hid : s.HasTimes id) (part : Part) (ps : List (Binary64 × Nat)) :
    R s (ps.foldl (fun s p => s.after p.1 id (.strike part p.2)) s) := by
  induction ps generalizing s with
  | nil => exact h.refl s
  | cons p ps ih =>
    have hnext : (s.after p.1 id (.strike part p.2)).HasTimes id := hid
    exact h.trans (h.after s p.1 id _ (hid.maySet _)) (ih hnext)

theorem enter {id : Nat} (hid : s.HasTimes id) (plan : Plan) : R s (enter id plan s) := by
  let joined := s.update id fun session => { session with parts := session.parts ++ [plan.part] }
  let selected := joined.through (·.programChange plan.part.channel.val plan.program.val)
  have hspeed : selected.speed? id = s.speed? id :=
    speed?_update (f := fun session => { session with parts := session.parts ++ [plan.part] })
      (fun _ => rfl) id id
  have hselected : selected.HasTimes id := (HasTimes.congr hspeed).mpr hid
  have hset (s : Playback) (p : Binary64 × Nat) :
      (s.after p.1 id (.strike plan.part p.2)).sessions = s.sessions := after_sessions ..
  have hjoined : R s joined := h.update s id _ fun _ => rfl
  have hstrikes := h.strikes hselected plan.part plan.strikes
  have hends : (plan.strikes.foldl (fun s p => s.after p.1 id (.strike plan.part p.2)) selected).HasTimes id :=
    (HasTimes.congr (speed?_congr (foldl_keeps (g := Playback.sessions) hset _ _) id)).mpr hselected
  exact h.trans (h.trans (h.trans hjoined (h.through _ _)) hstrikes) (h.after _ _ id _ (hends.maySet _))

theorem enterAll {id : Nat} {speed : Number} (hid : s.speed? id = some speed) (hpos : ¬ speed ≤ 0)
    (cast : List (Nat × Nat)) : R s (enterAll id speed cast s).2 := by
  induction cast generalizing s with
  | nil => exact h.refl s
  | cons place rest ih =>
    obtain ⟨index, performer⟩ := place
    simp only [Playback.enterAll]
    split
    · exact ih hid
    split
    · exact h.refl s
    · next plan hplan =>
      exact h.trans (h.enter (hasTimes_of_planOf hid hpos hplan) plan) (ih ((speed?_enter plan id).trans hid))

theorem launch (id : Nat) : R s (launch id s) := by
  simp only [Playback.launch]
  split
  · exact h.refl s
  · next session hsession =>
    have hsome : (s.speed? id).isSome := by rw [speed?, hsession]; rfl
    refine h.trans (h.after s _ id .complete hsome) (h.update _ id _ ?_)
    exact fun _ => rfl

section Reporting

variable {emit : Report → Playback → Playback} (hemit : ∀ r s, R s (emit r s))
include hemit

/-- What was active is stopped, and whatever listeners have started then. -/
theorem idle (s : Playback) :
    R s (Playback.clear emit ((s.stop emit).reactionsLeft + 1) (s.stop emit)) :=
  h.trans (h.stop hemit) (h.clear hemit _)

theorem play (performers : List Nat) (speed : Number) : R s (play emit performers speed s).2 := by
  simp only [Playback.play]
  split
  · exact h.refl s
  next hpos =>
  split
  · exact h.refl s
  have hidle := h.idle hemit s
  generalize Playback.clear emit ((s.stop emit).reactionsLeft + 1) (s.stop emit) = t at hidle ⊢
  have hstart := h.trans hidle (h.trans (h.begin t speed)
    (h.enterAll (speed?_begin t speed) hpos (s.castOf performers)))
  split
  · next heq => rwa [heq] at hstart
  · next heq =>
    rw [heq] at hstart
    exact h.trans hstart (h.launch _)

/-- A reaction, if what it adds to the listeners may be added. -/
theorem act {r : Reaction} (s : Playback)
    (hlisten : ∀ topic skip times reaction, r = .listen topic skip times reaction →
      R s (s.addListener ⟨topic, skip, times, reaction⟩)) : R s (act emit r s) := by
  cases r with
  | log => exact h.refl s
  | fail => exact h.refl s
  | stop => exact h.stop hemit
  | play performers speed => exact h.play hemit performers _
  | listen topic skip times reaction => exact hlisten topic skip times reaction rfl
  | resolve session => exact h.update s session (·.resolve .cancelled) fun _ => rfl
  | assign performer values => exact h.assign s performer values
  | panic => exact h.through s _

end Reporting

/-! ## Timers -/

theorem sound {id : Nat} (hid : (s.speed? id).isSome) (part : Part) (event : Nat) (note : Midi.Data)
    (seconds : Binary64) : R s (sound id part event note seconds s) := by
  let struck := (s.setCursor part.performer (some event)).through
    (·.noteOn part.channel.val note.val part.velocity.val)
  have hheld := h.update struck id (·.hold ⟨part.index, event, note⟩) fun _ => rfl
  have hspeed : (struck.update id (·.hold ⟨part.index, event, note⟩)).speed? id = s.speed? id :=
    speed?_update (s := struck) (f := (·.hold ⟨part.index, event, note⟩)) (fun _ => rfl) id id
  have hthere := (congrArg Option.isSome hspeed).trans hid
  exact h.trans (h.trans (h.trans (h.setCursor ..) (h.through _ _)) hheld)
    (h.after _ seconds id (.release part event) hthere)

theorem releaseEvent (id : Nat) (part : Part) (event : Nat) :
    R s (releaseEvent id part event s) := by
  rcases releaseEvent_eq_or id part event s with heq | heq
  · rw [heq]
    exact h.release id part
  · rw [heq]
    exact h.refl s

section Reporting

variable {emit : Report → Playback → Playback} (hemit : ∀ r s, R s (emit r s))
include hemit

theorem strike (id : Nat) (part : Part) (event : Nat) : R s (strike emit id part event s).2 := by
  simp only [Playback.strike]
  have hplaying := h.update s id (fun session => { session with phase := .playing }) fun _ => rfl
  split
  · exact hplaying
  next e speed hevent =>
  split
  · exact hplaying
  · exact hplaying
  have hrelease := h.trans hplaying (h.release id part)
  split
  · exact hrelease
  rename_i note _ _ seconds _
  have hthere : ((s.update id _).release id part |>.speed? id).isSome :=
    Option.isSome_iff_exists.mpr ⟨speed, (speed?_release id part).trans (speed?_of_eventAt? hevent)⟩
  have hcursor := h.trans (h.trans hrelease (h.sound hthere part event note seconds))
    (hemit (.cursor part.index (some event)) _)
  dsimp only
  split
  · exact h.trans hcursor (hemit ..)
  · exact hcursor

theorem endPart (id : Nat) (part : Part) : R s (endPart emit id part s) := by
  have hcursor := h.trans (h.trans (h.release (s := s) id part) (h.setCursor _ part.performer none))
    (hemit (.cursor part.index none) _)
  simp only [Playback.endPart]
  split
  · exact h.trans hcursor (hemit ..)
  · exact hcursor

theorem fire (t : Timer Task) : R s (fire emit t s).2 := by
  simp only [Playback.fire]
  split
  · exact h.refl s
  split
  · split
    · exact h.strike hemit ..
    · exact h.releaseEvent ..
    · exact h.endPart hemit ..
    · exact h.trans (h.finish hemit _ .completed) (hemit ..)
  · exact h.refl s

end Reporting

/-! ## Commands -/

/-- A command that lets no time pass, if what it adds to the listeners may be added. -/
theorem perform (hemit : ∀ r s, R s (emit r s)) {c : Command} (hc : ¬ c.IsWait)
    (hlisten : ∀ l, c = .listen l → R s (s.addListener l)) : R s (perform c s).2 := by
  cases c with
  | play performers speed => exact h.play hemit performers _
  | stop => exact h.stop hemit
  | advance | runAll => exact absurd trivial hc
  | eligible performers => exact h.refl s
  | panic => exact h.through s _
  | close => exact h.trans (h.stop hemit) (h.through _ _)
  | assign performer values => exact h.assign s performer values
  | listen l => exact hlisten l rfl
  | resolve id =>
    rw [perform_resolve]
    exact h.update s id _ fun _ => rfl

end Unattended

/-! ## What listeners do -/

namespace Stepwise

variable {R : Playback → Playback → Prop} (h : Stepwise R) {s : Playback}
include h

theorem act {emit : Report → Playback → Playback} (hemit : ∀ r s, R s (emit r s)) (r : Reaction)
    (s : Playback) : R s (act emit r s) :=
  h.toUnattended.act hemit s fun _ _ _ _ _ => h.addListener s _

section Acting

variable {act : Reaction → Playback → Playback} (hact : ∀ r s, R s (act r s))
include hact

theorem react (s : Playback) (i : Nat) : R s (react act s i) := by
  simp only [Playback.react]
  split
  · exact h.refl s
  split
  · exact h.setListener ..
  · exact h.trans (h.trans (h.setListener ..) (h.record ..)) (hact ..)
  · exact h.refl s

theorem emitWith (r : Report) (s : Playback) : R s (emitWith act r s) :=
  h.trans (h.record s _) (h.foldl (h.react hact) _ _)

end Acting

theorem emitWithin (depth : Nat) (r : Report) (s : Playback) : R s (emitWithin depth r s) := by
  induction depth generalizing r s with
  | zero => exact h.emitWith (fun _ s => h.refl s) r s
  | succ depth ih => exact h.emitWith (h.act ih) r s

theorem emit (r : Report) (s : Playback) : R s (Playback.emit r s) :=
  h.emitWithin s.reactionsLeft r s

theorem fire (t : Timer Task) : R s (fire Playback.emit t s).2 :=
  h.toUnattended.fire h.emit t

/-- A command that lets no time pass. -/
theorem perform {c : Command} (hc : ¬ c.IsWait) : R s (perform c s).2 :=
  h.toUnattended.perform h.emit hc fun l _ => h.addListener s l

end Stepwise

end Monody.Playback
