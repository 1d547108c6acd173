import Monody.Proofs.Playback.State

/-!
# Chronicles of playback

The log says what was sent and told, but not on account of which session, and a state does not say
which ones lead to it. A chronicle keeps both: it runs as playback does, and every change of the state
is entered in it with the session that caused it. Without these entries it is playback itself.

## Main definitions

* `Deed` — what is entered in a chronicle besides the states
* `Chronicle` — a state with those before it, and the deeds so far
* `Chronicle.become` — the chronicle after a change of its state
* `Chronicle.history` — the chronicles that a list of commands leads to

## Main results

* `Chronicle.map_erase_history` — the states of a history are those of its chronicles
-/

namespace Monody.Playback

/-- What is entered in a chronicle. Sessions are named by their number. -/
inductive Deed where
  /-- An entry of the log, with the session that caused it, if there is one. -/
  | entry (session : Option Nat) (e : Entry)
  /-- A timer fires while its session is active. -/
  | fired (t : Timer Task)
  /-- Playback tells the result of a session. -/
  | told (session : Nat)
  /-- The result of a session is told from outside. -/
  | toldOutside (session : Nat)
  /-- The call that ended a session has returned. -/
  | returned (session : Nat)

/-- What those who wait for a session have been told, if there is such a session and they have. -/
def result? (s : Playback) (id : Nat) : Option Ending := (s.sessions[id]?).bind (·.result)

/-- A state of playback with the states before it, and the deeds so far. -/
structure Chronicle where
  state : Playback
  past : List Playback
  deeds : List Deed

namespace Chronicle

variable {c : Chronicle} {id : Nat}

/-- A chronicle that begins in a state. -/
def start (s : Playback) : Chronicle := ⟨s, [], []⟩

/-- The chronicle after a change of its state on account of a session, or of none. -/
def become (session : Option Nat) (s : Playback) (c : Chronicle) : Chronicle :=
  ⟨s, c.past ++ [c.state], c.deeds ++ (s.log.drop c.state.log.length).map (.entry session)⟩

/-- The chronicle with one more deed. -/
def add (d : Deed) (c : Chronicle) : Chronicle := { c with deeds := c.deeds ++ [d] }

@[simp] theorem state_become (session : Option Nat) (s : Playback) : (c.become session s).state = s :=
  rfl

@[simp] theorem state_add (d : Deed) : (c.add d).state = c.state := rfl

/-- The result of a calculation with the state of a chronicle. -/
def erase {ε α : Type} (p : Except ε α × Chronicle) : Except ε α × Playback := (p.1, p.2.state)

/-- Telling a report in a chronicle does to its state what telling it does to playback. -/
def Follows (tell : Option Nat → Report → Chronicle → Chronicle)
    (emit : Report → Playback → Playback) : Prop :=
  ∀ session r c, (tell session r c).state = emit r c.state

section Telling

variable {emit : Report → Playback → Playback} {tell : Option Nat → Report → Chronicle → Chronicle}

/-! ## Ending a session -/

/-- A part leaves a session that ends. -/
def leave (tell : Option Nat → Report → Chronicle → Chronicle) (id : Nat) (c : Chronicle)
    (part : Part) : Chronicle :=
  let c := c.become id (c.state.release id part)
  if (c.state.cursor? part.performer).isSome then
    tell id (.cursor part.index none) (c.become id (c.state.setCursor part.performer none))
  else c

theorem state_leave (htell : Follows tell emit) (c : Chronicle) (part : Part) :
    (leave tell id c part).state = Playback.leave emit id c.state part := by
  simp only [leave, Playback.leave]
  split
  · next hcursor => exact (htell ..).trans (if_pos hcursor).symm
  · next hcursor => exact (if_neg hcursor).symm

theorem state_foldl {α : Type} {f : Chronicle → α → Chronicle} {g : Playback → α → Playback}
    (h : ∀ c a, (f c a).state = g c.state a) (as : List α) (c : Chronicle) :
    (as.foldl f c).state = as.foldl g c.state := by
  induction as generalizing c with
  | nil => rfl
  | cons a as ih => rw [List.foldl_cons, ih, h, List.foldl_cons]

/-- Playback tells the result of a session, unless one was told before. -/
def tellResult (id : Nat) (how : Ending) (c : Chronicle) : Chronicle :=
  let told := c.become id (c.state.update id (·.resolve how))
  if c.state.result? id = none then told.add (.told id) else told

theorem state_tellResult (how : Ending) :
    (tellResult id how c).state = c.state.update id (·.resolve how) := by
  simp only [tellResult]
  split <;> rfl

/-- Tells the result of a session from outside, unless one was told before. -/
def resolveFrom (id : Nat) (c : Chronicle) : Except Refusal Reply × Chronicle :=
  if id < c.state.sessions.length ∧ c.state.result? id = none then
    (.ok .done, (c.become none (c.state.update id (·.resolve .cancelled))).add (.toldOutside id))
  else ((Playback.resolveFrom id c.state).1, c)

theorem erase_resolveFrom : erase (resolveFrom id c) = Playback.resolveFrom id c.state := by
  simp only [resolveFrom, Playback.resolveFrom]
  by_cases hid : id < c.state.sessions.length
  · cases hresult : (c.state.sessions[id]?).bind (·.result) with
    | none => rw [if_pos ⟨hid, hresult⟩]; rfl
    | some how =>
      rw [if_neg (by simp [result?, hresult])]
      rfl
  · -- there is no such session, so nothing is told
    have hnone : c.state.sessions[id]? = none := List.getElem?_eq_none (by omega)
    have hsessions : c.state.sessions.modify id (·.resolve .cancelled) = c.state.sessions :=
      List.modify_eq_self (by omega)
    have hsame : c.state.update id (·.resolve .cancelled) = c.state := by
      rw [update, hsessions]
    rw [if_neg (fun h => hid h.1), hnone]
    dsimp only [Option.bind]
    rw [hsame]
    rfl

/-- Ends a session, unless it has ended before. -/
def finish (tell : Option Nat → Report → Chronicle → Chronicle) (id : Nat) (how : Ending)
    (c : Chronicle) : Chronicle :=
  match c.state.sessions[id]? with
  | none => c
  | some session =>
    if session.hasEnded then c
    else
      let c := session.parts.foldl (leave tell id) (c.become id (c.state.conclude id how))
      (tellResult id how c).add (.returned id)

theorem state_finish (htell : Follows tell emit) (how : Ending) :
    (finish tell id how c).state = Playback.finish emit id how c.state := by
  simp only [finish, Playback.finish]
  cases hsession : c.state.sessions[id]? with
  | none => rfl
  | some session =>
    dsimp only
    by_cases hended : session.hasEnded
    · rw [if_pos hended, if_pos hended]
    · rw [if_neg hended, if_neg hended, state_add, state_tellResult, state_foldl (state_leave htell),
        state_become]

/-- Cancels the session that is active, if there is one. -/
def stop (tell : Option Nat → Report → Chronicle → Chronicle) (c : Chronicle) : Chronicle :=
  match c.state.current with
  | none => c
  | some id => tell id .stop (finish tell id .cancelled c)

theorem state_stop (htell : Follows tell emit) :
    (stop tell c).state = Playback.stop emit c.state := by
  simp only [stop, Playback.stop]
  cases c.state.current with
  | none => rfl
  | some id => rw [htell, state_finish htell]

/-- Cancels sessions until none is active, at most `fuel` times. -/
def clear (tell : Option Nat → Report → Chronicle → Chronicle) : Nat → Chronicle → Chronicle
  | 0, c => c
  | fuel + 1, c =>
    match c.state.current with
    | none => c
    | some id => clear tell fuel (finish tell id .cancelled c)

theorem state_clear (htell : Follows tell emit) (fuel : Nat) (c : Chronicle) :
    (clear tell fuel c).state = Playback.clear emit fuel c.state := by
  induction fuel generalizing c with
  | zero => rfl
  | succ fuel ih =>
    simp only [clear, Playback.clear]
    cases c.state.current with
    | none => rfl
    | some id => rw [ih, state_finish htell]

/-! ## Starting a session -/

/-- Starts a session with the voices of some performers, and gives its number. -/
def play (tell : Option Nat → Report → Chronicle → Chronicle) (performers : List Nat)
    (speed : Number) (c : Chronicle) : Except Fault Nat × Chronicle :=
  if speed ≤ 0 then (.error .speedNotPositive, c)
  else
    let cast := c.state.castOf performers
    if cast.isEmpty then (.error .nothing, c)
    else
      let c := stop tell c
      let c := clear tell (c.state.reactionsLeft + 1) c
      let id := c.state.sessions.length
      let c := c.become id (c.state.begin speed)
      match enterAll id speed cast c.state with
      | (.error fault, s) => (.error fault, c.become id s)
      | (.ok (), s) =>
        let c := c.become id s
        (.ok id, c.become id (c.state.launch id))

theorem erase_play (htell : Follows tell emit) (performers : List Nat) (speed : Number) :
    erase (play tell performers speed c) = Playback.play emit performers speed c.state := by
  simp only [play, Playback.play, state_become, state_clear htell, state_stop htell]
  by_cases hspeed : speed ≤ 0
  · rw [if_pos hspeed, if_pos hspeed]
    rfl
  rw [if_neg hspeed, if_neg hspeed]
  by_cases hcast : (c.state.castOf performers).isEmpty
  · rw [if_pos hcast, if_pos hcast]
    rfl
  rw [if_neg hcast, if_neg hcast]
  generalize Playback.clear emit ((c.state.stop emit).reactionsLeft + 1) (c.state.stop emit) = s
  obtain ⟨result, t⟩ := enterAll s.sessions.length speed (c.state.castOf performers) (s.begin speed)
  cases result with
  | error fault => rfl
  | ok _ => rfl

/-! ## Listeners -/

/-- What one listener does when he is told a report. -/
def react (act : Reaction → Chronicle → Chronicle) (c : Chronicle) (i : Nat) : Chronicle :=
  match c.state.listeners[i]? with
  | none => c
  | some l =>
    match l.skip, l.times with
    | skip + 1, _ => c.become none (c.state.setListener i { l with skip })
    | 0, times + 1 =>
      act l.reaction (c.become none
        ((c.state.setListener i { l with times }).record (.reaction l.reaction)))
    | 0, 0 => c

theorem state_react {act : Reaction → Chronicle → Chronicle} {act' : Reaction → Playback → Playback}
    (hact : ∀ r c, (act r c).state = act' r c.state) (c : Chronicle) (i : Nat) :
    (react act c i).state = Playback.react act' c.state i := by
  simp only [react, Playback.react]
  cases c.state.listeners[i]? with
  | none => rfl
  | some l =>
    obtain ⟨topic, skip, times, reaction⟩ := l
    cases skip with
    | succ skip => rfl
    | zero =>
      cases times with
      | zero => rfl
      | succ times => exact hact ..

/-- Tells a report on account of a session to the listeners that there are now, in order. -/
def tellWith (act : Reaction → Chronicle → Chronicle) (session : Option Nat) (r : Report)
    (c : Chronicle) : Chronicle :=
  (c.state.listening r.topic).foldl (react act) (c.become session (c.state.record (.report r)))

theorem follows_tellWith {act : Reaction → Chronicle → Chronicle}
    {act' : Reaction → Playback → Playback} (hact : ∀ r c, (act r c).state = act' r c.state) :
    Follows (tellWith act) (emitWith act') :=
  fun _ _ _ => state_foldl (state_react hact) ..

/-- What a reaction does. -/
def act (tell : Option Nat → Report → Chronicle → Chronicle) : Reaction → Chronicle → Chronicle
  | .log, c | .fail, c => c
  | .stop, c => stop tell c
  | .play performers speed, c => (play tell performers (speed.getD c.state.defaultSpeed) c).2
  | .listen topic skip times reaction, c =>
    c.become none (c.state.addListener ⟨topic, skip, times, reaction⟩)
  | .resolve id, c => (resolveFrom id c).2
  | .assign performer values, c => c.become none (c.state.assign performer values)
  | .panic, c => c.become none (c.state.through (·.panic))

theorem state_act (htell : Follows tell emit) (r : Reaction) (c : Chronicle) :
    (act tell r c).state = Playback.act emit r c.state := by
  cases r with
  | log => rfl
  | fail => rfl
  | stop => exact state_stop htell
  | play performers speed => exact congrArg Prod.snd (erase_play htell performers _)
  | listen topic skip times reaction => rfl
  | resolve id => exact (congrArg Prod.snd erase_resolveFrom).trans (perform_resolve id c.state)
  | assign performer values => rfl
  | panic => rfl

end Telling

/-- Tells a report, where reactions follow on reactions at most `depth` deep. -/
def tellWithin : Nat → Option Nat → Report → Chronicle → Chronicle
  | 0 => tellWith fun _ c => c
  | depth + 1 => tellWith (act (tellWithin depth))

theorem follows_tellWithin (depth : Nat) : Follows (tellWithin depth) (emitWithin depth) := by
  induction depth with
  | zero => exact follows_tellWith fun _ _ => rfl
  | succ depth ih => exact follows_tellWith (state_act ih)

/-- Tells a report on account of a session to the listeners. -/
def tell (session : Option Nat) (r : Report) (c : Chronicle) : Chronicle :=
  tellWithin c.state.reactionsLeft session r c

theorem follows_tell : Follows tell Playback.emit := fun _ _ _ => follows_tellWithin _ ..

/-! ## Timers -/

/-- Strikes the note of an event. -/
def strike (id : Nat) (part : Part) (event : Nat) (c : Chronicle) : Except Fault Unit × Chronicle :=
  let c := c.become id (c.state.update id fun session => { session with phase := .playing })
  match c.state.eventAt? id part event with
  | none => (.ok (), c)
  | some (e, speed) =>
    match noteOf e with
    | .error fault => (.error fault, c)
    | .ok none => (.ok (), c)
    | .ok (some note) =>
      let c := c.become id (c.state.release id part)
      match soundingSeconds speed part.gate e with
      | .error fault => (.error (.number fault), c)
      | .ok seconds =>
        let c := c.become id (c.state.sound id part event note seconds)
        let c := tell id (.cursor part.index (some event)) c
        (.ok (), if c.state.IsCurrent id then tell id (.note part.index event note seconds) c else c)

theorem erase_strike (part : Part) (event : Nat) :
    erase (strike id part event c) = Playback.strike Playback.emit id part event c.state := by
  -- both run through the same cases, and each report is told in the same state
  simp only [strike, Playback.strike, state_become, follows_tell _ _ _]
  generalize c.state.update id (fun session => { session with phase := .playing }) = s
  cases s.eventAt? id part event with
  | none => rfl
  | some place =>
    obtain ⟨e, speed⟩ := place
    dsimp only
    cases noteOf e with
    | error fault => rfl
    | ok note =>
      cases note with
      | none => rfl
      | some note =>
        dsimp only
        cases soundingSeconds speed part.gate e with
        | error fault => rfl
        | ok seconds =>
          refine Prod.ext rfl ?_
          dsimp only [erase]
          split
          · rw [follows_tell, follows_tell, state_become]
          · rw [follows_tell, state_become]

/-- Ends a part. -/
def endPart (id : Nat) (part : Part) (c : Chronicle) : Chronicle :=
  let c := c.become id ((c.state.release id part).setCursor part.performer none)
  let c := tell id (.cursor part.index none) c
  if c.state.IsCurrent id then tell id (.voiceEnd part.index) c else c

theorem state_endPart (part : Part) :
    (endPart id part c).state = Playback.endPart Playback.emit id part c.state := by
  simp only [endPart, Playback.endPart, follows_tell _ _ _, state_become]
  split
  · rw [follows_tell, follows_tell, state_become]
  · rw [follows_tell, state_become]

/-- What a timer does when it comes up. -/
def fire (t : Timer Task) (c : Chronicle) : Except Fault Unit × Chronicle :=
  if t.cancelled then (.ok (), c)
  else if c.state.IsCurrent t.owner then
    let c := c.add (.fired t)
    match t.task with
    | .strike part event => strike t.owner part event c
    | .release part event => (.ok (), c.become t.owner (releaseEvent t.owner part event c.state))
    | .endPart part => (.ok (), endPart t.owner part c)
    | .complete => (.ok (), tell t.owner .complete (finish tell t.owner .completed c))
  else (.ok (), c)

theorem erase_fire (t : Timer Task) : erase (fire t c) = Playback.fire Playback.emit t c.state := by
  simp only [fire, Playback.fire]
  by_cases hcancelled : t.cancelled
  · rw [if_pos hcancelled, if_pos hcancelled]
    rfl
  rw [if_neg hcancelled, if_neg hcancelled]
  by_cases hcurrent : c.state.IsCurrent t.owner
  · rw [if_pos hcurrent, if_pos hcurrent]
    cases t.task with
    | strike part event => exact erase_strike part event
    | release part event => rfl
    | endPart part => exact Prod.ext rfl (state_endPart part)
    | complete =>
      refine Prod.ext rfl ?_
      dsimp only [erase]
      rw [follows_tell, state_finish follows_tell, state_add]
  · rw [if_neg hcurrent, if_neg hcurrent]
    rfl

/-! ## Time -/

/-- Lets the timers that are due at a time come up, at most `fuel` of them. -/
def advanceTo (target : Binary64) : Nat → Chronicle → Except Fault Unit × Chronicle
  | 0, c => (.ok (), c.become none { c.state with clock := { c.state.clock with now := target } })
  | fuel + 1, c =>
    match c.state.clock.due? target with
    | none => (.ok (), c.become none { c.state with clock := { c.state.clock with now := target } })
    | some (timer, clock) =>
      match fire timer (c.become none { c.state with clock }) with
      | (.error fault, c) => (.error fault, c)
      | (.ok (), c) => advanceTo target fuel c

theorem erase_advanceTo (target : Binary64) (fuel : Nat) (c : Chronicle) :
    erase (advanceTo target fuel c) = Playback.advanceTo target fuel c.state := by
  induction fuel generalizing c with
  | zero => rfl
  | succ fuel ih =>
    simp only [advanceTo, Playback.advanceTo]
    cases c.state.clock.due? target with
    | none => rfl
    | some next =>
      obtain ⟨timer, clock⟩ := next
      have hfire : erase (fire timer (c.become none { c.state with clock })) =
        Playback.fire Playback.emit timer { c.state with clock } := erase_fire timer
      dsimp only
      rw [← hfire]
      obtain ⟨result, d⟩ := fire timer (c.become none { c.state with clock })
      cases result with
      | error fault => rfl
      | ok _ => exact ih d

/-- Lets some seconds pass. -/
def advance (seconds : Binary64) (c : Chronicle) : Except Fault Unit × Chronicle :=
  advanceTo (c.state.clock.now + seconds) c.state.workload c

/-- Advances to the last pending timer as often as there are any, at most `fuel` times. -/
def runWithin : Nat → Chronicle → Except Fault Unit × Chronicle
  | 0, c => (.ok (), c)
  | fuel + 1, c =>
    match c.state.clock.latest? with
    | none => (.ok (), c)
    | some due =>
      match advance (due - c.state.clock.now) c with
      | (.error fault, c) => (.error fault, c)
      | (.ok (), c) => runWithin fuel c

theorem erase_runWithin (fuel : Nat) (c : Chronicle) :
    erase (runWithin fuel c) = Playback.runWithin fuel c.state := by
  induction fuel generalizing c with
  | zero => rfl
  | succ fuel ih =>
    simp only [runWithin, Playback.runWithin]
    cases c.state.clock.latest? with
    | none => rfl
    | some due =>
      have hadvance : erase (advance (due - c.state.clock.now) c) =
        Playback.advance (due - c.state.clock.now) c.state := erase_advanceTo ..
      dsimp only
      rw [← hadvance]
      obtain ⟨result, d⟩ := advance (due - c.state.clock.now) c
      cases result with
      | error fault => rfl
      | ok _ => exact ih d

/-! ## Commands -/

/-- The answer of something that may fail. -/
def answer {α : Type} (reply : α → Reply) (p : Except Fault α × Chronicle) :
    Except Refusal Reply × Chronicle :=
  ((p.1.map reply).mapError .playback, p.2)

/-- Performs a command. -/
def perform (command : Command) (c : Chronicle) : Except Refusal Reply × Chronicle :=
  match command with
  | .play performers speed =>
    answer .session (play tell performers (speed.getD c.state.defaultSpeed) c)
  | .stop => (.ok .done, stop tell c)
  | .advance seconds =>
    match seconds.toReal with
    | .ok seconds => answer (fun _ => .done) (advance seconds c)
    | .error fault => (.error (.playback (.number fault)), c)
  | .runAll => answer (fun _ => .done) (runWithin (2 * c.state.workload + 2) c)
  | .eligible performers => (.ok (.places (eligible (c.state.voicesOf performers))), c)
  | .panic => (.ok .done, c.become none (c.state.through (·.panic)))
  | .close =>
    let c := stop tell c
    (.ok .done, c.become none (c.state.through (·.close)))
  | .assign .. | .listen _ =>
    (.ok .done, c.become none (Playback.perform command c.state).2)
  | .resolve id => resolveFrom id c

theorem erase_perform (command : Command) (c : Chronicle) :
    erase (perform command c) = Playback.perform command c.state := by
  cases command with
  | play performers speed =>
    exact congrArg (Playback.answer .session) (erase_play follows_tell performers _)
  | stop => exact congrArg Playback.done (state_stop follows_tell)
  | advance seconds =>
    simp only [perform, Playback.perform]
    cases seconds.toReal with
    | error fault => rfl
    | ok seconds =>
      exact congrArg (Playback.answer fun _ => .done) (erase_advanceTo _ c.state.workload c)
  | runAll => exact congrArg (Playback.answer fun _ => .done) (erase_runWithin _ c)
  | eligible performers => rfl
  | panic => rfl
  | close =>
    have hstop : (stop tell c).state = Playback.stop Playback.emit c.state := state_stop follows_tell
    exact congrArg (fun s : Playback => Playback.done (s.through (·.close))) hstop
  | assign performer values => rfl
  | listen l => rfl
  | resolve id => exact erase_resolveFrom

/-- What commands answer one after another, each with the chronicle after it. -/
def history : List Command → Chronicle → List (Except Refusal Reply × Chronicle)
  | [], _ => []
  | command :: commands, c => perform command c :: history commands (perform command c).2

/-- Without what is entered in them, chronicles are the states of playback. -/
theorem map_erase_history (commands : List Command) (c : Chronicle) :
    (history commands c).map erase = Playback.history commands c.state := by
  induction commands generalizing c with
  | nil => rfl
  | cons command commands ih =>
    have hperform := erase_perform command c
    rw [history, List.map_cons, ih, Playback.history, ← hperform]
    rfl

end Chronicle

end Monody.Playback
