import Monody.Playback.Conduct

/-!
# Running playback

Time passes when the clock is advanced: the timers that are due fire one after another. A timer of a
session that is not active does nothing.

Listeners react to reports, and their reactions cause reports or add other listeners. Each reaction is
counted together with those of the listeners that it adds, so this comes to an end; `emitWithin` follows
reactions to a given depth, and `emit` to the depth that can be reached. A reaction that fails is passed
over, and the next listener is told.

## Main definitions

* `emit` — telling a report to the listeners
* `fire` — what a timer does
* `advance`, `runAll` — letting time pass
* `Command`, `perform` — everything that can be asked of playback
* `history` — what a list of commands leads to, step by step
-/

namespace Monody.Playback

/-! ## Listeners -/

/-- What one listener does when he is told a report; `act` is what his reaction does. -/
def react (act : Reaction → Playback → Playback) (s : Playback) (i : Nat) : Playback :=
  match s.listeners[i]? with
  | none => s
  | some l =>
    match l.skip, l.times with
    | skip + 1, _ => s.setListener i { l with skip }
    | 0, times + 1 =>
      act l.reaction ((s.setListener i { l with times }).record (.reaction l.reaction))
    | 0, 0 => s

/-- Tells a report to the listeners that there are now, in order. -/
def emitWith (act : Reaction → Playback → Playback) (r : Report) (s : Playback) : Playback :=
  (s.listening r.topic).foldl (react act) (s.record (.report r))

/-- What a reaction does. Whether it succeeds is not noticed. -/
def act (emit : Report → Playback → Playback) : Reaction → Playback → Playback
  | .log, s | .fail, s => s
  | .stop, s => stop emit s
  | .play performers speed, s => (play emit performers (speed.getD s.defaultSpeed) s).2
  | .listen topic skip times reaction, s => s.addListener ⟨topic, skip, times, reaction⟩
  | .resolve id, s => s.update id (·.resolve .cancelled)
  | .assign performer values, s => s.assign performer values
  | .panic, s => s.through (·.panic)

/-- Tells a report to the listeners, where reactions follow on reactions at most `depth` deep. -/
def emitWithin : Nat → Report → Playback → Playback
  | 0 => emitWith fun _ s => s
  | depth + 1 => emitWith (act (emitWithin depth))

/-- Tells a report to the listeners. -/
def emit (r : Report) (s : Playback) : Playback := emitWithin s.reactionsLeft r s

/-! ## Timers -/

/-- The note of an event, if it has one. -/
def noteOf (e : Melody.Event) : Except Fault (Option Midi.Data) := do
  match ← e.noteNumber?.mapError .pitch with
  | none => return none
  | some n => return some (← (Midi.Data.ofInt n).mapError .range)

/-- How long the note of an event sounds, in seconds. -/
def soundingSeconds (speed : Number) (gate : Binary64) (e : Melody.Event) :
    Except Number.Fault Binary64 :=
  secondsAt speed (e.duration * gate)

/-- The event of a part and the speed it is played at. -/
def eventAt? (s : Playback) (id : Nat) (part : Part) (event : Nat) :
    Option (Melody.Event × Number) := do
  let p ← s.performers[part.performer]?
  let e ← p.voice.melody.events[event]?
  let session ← s.sessions[id]?
  return (e, session.speed)

/-- A part strikes a note in place of the one it holds. -/
def sound (id : Nat) (part : Part) (event : Nat) (note : Midi.Data) (seconds : Binary64)
    (s : Playback) : Playback :=
  let s := s.setCursor part.performer (some event)
  let s := s.through (·.noteOn part.channel.val note.val part.velocity.val)
  let s := s.update id (·.hold ⟨part.index, event, note⟩)
  s.after seconds id (.release part event)

/-- Strikes the note of an event. -/
def strike (emit : Report → Playback → Playback) (id : Nat) (part : Part) (event : Nat)
    (s : Playback) : Except Fault Unit × Playback :=
  let s := s.update id fun session => { session with phase := .playing }
  match s.eventAt? id part event with
  | none => (.ok (), s)
  | some (e, speed) =>
    match noteOf e with
    | .error fault => (.error fault, s)
    | .ok none => (.ok (), s)
    | .ok (some note) =>
      let s := s.release id part
      match soundingSeconds speed part.gate e with
      | .error fault => (.error (.number fault), s)
      | .ok seconds =>
        let s := s.sound id part event note seconds
        let s := emit (.cursor part.index (some event)) s
        (.ok (), if s.IsCurrent id then emit (.note part.index event note seconds) s else s)

/-- Releases the note of an event, unless the part holds another one by now. -/
def releaseEvent (id : Nat) (part : Part) (event : Nat) (s : Playback) : Playback :=
  match (s.sessions[id]?).bind (·.held? part.index) with
  | some held => if held.event = event then s.release id part else s
  | none => s

/-- Ends a part. -/
def endPart (emit : Report → Playback → Playback) (id : Nat) (part : Part) (s : Playback) :
    Playback :=
  let s := (s.release id part).setCursor part.performer none
  let s := emit (.cursor part.index none) s
  if s.IsCurrent id then emit (.voiceEnd part.index) s else s

/-- What a timer does when it comes up: nothing if it is cancelled, and nothing unless its session
is active. -/
def fire (emit : Report → Playback → Playback) (t : Timer Task) (s : Playback) :
    Except Fault Unit × Playback :=
  if t.cancelled then (.ok (), s)
  else if s.IsCurrent t.owner then
    match t.task with
    | .strike part event => strike emit t.owner part event s
    | .release part event => (.ok (), releaseEvent t.owner part event s)
    | .endPart part => (.ok (), endPart emit t.owner part s)
    | .complete => (.ok (), emit .complete (finish emit t.owner .completed s))
  else (.ok (), s)

/-! ## Time -/

/-- The greatest number of timers that a task stands for: striking a note sets one more. -/
def Task.weight : Task → Nat
  | .strike .. => 2
  | _ => 1

/-- The greatest number of timers that come up on account of a reaction. -/
def reactionWeight (s : Playback) : Reaction → Nat
  | .play performers _ =>
    performers.foldl (fun n i =>
      n + 1 + 2 * ((s.performers[i]?).map (·.voice.melody.events.length)).getD 0) 1
  | .listen _ _ times reaction => times * s.reactionWeight reaction
  | _ => 0

/-- The greatest number of timers that come up from here on. -/
def workload (s : Playback) : Nat :=
  s.clock.queue.foldl (fun n t => n + t.task.weight) 0 +
    s.listeners.foldl (fun n l => n + l.times * s.reactionWeight l.reaction) 0

/-- Lets the timers that are due at a time come up, at most `fuel` of them, and sets the clock to
it. A timer that fails leaves the clock at its own time. -/
def advanceTo (target : Binary64) : Nat → Playback → Except Fault Unit × Playback
  | 0, s => (.ok (), { s with clock := { s.clock with now := target } })
  | fuel + 1, s =>
    match s.clock.due? target with
    | none => (.ok (), { s with clock := { s.clock with now := target } })
    | some (timer, clock) =>
      match fire emit timer { s with clock } with
      | (.error fault, s) => (.error fault, s)
      | (.ok (), s) => advanceTo target fuel s

/-- Lets some seconds pass. -/
def advance (seconds : Binary64) (s : Playback) : Except Fault Unit × Playback :=
  advanceTo (s.clock.now + seconds) s.workload s

/-- Advances to the last pending timer as often as there are any, at most `fuel` times. -/
def runWithin : Nat → Playback → Except Fault Unit × Playback
  | 0, s => (.ok (), s)
  | fuel + 1, s =>
    match s.clock.latest? with
    | none => (.ok (), s)
    | some due =>
      match advance (due - s.clock.now) s with
      | (.error fault, s) => (.error fault, s)
      | (.ok (), s) => runWithin fuel s

/-- Lets time pass until no timer is pending. Where rounding makes an advance fall short of the last
timer, the next one reaches it, so twice the workload is enough. A clock that is at no finite time gets
nowhere, and no bound would be enough. -/
def runAll (s : Playback) : Except Fault Unit × Playback := runWithin (2 * s.workload + 2) s

/-! ## Commands -/

/-- What can be asked of playback. -/
inductive Command where
  /-- Starts a session, at the default speed if none is given. -/
  | play (performers : List Nat) (speed : Option Number)
  | stop
  | advance (seconds : Number)
  | runAll
  /-- Asks which of some performers would play. -/
  | eligible (performers : List Nat)
  /-- Silences the output. -/
  | panic
  /-- Stops playback and closes the output. -/
  | close
  | assign (performer : Nat) (values : Assignment)
  | listen (l : Listener)
  /-- Tells those who wait for a session that it is cancelled. -/
  | resolve (session : Nat)

/-- What a command answers. -/
inductive Reply where
  | done
  | session (id : Nat)
  | places (is : List Nat)
  deriving DecidableEq, Repr

/-- Why a command is refused. -/
inductive Refusal where
  | playback (fault : Fault)
  /-- The result of the session is known already. -/
  | resolved
  deriving DecidableEq, Repr

/-- The message of a refusal. -/
def Refusal.message : Refusal → String
  | .playback fault => fault.message
  | .resolved => "invalid state"

/-- The answer of something that succeeds without a value. -/
def done (s : Playback) : Except Refusal Reply × Playback := (.ok .done, s)

/-- The answer of something that may fail. -/
def answer {α : Type} (reply : α → Reply) (p : Except Fault α × Playback) :
    Except Refusal Reply × Playback :=
  ((p.1.map reply).mapError .playback, p.2)

/-- Tells the result of a session from outside. -/
def resolveFrom (id : Nat) (s : Playback) : Except Refusal Reply × Playback :=
  match (s.sessions[id]?).bind (·.result) with
  | some _ => (.error .resolved, s)
  | none => done (s.update id (·.resolve .cancelled))

/-- Performs a command. -/
def perform (c : Command) (s : Playback) : Except Refusal Reply × Playback :=
  match c with
  | .play performers speed =>
    answer .session (play emit performers (speed.getD s.defaultSpeed) s)
  | .stop => done (stop emit s)
  | .advance seconds =>
    match seconds.toReal with
    | .ok seconds => answer (fun _ => .done) (advance seconds s)
    | .error fault => (.error (.playback (.number fault)), s)
  | .runAll => answer (fun _ => .done) (runAll s)
  | .eligible performers => (.ok (.places (eligible (s.voicesOf performers))), s)
  | .panic => done (s.through (·.panic))
  | .close => done ((stop emit s).through (·.close))
  | .assign performer values => done (s.assign performer values)
  | .listen l => done (s.addListener l)
  | .resolve id => resolveFrom id s

/-- What commands answer one after another, each with the state after it. -/
def history : List Command → Playback → List (Except Refusal Reply × Playback)
  | [], _ => []
  | c :: cs, s => perform c s :: history cs (perform c s).2

end Monody.Playback
