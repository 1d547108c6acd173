import Monody.Outcome
import Monody.Playback.Basic

/-!
# Starting and ending sessions

At most one session is active. Starting one stops the one before it: its timers are cancelled, the
notes that it holds are released, its performers leave their places, and whoever waits for it is
told. All of this may be reported to listeners who start or stop sessions themselves; so every
function here takes `emit`, which tells a report to the listeners and gives the state after whatever
they have done.

## Main definitions

* `Fault` — why voices cannot be played
* `eligible` — which voices play
* `finish`, `stop` — ending a session
* `play` — starting one
-/

namespace Monody.Playback

/-- Why voices cannot be played. -/
inductive Fault where
  | speedNotPositive
  /-- No voice can be heard and has something to play. -/
  | nothing
  /-- A time or a velocity has no result. -/
  | number (fault : Number.Fault)
  /-- A note is not in the table of pitches. -/
  | pitch (fault : Pitch.Fault)
  /-- A note is out of range. -/
  | range (fault : Midi.Message.Fault)
  deriving DecidableEq, Repr

/-- The message of a fault. -/
def Fault.message : Fault → String
  | .speedNotPositive => "speed must be positive"
  | .nothing => "Nothing to play: no unmuted voice has a non-empty, error-free sequence"
  | .number fault => fault.message
  | .pitch fault => fault.message
  | .range fault => fault.message

/-! ## Which voices play -/

/-- A voice can be heard: soloed voices if there are any, and otherwise those that are not muted. -/
def isAudible (anySolo : Bool) (v : Voice) : Bool := if anySolo then v.solo else !v.mute

/-- A voice has something to play: its melody has no flaws and lasts for some time. -/
def isPlayable (v : Voice) : Bool :=
  !v.melody.isFlawed && !v.melody.events.isEmpty && !decide (v.melody.total ≤ 0)

/-- The places in a list of voices of those that play. -/
def eligible (voices : List Voice) : List Nat :=
  let anySolo := voices.any (·.solo)
  (voices.zipIdx.filter fun p => isAudible anySolo p.1 && isPlayable p.1).map (·.2)

/-- The voices of performers. -/
def voicesOf (s : Playback) (performers : List Nat) : List Voice :=
  performers.filterMap fun i => (s.performers[i]?).map (·.voice)

/-- The performers that play, each with its place in the list. -/
def castOf (s : Playback) (performers : List Nat) : List (Nat × Nat) :=
  (eligible (s.voicesOf performers)).filterMap fun i => (performers[i]?).map (i, ·)

/-! ## Ending a session -/

/-- Releases the note that a part holds. -/
def release (id : Nat) (part : Part) (s : Playback) : Playback :=
  match (s.sessions[id]?).bind (·.held? part.index) with
  | none => s
  | some held =>
    (s.update id (·.drop part.index)).through (·.noteOff part.channel.val held.note.val)

/-- A part leaves a session that ends: its note is released, and its performer leaves his place. -/
def leave (emit : Report → Playback → Playback) (id : Nat) (s : Playback) (part : Part) :
    Playback :=
  let s := s.release id part
  if (s.cursor? part.performer).isSome then
    emit (.cursor part.index none) (s.setCursor part.performer none)
  else s

/-- A session has ended, but its parts have not left it yet: its timers are cancelled, and it is not
active any more. -/
def conclude (id : Nat) (how : Ending) (s : Playback) : Playback :=
  { s.update id fun session => { session with phase := .ended how } with
    clock := s.clock.cancel id
    current := if s.current = some id then none else s.current }

/-- Ends a session, unless it has ended before. -/
def finish (emit : Report → Playback → Playback) (id : Nat) (how : Ending) (s : Playback) :
    Playback :=
  match s.sessions[id]? with
  | none => s
  | some session =>
    if session.hasEnded then s
    else (session.parts.foldl (leave emit id) (s.conclude id how)).update id (·.resolve how)

/-- Cancels the session that is active, if there is one. -/
def stop (emit : Report → Playback → Playback) (s : Playback) : Playback :=
  match s.current with
  | none => s
  | some id => emit .stop (finish emit id .cancelled s)

/-- Cancels sessions until none is active. A listener may start one while another is cancelled; as
listeners react a limited number of times, so does this, at most `fuel` times. -/
def clear (emit : Report → Playback → Playback) : Nat → Playback → Playback
  | 0, s => s
  | fuel + 1, s =>
    match s.current with
    | none => s
    | some id => clear emit fuel (finish emit id .cancelled s)

/-! ## Starting a session -/

/-- The seconds that a time in milliseconds takes at a speed. -/
def secondsAt (speed : Number) (ms : Binary64) : Except Number.Fault Binary64 := do
  return (← Number.divide ms (← speed.toReal)) / .ofInt 1000

/-- What a performer is to play: his part, his program, and the notes to strike with their times in
seconds. -/
structure Plan where
  part : Part
  program : Midi.Data
  strikes : List (Binary64 × Nat)

/-- The plan of a performer's voice. -/
def planOf (speed : Number) (index performer : Nat) (v : Voice) : Except Fault Plan := do
  let velocity ← v.velocity.mapError .number
  let ends ← (secondsAt speed v.melody.total).mapError .number
  let playable := v.melody.events.zipIdx.filter (·.1.isPlayable)
  let strikes ← playable.mapM fun p => do
    return (← (secondsAt speed p.1.start).mapError .number, p.2)
  let part := ⟨index, performer, .ofVoice index, velocity, v.instrument.gate, ends⟩
  return ⟨part, v.instrument.program, strikes⟩

/-- A performer enters a session by his plan: his program is selected and his timers are set. -/
def enter (id : Nat) (plan : Plan) (s : Playback) : Playback :=
  let s := s.update id fun session => { session with parts := session.parts ++ [plan.part] }
  let s := s.through (·.programChange plan.part.channel.val plan.program.val)
  let s := plan.strikes.foldl (fun s p => s.after p.1 id (.strike plan.part p.2)) s
  s.after plan.part.ends id (.endPart plan.part)

/-- The performers of a cast enter a session one after another, up to the first who cannot. -/
def enterAll (id : Nat) (speed : Number) :
    List (Nat × Nat) → Playback → Except Fault Unit × Playback
  | [], s => (.ok (), s)
  | (index, performer) :: rest, s =>
    match s.performers[performer]? with
    | none => enterAll id speed rest s
    | some p =>
      match planOf speed index performer p.voice with
      | .error fault => (.error fault, s)
      | .ok plan => enterAll id speed rest (s.enter id plan)

/-- A session whose parts have all entered is scheduled: it is complete when the last of them
ends. -/
def launch (id : Nat) (s : Playback) : Playback :=
  match s.sessions[id]? with
  | none => s
  | some session =>
    let s := s.after session.lastEnd id .complete
    s.update id fun session => { session with phase := .scheduled, duration := session.lastEnd }

/-- The state with a new session, which is active and has no parts yet. -/
def begin (speed : Number) (s : Playback) : Playback :=
  { s with sessions := s.sessions ++ [.new speed], current := some s.sessions.length }

/-- Starts a session with the voices of some performers, and gives its number. Nothing changes if
the speed is not positive or no voice plays. -/
def play (emit : Report → Playback → Playback) (performers : List Nat) (speed : Number)
    (s : Playback) : Except Fault Nat × Playback :=
  if speed ≤ 0 then (.error .speedNotPositive, s)
  else
    let cast := s.castOf performers
    if cast.isEmpty then (.error .nothing, s)
    else
      let s := stop emit s
      let s := clear emit (s.reactionsLeft + 1) s
      let id := s.sessions.length
      match enterAll id speed cast (s.begin speed) with
      | (.error fault, s) => (.error fault, s)
      | (.ok (), s) => (.ok id, s.launch id)

end Monody.Playback
