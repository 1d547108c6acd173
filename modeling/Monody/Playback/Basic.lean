import Monody.Output
import Monody.Playback.Clock
import Monody.Playback.Session

/-!
# Playback

The whole state of playback is one value: the clock with its timers, the sessions so far and the one
that is current, the output, the performers with their places in their melodies, and the listeners
that are told what happens. Whatever is sent or told is written to a log.

## Main definitions

* `Task` — what a timer does when it fires
* `Report` — what listeners are told
* `Listener`, `Reaction` — who is told, and what he does then
* `Playback` — the state
-/

namespace Monody.Playback

/-- What a timer does when it fires. -/
inductive Task where
  /-- Strikes the note of an event. -/
  | strike (part : Part) (event : Nat)
  /-- Releases the note of an event. -/
  | release (part : Part) (event : Nat)
  /-- Ends a part. -/
  | endPart (part : Part)
  /-- Completes the session. -/
  | complete
  deriving DecidableEq

/-- The kinds of report. -/
inductive Topic where
  | note | cursor | voiceEnd | complete | stop
  deriving DecidableEq, Repr

/-- What listeners are told. Parts are named by their index, events by their place in the melody. -/
inductive Report where
  /-- A note sounds for some seconds. -/
  | note (part event : Nat) (note : Midi.Data) (seconds : Binary64)
  /-- A part has come to an event, or is at none any more. -/
  | cursor (part : Nat) (event : Option Nat)
  /-- A part has ended. -/
  | voiceEnd (part : Nat)
  /-- A session is complete. -/
  | complete
  /-- A session was stopped. -/
  | stop
  deriving DecidableEq

/-- The kind of a report. -/
def Report.topic : Report → Topic
  | .note .. => .note
  | .cursor .. => .cursor
  | .voiceEnd _ => .voiceEnd
  | .complete => .complete
  | .stop => .stop

/-- New values for some settings of a voice. They are not checked. -/
structure Assignment where
  mute : Option Bool
  solo : Option Bool
  name : Option (List Char)
  volume : Option Number
  instrument : Option Instrument
  deriving DecidableEq

/-- A voice with new settings. -/
def Assignment.apply (a : Assignment) (v : Voice) : Voice :=
  { v with
    mute := a.mute.getD v.mute
    solo := a.solo.getD v.solo
    name := a.name.getD v.name
    volume := a.volume.getD v.volume
    instrument := a.instrument.getD v.instrument }

/-- What a listener does. What would leave the whole step that the report is part of, as an exit or an
interrupt, is no reaction. -/
inductive Reaction where
  | log
  /-- Fails with an exception, which nobody notices. -/
  | fail
  | stop
  /-- Plays some performers, at the default speed if none is given. -/
  | play (performers : List Nat) (speed : Option Number)
  /-- Has one more listener told reports of a kind. -/
  | listen (topic : Topic) (skip times : Nat) (reaction : Reaction)
  /-- Tells those who wait for a session that it is cancelled, unless they have been told. -/
  | resolve (session : Nat)
  | assign (performer : Nat) (values : Assignment)
  /-- Silences the output. -/
  | panic
  deriving DecidableEq

/-- How many reactions may come of a reaction: itself, and those of the listeners that it adds. -/
def Reaction.count : Reaction → Nat
  | .listen _ _ times reaction => times * reaction.count + 1
  | _ => 1

/-- Who is told reports of one kind. The first `skip` of them pass, then `times` of them cause the
reaction, and no more. -/
structure Listener where
  topic : Topic
  skip : Nat
  times : Nat
  reaction : Reaction
  deriving DecidableEq

/-- What the log holds. -/
inductive Entry where
  | signal (s : Output.Signal)
  | report (r : Report)
  | reaction (r : Reaction)
  deriving DecidableEq

/-- A voice with its place in its melody while it is played. -/
structure Performer where
  voice : Voice
  cursor : Option Nat
  deriving DecidableEq

end Playback

open Playback in
/-- The state of playback. -/
structure Playback where
  clock : Clock Task
  /-- All sessions so far, in the order in which they were started. -/
  sessions : List Session
  /-- The session that is active. -/
  current : Option Nat
  output : Output
  performers : List Performer
  listeners : List Listener
  defaultSpeed : Number
  log : List Entry

namespace Playback

/-- Playback on an output where nothing has happened. -/
def start (output : Output) (voices : List Voice) (listeners : List Listener)
    (defaultSpeed : Number) (cancels : Bool) : Playback :=
  ⟨.start cancels, [], none, output, voices.map (⟨·, none⟩), listeners, defaultSpeed, []⟩

/-- The state with one more entry in the log. -/
def record (s : Playback) (e : Entry) : Playback := { s with log := s.log ++ [e] }

/-- The state with one session changed. -/
def update (s : Playback) (id : Nat) (f : Session → Session) : Playback :=
  { s with sessions := s.sessions.modify id f }

/-- The state after a call on the output. What playback sends is in range, so no call has a
fault. -/
def through (s : Playback) (call : Output → Output.Effect) : Playback :=
  let e := call s.output
  { s with output := e.output, log := s.log ++ e.signals.map .signal }

/-- The state with one performer at an event, or at none. -/
def setCursor (s : Playback) (performer : Nat) (event : Option Nat) : Playback :=
  { s with performers := s.performers.modify performer fun p => { p with cursor := event } }

/-- The state with one more listener. -/
def addListener (s : Playback) (l : Listener) : Playback := { s with listeners := s.listeners ++ [l] }

/-- The state where the voice of a performer has new settings. -/
def assign (s : Playback) (performer : Nat) (values : Assignment) : Playback :=
  { s with
    performers := s.performers.modify performer fun p => { p with voice := values.apply p.voice } }

/-- The state with one listener changed. -/
def setListener (s : Playback) (i : Nat) (l : Listener) : Playback :=
  { s with listeners := s.listeners.set i l }

/-- The event that a performer is at. -/
def cursor? (s : Playback) (performer : Nat) : Option Nat :=
  (s.performers[performer]?).bind (·.cursor)

/-- The state with a new timer of a session. -/
def after (s : Playback) (delay : Binary64) (id : Nat) (task : Task) : Playback :=
  { s with clock := s.clock.after delay id task }

/-- The session that is active. -/
def currentSession? (s : Playback) : Option Session := s.current.bind (s.sessions[·]?)

/-- A session is active and has not ended. -/
def IsCurrent (s : Playback) (id : Nat) : Prop :=
  s.current = some id ∧ ∃ session ∈ s.sessions[id]?, session.hasEnded = false

instance (s : Playback) (id : Nat) : Decidable (s.IsCurrent id) :=
  match h : s.sessions[id]? with
  | none => isFalse fun ⟨_, _, hs, _⟩ => by simp [h] at hs
  | some session =>
    decidable_of_iff (s.current = some id ∧ session.hasEnded = false) <| by
      simp [IsCurrent, h]

/-- The number of reactions that may still come of all listeners. -/
def reactionsLeft (s : Playback) : Nat :=
  s.listeners.foldl (fun n l => n + l.times * l.reaction.count) 0

/-- The listeners for a kind of report, by their places, in order. -/
def listening (s : Playback) (topic : Topic) : List Nat :=
  (s.listeners.zipIdx.filter (·.1.topic = topic)).map (·.2)

end Playback

end Monody
