import Monody.Listeners.Registry

/-!
# Emitters

Emitting an event calls the listeners that are registered for it at that moment, in order. A listener
may itself register, unregister, emit or fail while it is called; none of that changes which listeners
this emission calls, and a failure stays with the listener. Only a listener that exits ends the emission,
and what has asked for that is told of the exit.

What a listener does is a program. It reads and writes a world that it shares with all others, and asks
for one thing after the other, each after the answer to the one before. An emission within it calls
listeners again, so that a program is run with a bound on how deep requests are nested; there is no
outcome where they go deeper.

## Main definitions

* `Request`, `Program` — what can be asked of an emitter, and code that asks for it
* `Emitter` — a registry with a world around it, and a journal of what has happened
* `serve`, `Program.run` — a request and a program with everything that listeners do on account of it
-/

namespace Monody.Listeners

/-- What can be asked of an emitter. The arguments of an emission are of type `α`. -/
inductive Request (κ α : Type) where
  | on (event : List Char) (listener : κ)
  | off (event : List Char) (listener : κ)
  | emit (event : List Char) (args : List α)

/-- Code that has an emitter at hand, in a world of type `σ`. What is asked for is done, or has a
fault that the rest of the program knows; the program itself returns or fails in the end. -/
inductive Program (σ κ α : Type) where
  | done
  | fail (fault : Fault)
  | read (next : σ → Program σ κ α)
  | write (world : σ) (next : Program σ κ α)
  | ask (request : Request κ α) (next : Except Fault Unit → Program σ κ α)

/-- What happens to an emitter. -/
inductive Entry (κ α : Type) where
  | added (event : List Char) (listener : κ)
  | removed (event : List Char) (listener : κ)
  /-- An emission begins. -/
  | began (event : List Char) (args : List α)
  /-- A listener is called on account of the emission that began at a place of the journal. -/
  | called (place : Nat) (listener : κ) (args : List α)
  /-- The listener that was called last for the emission that began at a place exits, and ends it. -/
  | left (place : Nat)
  deriving DecidableEq, Repr

/-- A registry with the world around it. -/
structure Emitter (σ κ α : Type) where
  registry : Registry κ
  world : σ
  /-- What has happened so far, in order. -/
  journal : List (Entry κ α)

variable {σ κ α : Type}

namespace Emitter

/-- The emitter with one more entry in its journal. -/
def note (e : Emitter σ κ α) (entry : Entry κ α) : Emitter σ κ α :=
  { e with journal := e.journal ++ [entry] }

/-- The emitter after a change of its registry, which may be refused. -/
def change (e : Emitter σ κ α) (entry : Entry κ α) (r : Except Fault (Registry κ)) :
    Except Fault Unit × Emitter σ κ α :=
  match r with
  | .ok r => (.ok (), { e.note entry with registry := r })
  | .error fault => (.error fault, e)

end Emitter

/-- Runs a program; `serve` says what is done for a request. -/
def Program.runWith
    (serve : Request κ α → Emitter σ κ α → Option (Except Fault Unit × Emitter σ κ α)) :
    Program σ κ α → Emitter σ κ α → Option (Except Fault Unit × Emitter σ κ α)
  | .done, e => some (.ok (), e)
  | .fail fault, e => some (.error fault, e)
  | .read next, e => runWith serve (next e.world) e
  | .write world next, e => runWith serve next { e with world }
  | .ask request next, e => do
    let (answer, e) ← serve request e
    runWith serve (next answer) e

/-- Calls listeners one after the other on account of the emission that began at a place; `run` runs their
programs. A listener that fails is passed over, and one that exits ends the emission. -/
def callAll (run : Program σ κ α → Emitter σ κ α → Option (Except Fault Unit × Emitter σ κ α))
    (behave : κ → List α → Program σ κ α) (place : Nat) (args : List α) :
    List κ → Emitter σ κ α → Option (Except Fault Unit × Emitter σ κ α)
  | [], e => some (.ok (), e)
  | listener :: rest, e => do
    match ← run (behave listener args) (e.note (.called place listener args)) with
    | (.error .exited, e) => return (.error .exited, e.note (.left place))
    | (_, e) => callAll run behave place args rest e

variable [DecidableEq κ]

/-- Does what is asked for; `run` runs the programs of listeners. -/
def serveWith (run : Program σ κ α → Emitter σ κ α → Option (Except Fault Unit × Emitter σ κ α))
    (behave : κ → List α → Program σ κ α) (request : Request κ α) (e : Emitter σ κ α) :
    Option (Except Fault Unit × Emitter σ κ α) :=
  match request with
  | .on event listener => some (e.change (.added event listener) (e.registry.add event listener))
  | .off event listener =>
    some (e.change (.removed event listener) (e.registry.remove event listener))
  | .emit event args =>
    match e.registry.listeners event with
    | .error fault => some (.error fault, e)
    | .ok listeners => callAll run behave e.journal.length args listeners (e.note (.began event args))

/-- Does what is asked for, where requests are nested at most `depth` deep, this one included. -/
def serve (behave : κ → List α → Program σ κ α) : Nat → Request κ α → Emitter σ κ α →
    Option (Except Fault Unit × Emitter σ κ α)
  | 0 => fun _ _ => none
  | depth + 1 => serveWith (Program.runWith (serve behave depth)) behave

/-- Runs a program where requests are nested at most `depth` deep. -/
def Program.run (behave : κ → List α → Program σ κ α) (depth : Nat) :
    Program σ κ α → Emitter σ κ α → Option (Except Fault Unit × Emitter σ κ α) :=
  runWith (serve behave depth)

end Monody.Listeners
