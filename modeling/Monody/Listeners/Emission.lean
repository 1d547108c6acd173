import Monody.Listeners.Emitter

/-!
# Named listeners

Listeners here have a name, by which they are registered, and each performs one action for a limited
number of calls, so that every emission comes to an end. The world of their programs is the table of
what every named listener does.

## Main definitions

* `Action` — what can be done to a stage, by anyone or by a listener that is called
* `Stage` — a registry with its listeners and the calls made so far
* `Stage.perform` — an action with everything that the listeners do on account of it
-/

namespace Monody.Listeners

/-- What can be done to a stage. The arguments of an emission are of type `α`. -/
inductive Action (α : Type) where
  | idle
  /-- Registers a listener. If its name is new, this is what it does when it is called, and how many
  times. -/
  | add (event name : List Char) (does : Action α) (times : Nat)
  | remove (event name : List Char)
  | emit (event : List Char) (args : List α)
  | fail
  | exit

/-- A listener: its name, what it does when it is called, and how many times it still does so. -/
structure Listener (α : Type) where
  name : List Char
  does : Action α
  left : Nat

variable {α : Type}

/-- The table where a listener is known by a name; it stays as it is if it was known before. -/
def know (known : List (Listener α)) (name : List Char) (does : Action α) (times : Nat) :
    List (Listener α) :=
  if known.any (·.name == name) then known else known ++ [⟨name, does, times⟩]

/-- The action that the listener of a name performs when it is called now, and the table where it has one
action less left; none if it has none left. -/
def spend (name : List Char) : List (Listener α) → Option (Action α × List (Listener α))
  | [] => none
  | l :: rest =>
    if l.name == name then
      match l.left with
      | 0 => none
      | left + 1 => some (l.does, { l with left } :: rest)
    else (spend name rest).map fun p => (p.1, l :: p.2)

namespace Action

/-- A program that ends as what it asked for did. -/
def answered {σ κ : Type} : Except Fault Unit → Program σ κ α
  | .ok () => .done
  | .error fault => .fail fault

/-- The program of an action. A name that is mentioned is known from then on. -/
def program : Action α → Program (List (Listener α)) (List Char) α
  | idle => .done
  | add event name does times =>
    .read fun known => .write (know known name does times) (.ask (.on event name) answered)
  | remove event name =>
    .read fun known => .write (know known name idle 0) (.ask (.off event name) answered)
  | emit event args => .ask (.emit event args) answered
  | fail => .fail .raised
  | exit => .fail .exited

/-- The greatest number of actions that listeners made by this one perform. -/
def weight : Action α → Nat
  | add _ _ does times => times * (1 + does.weight)
  | _ => 0

end Action

/-- What a named listener does when it is called: its action, if it has one left. -/
def behave (name : List Char) (_ : List α) : Program (List (Listener α)) (List Char) α :=
  .read fun known =>
    match spend name known with
    | some (does, known) => .write known does.program
    | none => .done

/-- The greatest number of actions that the known listeners perform from here on. -/
def workload (known : List (Listener α)) : Nat :=
  known.foldr (fun l n => l.left * (1 + l.does.weight) + n) 0

/-- A registry of listeners by their names. -/
structure Stage (α : Type) where
  registry : Registry (List Char)
  /-- Every listener that was ever named. -/
  known : List (Listener α)
  /-- The calls in order: the listener and the arguments. -/
  calls : List (List Char × List α)

namespace Stage

/-- A stage without listeners. -/
def ofNames (names : List (List Char)) : Stage α := ⟨.ofNames names, [], []⟩

/-- A stage as an emitter, where nothing has happened yet. -/
def emitter (s : Stage α) : Emitter (List (Listener α)) (List Char) α := ⟨s.registry, s.known, []⟩

/-- The calls that a journal tells of. -/
def callsIn (journal : List (Entry (List Char) α)) : List (List Char × List α) :=
  journal.filterMap fun
    | .called _ name args => some (name, args)
    | _ => none

/-- Performs an action with everything that the listeners do on account of it. -/
def perform (a : Action α) (s : Stage α) : Except Fault Unit × Stage α :=
  match a.program.run behave (workload s.known + a.weight + 1) s.emitter with
  | some (result, e) => (result, ⟨e.registry, e.world, s.calls ++ callsIn e.journal⟩)
  | none => (.ok (), s)

end Stage

end Monody.Listeners
