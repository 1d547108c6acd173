import Monody.Text.Quoted

/-!
# Registries of listeners

A registry has a fixed set of named events and, for each of them, the listeners in the order in
which they were registered. A listener may be registered more than once; unregistering it takes away
its earliest registration.

## Main definitions

* `Registry` — the listeners of every event
* `Registry.add`, `Registry.remove` — registering and unregistering
* `Registry.listeners` — the listeners of one event
-/

namespace Monody.Listeners

/-- Why a call to a registry or of a listener comes to nothing. -/
inductive Fault where
  /-- There is no such event; the known ones are given. -/
  | unknownEvent (event : List Char) (known : List (List Char))
  /-- The listener is not registered for the event. -/
  | notRegistered (event : List Char)
  /-- A listener failed of its own accord. -/
  | raised
  /-- A listener left for good, by an exit or an interrupt. This is no failure, and emitters let it pass. -/
  | exited
  deriving DecidableEq, Repr

/-- The message of a fault. -/
def Fault.message : Fault → String
  | .unknownEvent event known =>
    "Unknown event " ++ String.ofList (Text.quote event) ++ ". Expected one of "
      ++ String.ofList (Text.quoteList known)
  | .notRegistered event =>
    "Callback not registered for event " ++ String.ofList (Text.quote event)
  | .raised => "listener failed"
  | .exited => "listener exited"

/-- The events in order, each with its listeners in the order of their registration. -/
structure Registry (κ : Type) where
  entries : List (List Char × List κ)
  deriving DecidableEq, Repr

namespace Registry

variable {κ : Type}

/-- A registry without listeners. A repeated name counts once. -/
def ofNames (names : List (List Char)) : Registry κ := ⟨names.eraseDups.map (·, [])⟩

/-- The names of the events. -/
def names (r : Registry κ) : List (List Char) := r.entries.map (·.1)

/-- The fault of an unknown event, which tells the known ones in alphabetical order. -/
def unknown (r : Registry κ) (event : List Char) : Fault :=
  .unknownEvent event (r.names.mergeSort fun a b => ¬ b < a)

/-- The listeners of an event. -/
def listeners (r : Registry κ) (event : List Char) : Except Fault (List κ) :=
  match r.entries.lookup event with
  | some ls => .ok ls
  | none => .error (r.unknown event)

/-- The registry with the listeners of one event changed. -/
def update (r : Registry κ) (event : List Char) (f : List κ → List κ) : Registry κ :=
  ⟨r.entries.map fun p => if p.1 = event then (p.1, f p.2) else p⟩

/-- Registers a listener after all others. -/
def add (r : Registry κ) (event : List Char) (l : κ) : Except Fault (Registry κ) := do
  let _ ← r.listeners event
  return r.update event (· ++ [l])

/-- Unregisters the earliest registration of a listener. -/
def remove [DecidableEq κ] (r : Registry κ) (event : List Char) (l : κ) :
    Except Fault (Registry κ) := do
  if l ∈ (← r.listeners event) then return r.update event (·.erase l)
  else throw (.notRegistered event)

end Registry

end Monody.Listeners
