import Monody.Binary64.Decimal

/-!
# Clocks

A clock is moved by hand. It keeps timers in the order in which they come up: by the time they are
due, and of those due at one time in the order of their creation. Every timer belongs to an owner,
which may cancel all its timers at once. A cancelled timer keeps its place, but when it comes up it
is passed over. A clock may also take no notice of cancelling, and then every timer fires.

## Main definitions

* `Clock.timers` — the timers that are pending
* `Clock.after` — a new timer
* `Clock.cancel` — the timers of an owner, cancelled
* `Clock.due?` — the next timer that comes up, with the clock at its time
-/

namespace Monody.Playback

/-- A task that is due at a time. -/
structure Timer (τ : Type) where
  /-- When it is due, in seconds. -/
  due : Binary64
  owner : Nat
  task : τ
  /-- Whether its owner has cancelled it. -/
  cancelled : Bool

/-- A time in seconds and the timers that have not come up, in the order in which they do. -/
structure Clock (τ : Type) where
  now : Binary64
  queue : List (Timer τ)
  /-- Whether notice is taken of cancelling. -/
  cancels : Bool

namespace Clock

variable {τ : Type}

/-- The clock at its beginning. -/
def start (cancels : Bool) : Clock τ := ⟨0, [], cancels⟩

/-- The timers that are pending: those that have neither come up nor been cancelled. -/
def timers (c : Clock τ) : List (Timer τ) := c.queue.filter fun t => !t.cancelled

/-- Timers with one more, which comes up after those that are due no later. -/
def insert (t : Timer τ) : List (Timer τ) → List (Timer τ)
  | [] => [t]
  | u :: us => if t.due < u.due then t :: u :: us else u :: insert t us

/-- The clock with a new timer. A negative delay counts as none. -/
def after (c : Clock τ) (delay : Binary64) (owner : Nat) (task : τ) : Clock τ :=
  { c with queue := insert ⟨c.now + Binary64.max 0 delay, owner, task, false⟩ c.queue }

/-- A timer after an owner has cancelled his timers. -/
def cancelIf (owner : Nat) (t : Timer τ) : Timer τ :=
  { t with cancelled := t.cancelled || t.owner == owner }

/-- The clock after an owner has cancelled his timers. -/
def cancel (c : Clock τ) (owner : Nat) : Clock τ :=
  if c.cancels then { c with queue := c.queue.map (cancelIf owner) } else c

/-- How much later than a time a timer may be due to fire at it: a billionth of a second. -/
def slack : Binary64 := .ofDecimal false ⟨1, -9⟩

/-- The next timer, if it is due at a time, and the clock without it. The clock is at the timer's own
time then, unless the timer is cancelled. -/
def due? (c : Clock τ) (target : Binary64) : Option (Timer τ × Clock τ) :=
  match c.queue with
  | [] => none
  | t :: rest =>
    if t.due ≤ target + slack then
      some (t, { c with now := if t.cancelled then c.now else t.due, queue := rest })
    else none

/-- When the last pending timer is due. -/
def latest? (c : Clock τ) : Option Binary64 := c.timers.getLast?.map (·.due)

end Clock

end Monody.Playback
