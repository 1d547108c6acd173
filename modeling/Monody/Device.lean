import Monody.Output

/-!
# Devices

The devices of a system are listed and opened by name. A device that is not there is replaced by the
first one, so that a configuration works on any machine; where no device can be opened, the output
is silent.

## Main definitions

* `System` — the devices, and whether listing or opening them fails
* `System.target` — the device that a wish leads to
* `System.opened` — the output for a wish
-/

namespace Monody

/-- The devices of a machine. -/
structure System where
  devices : List (List Char)
  /-- The devices cannot be listed. -/
  listFails : Bool
  /-- No device can be opened. -/
  openFails : Bool
  deriving DecidableEq, Repr

namespace System

/-- The devices that are found. -/
def listed (s : System) : List (List Char) := if s.listFails then [] else s.devices

/-- The device to open: the one that is asked for, or else the first. -/
def target (s : System) (wish : Option (List Char)) : Option (List Char) :=
  match wish with
  | some name => if name ∈ s.listed then some name else s.listed.head?
  | none => s.listed.head?

/-- The device that is opened, if that succeeds. -/
def selected (s : System) (wish : Option (List Char)) : Option (List Char) :=
  if s.openFails then none else s.target wish

/-- The output on the device that is opened, or a silent one. -/
def opened (s : System) (wish : Option (List Char)) : Output :=
  let device := s.selected wish
  .ofConnection (device.map fun _ => ⟨false⟩) device

end System

end Monody
