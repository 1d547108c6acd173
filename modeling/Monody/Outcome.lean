/-!
# Outcomes

Calculations that may fail return `Except`. A chain of them succeeds only if each step does, and a
check is a step of its own.

## Main definitions

* `require` — a check with the fault of failing it
-/

namespace Monody

/-- A check that fails with a fault unless `p` holds. -/
def require {ε : Type} (p : Prop) [Decidable p] (fault : ε) : Except ε Unit :=
  if p then .ok () else .error fault

theorem require_eq_ok_iff {ε : Type} {p : Prop} [Decidable p] {fault : ε} :
    require p fault = .ok () ↔ p := by
  by_cases hp : p <;> simp [require, hp]

@[simp] theorem ok_bind {ε α β : Type} (a : α) (f : α → Except ε β) : (Except.ok a >>= f) = f a := rfl

@[simp] theorem mapError_ok {ε ε' α : Type} (f : ε → ε') (a : α) :
    (Except.ok a).mapError f = .ok a := rfl

@[simp] theorem mapError_eq_ok_iff {ε ε' α : Type} {f : ε → ε'} {x : Except ε α} {a : α} :
    x.mapError f = .ok a ↔ x = .ok a := by
  cases x with
  | error e => exact ⟨nofun, nofun⟩
  | ok b => exact ⟨fun h => congrArg _ (Except.ok.inj h), fun h => congrArg _ (Except.ok.inj h)⟩

theorem exists_ok_of_isOk {ε α : Type} {x : Except ε α} (h : x.isOk) : ∃ a, x = .ok a := by
  cases x with
  | error e => cases h
  | ok a => exact ⟨a, rfl⟩

theorem isOk_iff_exists {ε α : Type} {x : Except ε α} : x.isOk ↔ ∃ a, x = .ok a :=
  ⟨exists_ok_of_isOk, by rintro ⟨a, rfl⟩; rfl⟩

theorem isOk_mapError {ε ε' α : Type} (f : ε → ε') (x : Except ε α) :
    (x.mapError f).isOk = x.isOk := by
  cases x <;> rfl

/-- A chain succeeds if its first step does, and what follows it does with its result. -/
theorem isOk_bind_iff {ε α β : Type} {x : Except ε α} {f : α → Except ε β} :
    (x >>= f).isOk ↔ ∃ a, x = .ok a ∧ (f a).isOk := by
  cases x with
  | error e => exact iff_of_false Bool.false_ne_true (by rintro ⟨a, ha, -⟩; cases ha)
  | ok a => exact ⟨fun h => ⟨a, rfl, h⟩, by rintro ⟨b, hb, h⟩; exact Except.ok.inj hb ▸ h⟩

/-- A chain that succeeds has a first step that succeeds. -/
theorem exists_of_bind_eq_ok {ε α β : Type} {x : Except ε α} {f : α → Except ε β} {b : β}
    (h : x >>= f = .ok b) : ∃ a, x = .ok a ∧ f a = .ok b := by
  cases x with
  | error e => cases h
  | ok a => exact ⟨a, rfl, h⟩

end Monody
