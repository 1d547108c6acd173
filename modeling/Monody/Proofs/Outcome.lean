import Mathlib.Data.List.Forall2
import Mathlib.Logic.Relation
import Monody.Outcome

/-!
# Lists of outcomes

A calculation that is done for every element of a list succeeds if it does so for each of them, and
then its results stand in the places of the elements.

## Main results

* `mapM_eq_ok_iff` — results element by element
* `exists_of_mem_mapM` — every result is that of an element
-/

namespace Monody

variable {ε α β : Type} {f : α → Except ε β} {as : List α} {bs : List β}

theorem toOption_eq_some_iff {x : Except ε α} {a : α} :
    x.toOption = some a ↔ x = .ok a := by
  cases x with
  | error e => exact ⟨nofun, nofun⟩
  | ok b => exact ⟨fun h => congrArg _ (Option.some.inj h), fun h => congrArg _ (Except.ok.inj h)⟩

theorem mapM_eq_ok_iff : as.mapM f = .ok bs ↔ List.Forall₂ (fun a b => f a = .ok b) as bs := by
  constructor
  · intro h
    induction as generalizing bs with
    | nil =>
      obtain rfl := Except.ok.inj h
      exact .nil
    | cons a as ih =>
      rw [List.mapM_cons] at h
      obtain ⟨b, hb, h⟩ := exists_of_bind_eq_ok h
      obtain ⟨bs, hbs, h⟩ := exists_of_bind_eq_ok h
      obtain rfl := Except.ok.inj h
      exact .cons hb (ih hbs)
  · intro h
    induction h with
    | nil => rfl
    | cons hb _ ih =>
      rw [List.mapM_cons, hb, ok_bind, ih]
      rfl

/-- Of lists that are related element by element, each element of the second has one in the first. -/
theorem exists_of_mem_right {R : α → β → Prop} (h : List.Forall₂ R as bs) :
    ∀ b ∈ bs, ∃ a ∈ as, R a b := by
  induction h with
  | nil => exact fun b hb => absurd hb List.not_mem_nil
  | @cons a b as bs hab _ ih =>
    refine List.forall_mem_cons.mpr ⟨⟨a, List.mem_cons_self, hab⟩, fun b hb => ?_⟩
    obtain ⟨a', ha', hab'⟩ := ih b hb
    exact ⟨a', List.mem_cons_of_mem _ ha', hab'⟩

/-- Lists that are related element by element to one list are so related to each other. -/
theorem forall₂_comp {γ : Type} {R : α → β → Prop} {S : β → γ → Prop} {cs : List γ}
    (h : List.Forall₂ R as bs) (h' : List.Forall₂ S bs cs) :
    List.Forall₂ (Relation.Comp R S) as cs := by
  induction h generalizing cs with
  | nil =>
    obtain rfl := List.forall₂_nil_left_iff.mp h'
    exact .nil
  | cons hab _ ih =>
    cases h' with
    | cons hbc hrest => exact .cons ⟨_, hab, hbc⟩ (ih hrest)

/-- Where each element has something that is related to it, so has the list. -/
theorem exists_forall₂ {R : α → β → Prop} (h : ∀ a ∈ as, ∃ b, R a b) :
    ∃ bs, List.Forall₂ R as bs := by
  induction as with
  | nil => exact ⟨[], .nil⟩
  | cons a as ih =>
    obtain ⟨ha, has⟩ := List.forall_mem_cons.mp h
    obtain ⟨b, hb⟩ := ha
    obtain ⟨bs, hbs⟩ := ih has
    exact ⟨b :: bs, .cons hb hbs⟩

/-- A calculation for all elements succeeds exactly if it does for each of them. -/
theorem isOk_mapM_iff : (as.mapM f).isOk ↔ ∀ a ∈ as, (f a).isOk := by
  constructor
  · intro h a ha
    obtain ⟨bs, hbs⟩ := exists_ok_of_isOk h
    obtain ⟨b, -, hb⟩ := exists_of_mem_right (mapM_eq_ok_iff.mp hbs).flip a ha
    rw [hb]
    rfl
  · intro h
    obtain ⟨bs, hbs⟩ := exists_forall₂ fun a ha => exists_ok_of_isOk (h a ha)
    rw [mapM_eq_ok_iff.mpr hbs]
    rfl

/-- What related elements have in common, the lists have in common. -/
theorem map_eq_map_of_forall₂ {γ : Type} {R : α → β → Prop} {f : α → γ} {g : β → γ}
    (h : List.Forall₂ R as bs) (hfg : ∀ a b, R a b → f a = g b) : as.map f = bs.map g := by
  rw [← List.forall₂_eq_eq_eq, List.forall₂_map_left_iff, List.forall₂_map_right_iff]
  exact h.imp hfg

/-- Every result is that of an element. -/
theorem exists_of_mem_mapM (h : as.mapM f = .ok bs) : ∀ b ∈ bs, ∃ a ∈ as, f a = .ok b :=
  exists_of_mem_right (mapM_eq_ok_iff.mp h)

/-- Whether a calculation succeeds with a certain result is decided by doing it. -/
instance decidableExistsOk {x : Except ε α} {p : α → Prop} [DecidablePred p] :
    Decidable (∃ a, x = .ok a ∧ p a) :=
  match x with
  | .error _ => isFalse (by rintro ⟨a, ha, -⟩; cases ha)
  | .ok a => decidable_of_iff (p a)
      ⟨fun h => ⟨a, rfl, h⟩, by rintro ⟨b, hb, h⟩; exact Except.ok.inj hb ▸ h⟩

end Monody
