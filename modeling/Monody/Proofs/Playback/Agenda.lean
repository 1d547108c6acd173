import Monody.Playback.Clock
import Monody.Proofs.Binary64.Time
import Monody.Proofs.Playback.State

/-!
# Timers in turn

A new timer takes its place after those that are due no later. So the pending timers of a clock are
in the order in which they are due, and timers that were set in this order come up in it, whatever
other timers were set in between.

What the pending timers of a clock are to bring about is read off in their order. Of the timers that
bring about anything of some kind, each new one is the last if it is due no earlier than the others.

## Main definitions

* `Clock.InTurn` — no pending timer is due before one that stands before it
* `Clock.foretold` — what the pending timers are to bring about
* `Clock.only` — the timers of one owner

## Main results

* `inTurn_insertAll` — timers are always in turn
* `foretold_insertAll` — timers that are set in turn come up as they were set
-/

namespace Monody.Playback.Clock

open Binary64

variable {τ β γ : Type} {t u : Timer τ} {us ts : List (Timer τ)} {f : τ → List β} {x y z : Binary64}

/-- No pending timer is due before one that stands before it. -/
def InTurn (us : List (Timer τ)) : Prop :=
  us.Pairwise fun u v => v.cancelled = false → ¬ v.due < u.due

/-- Several new timers, one after another. -/
def insertAll (ts us : List (Timer τ)) : List (Timer τ) := ts.foldl (fun us t => insert t us) us

@[simp] theorem insertAll_nil (us : List (Timer τ)) : insertAll [] us = us := rfl

@[simp] theorem insertAll_cons (t : Timer τ) (ts us : List (Timer τ)) :
    insertAll (t :: ts) us = insertAll ts (insert t us) := rfl

theorem insertAll_append (ts ts' us : List (Timer τ)) :
    insertAll (ts ++ ts') us = insertAll ts' (insertAll ts us) := List.foldl_append

theorem mem_insertAll : u ∈ insertAll ts us ↔ u ∈ ts ∨ u ∈ us := by
  induction ts generalizing us with
  | nil => simp
  | cons t ts ih => rw [insertAll_cons, ih, mem_insert, List.mem_cons, or_left_comm, or_assoc]

/-! ## Timers in turn -/

theorem inTurn_of_cancelled (h : ∀ u ∈ us, u.cancelled = true) : InTurn us := by
  refine List.pairwise_iff_forall_sublist.mpr fun {u v} huv hlive => ?_
  have hcancelled := h v (huv.subset (by simp))
  rw [hlive] at hcancelled
  cases hcancelled

/-- Where some timers are not due before those that stand before them, a new one takes its place so that
this stays the same. -/
theorem pairwise_insert (some : Timer τ → Prop) (t : Timer τ)
    (h : us.Pairwise fun u v => some v → ¬ v.due < u.due) :
    (insert t us).Pairwise fun u v => some v → ¬ v.due < u.due := by
  induction us with
  | nil => exact List.pairwise_singleton ..
  | cons u us ih =>
    obtain ⟨hu, hus⟩ := List.pairwise_cons.mp h
    rw [insert]
    split
    · next hlt =>
      refine List.pairwise_cons.mpr ⟨fun v hv hsome hdue => ?_, h⟩
      rcases List.mem_cons.mp hv with rfl | hv
      · -- `t` would be due both before and after the first of the others
        exact Binary64.not_lt_of_le (.inl hlt) hdue
      · exact hu v hv hsome (Binary64.lt_of_le_of_lt (.inl hdue) hlt)
    · next hnot =>
      refine List.pairwise_cons.mpr ⟨fun v hv hsome => ?_, ih hus⟩
      rcases mem_insert.mp hv with rfl | hv
      · exact hnot
      · exact hu v hv hsome

theorem inTurn_insert (t : Timer τ) (h : InTurn us) : InTurn (insert t us) :=
  pairwise_insert (·.cancelled = false) t h

theorem inTurn_insertAll (ts : List (Timer τ)) (h : InTurn us) : InTurn (insertAll ts us) := by
  induction ts generalizing us with
  | nil => exact h
  | cons t ts ih => exact ih (inTurn_insert t h)

/-- Where the first timer is not due yet, no pending one is. -/
theorem InTurn.not_due {target : Binary64} (h : InTurn (t :: us)) (hnumbers : ∀ u ∈ t :: us, u.due ≠ nan)
    (ht : ¬ t.due ≤ target) (hu : u ∈ t :: us) (hlive : u.cancelled = false) : ¬ u.due ≤ target := by
  rcases List.mem_cons.mp hu with rfl | hmem
  · exact ht
  · intro hdue
    have hnot := (List.pairwise_cons.mp h).1 u hmem hlive
    have hle := (Binary64.not_lt (hnumbers u hu) (hnumbers t List.mem_cons_self)).mp hnot
    exact ht (Binary64.le_trans hle hdue)

/-! ## What timers are to bring about -/

/-- What the pending timers are to bring about, in order. -/
def foretold (f : τ → List β) (us : List (Timer τ)) : List β :=
  us.flatMap fun u => if u.cancelled then [] else f u.task

@[simp] theorem foretold_nil (f : τ → List β) : foretold f [] = [] := rfl

theorem foretold_cons (f : τ → List β) (u : Timer τ) (us : List (Timer τ)) :
    foretold f (u :: us) = (if u.cancelled then [] else f u.task) ++ foretold f us :=
  List.flatMap_cons

theorem foretold_cons_of_cancelled (h : u.cancelled = true) :
    foretold f (u :: us) = foretold f us := by
  rw [foretold_cons, if_pos h, List.nil_append]

theorem foretold_cons_of_pending (h : u.cancelled = false) :
    foretold f (u :: us) = f u.task ++ foretold f us := by
  rw [foretold_cons, h, if_neg Bool.false_ne_true]

theorem foretold_append (f : τ → List β) (us vs : List (Timer τ)) :
    foretold f (us ++ vs) = foretold f us ++ foretold f vs := List.flatMap_append

theorem foretold_eq_nil_iff :
    foretold f us = [] ↔ ∀ u ∈ us, u.cancelled = false → f u.task = [] := by
  rw [foretold, List.flatMap_eq_nil_iff]
  refine forall₂_congr fun u _ => ?_
  cases u.cancelled <;> simp

theorem foretold_singleton (h : f t.task = []) : foretold f [t] = [] :=
  foretold_eq_nil_iff.mpr fun _ hu _ => List.mem_singleton.mp hu ▸ h

theorem foretold_filter (p : β → Bool) (f : τ → List β) (us : List (Timer τ)) :
    foretold (fun task => (f task).filter p) us = (foretold f us).filter p := by
  rw [foretold, foretold, List.filter_flatMap]
  congr 1
  funext u
  split <;> rfl

theorem foretold_filterMap (p : β → Option γ) (f : τ → List β) (us : List (Timer τ)) :
    foretold (fun task => (f task).filterMap p) us = (foretold f us).filterMap p := by
  rw [foretold, foretold, List.filterMap_flatMap]
  congr 1
  funext u
  split <;> rfl

theorem mem_foretold {b : β} : b ∈ foretold f us ↔ ∃ u ∈ us, u.cancelled = false ∧ b ∈ f u.task := by
  rw [foretold, List.mem_flatMap]
  refine exists_congr fun u => and_congr_right fun _ => ?_
  cases u.cancelled <;> simp

/-- A timer that brings about nothing changes nothing in what the others do. -/
theorem foretold_insert_of_eq_nil (h : f t.task = []) : foretold f (insert t us) = foretold f us := by
  induction us with
  | nil => exact foretold_singleton h
  | cons u us ih =>
    rw [insert]
    split
    · exact (foretold_append f [t] (u :: us)).trans (by rw [foretold_singleton h, List.nil_append])
    · rw [foretold_cons, ih, ← foretold_cons]

/-- The last of the timers that bring about anything is the new one, if none of them is due later. -/
theorem foretold_insert (hus : InTurn us)
    (h : ∀ u ∈ us, u.cancelled = false → f u.task ≠ [] → NoLater u.due t.due) :
    foretold f (insert t us) = foretold f us ++ foretold f [t] := by
  induction us with
  | nil => rfl
  | cons u us ih =>
    obtain ⟨hu, hus⟩ := List.pairwise_cons.mp hus
    rw [insert]
    split
    · next hlt =>
      -- what stands behind the new timer is due after it, and so brings about nothing
      have hnil : foretold f (u :: us) = [] := by
        refine foretold_eq_nil_iff.mpr fun v hv hlive => ?_
        by_contra hne
        have hbefore := h v hv hlive hne u.due hlt
        rcases List.mem_cons.mp hv with rfl | hmem
        · exact Binary64.lt_irrefl _ hbefore
        · exact hu v hmem hlive hbefore
      exact (foretold_append f [t] (u :: us)).trans (by rw [hnil, List.append_nil, List.nil_append])
    · rw [foretold_cons, ih hus fun v hv => h v (List.mem_cons_of_mem u hv), ← List.append_assoc,
        ← foretold_cons]

/-- Timers that are set in turn come up as they were set, and after those that are due no later than any of
them. Only timers that bring about anything count. -/
theorem foretold_insertAll_append (hus : InTurn us)
    (hbefore : ∀ u ∈ us, u.cancelled = false → f u.task ≠ [] →
      ∀ t ∈ ts, f t.task ≠ [] → NoLater u.due t.due)
    (hts : ts.Pairwise fun t u => f t.task ≠ [] → f u.task ≠ [] → NoLater t.due u.due) :
    foretold f (insertAll ts us) = foretold f us ++ foretold f ts := by
  induction ts generalizing us with
  | nil => exact (List.append_nil _).symm
  | cons t ts ih =>
    obtain ⟨ht, hts⟩ := List.pairwise_cons.mp hts
    have hinsert : foretold f (insert t us) = foretold f us ++ foretold f [t] := by
      by_cases hempty : f t.task = []
      · rw [foretold_insert_of_eq_nil hempty, foretold_singleton hempty, List.append_nil]
      · exact foretold_insert hus fun u hu hlive hne =>
          hbefore u hu hlive hne t List.mem_cons_self hempty
    -- what is due no later than all of the timers stays so when the first of them is among it
    rw [insertAll_cons, ih (inTurn_insert t hus) ?_ hts, hinsert, List.append_assoc,
      ← foretold_append]
    · rfl
    · intro u hu hlive hne v hv hv'
      rcases mem_insert.mp hu with rfl | hu
      · exact ht v hv hne hv'
      · exact hbefore u hu hlive hne v (List.mem_cons_of_mem t hv) hv'

/-- Timers that are set in turn come up as they were set where nothing else is to come. -/
theorem foretold_insertAll (hus : InTurn us) (hnil : foretold f us = [])
    (hts : ts.Pairwise fun t u => f t.task ≠ [] → f u.task ≠ [] → NoLater t.due u.due) :
    foretold f (insertAll ts us) = foretold f ts := by
  rw [foretold_insertAll_append hus (fun u hu hlive hne =>
    absurd (foretold_eq_nil_iff.mp hnil u hu hlive) hne) hts, hnil, List.nil_append]

/-- Timers that tell when they are due come up in the order of these times. -/
theorem pairwise_foretold {f : τ → List Binary64} (hus : InTurn us)
    (h : ∀ u ∈ us, u.cancelled = false → ∀ x ∈ f u.task, x = u.due ∧ x ≠ nan) :
    (foretold f us).Pairwise (· ≤ ·) := by
  have hlive {u : Timer τ} (hu : u ∈ us) {x : Binary64}
      (hx : x ∈ if u.cancelled then [] else f u.task) : u.cancelled = false ∧ x = u.due ∧ x ≠ nan := by
    cases hcancelled : u.cancelled with
    | true =>
      rw [hcancelled] at hx
      exact absurd hx List.not_mem_nil
    | false =>
      rw [hcancelled] at hx
      exact ⟨rfl, h u hu hcancelled x hx⟩
  -- all that one timer tells is the same time, and of two timers the first is not due after the second
  refine List.pairwise_flatMap.mpr ⟨fun u hu => ?_, hus.imp_of_mem fun {u v} hu hv hnot x hx y hy => ?_⟩
  · refine List.pairwise_of_forall_mem_list fun x hx y hy => ?_
    obtain ⟨-, rfl, hne⟩ := hlive hu hx
    obtain ⟨-, rfl, -⟩ := hlive hu hy
    exact Binary64.le_refl hne
  · obtain ⟨-, rfl, hx⟩ := hlive hu hx
    obtain ⟨hpending, rfl, hy⟩ := hlive hv hy
    exact (Binary64.not_lt hy hx).mp (hnot hpending)

/-! ## The timers of one owner -/

/-- The timers of one owner, among those of others as if these were cancelled. -/
def only (owner : Nat) (us : List (Timer τ)) : List (Timer τ) :=
  us.map fun u => { u with cancelled := u.cancelled || u.owner != owner }

variable {owner : Nat}

theorem only_insert (h : t.owner = owner) (us : List (Timer τ)) :
    only owner (insert t us) = insert t (only owner us) := by
  have hself : (t.owner != owner) = false := by rw [h, bne_self_eq_false]
  have hinsert := map_insert
    (g := fun u => { u with cancelled := u.cancelled || u.owner != owner }) (fun _ => rfl) t us
  rw [hself, Bool.or_false] at hinsert
  exact hinsert

theorem only_insertAll (h : ∀ t ∈ ts, t.owner = owner) (us : List (Timer τ)) :
    only owner (insertAll ts us) = insertAll ts (only owner us) := by
  induction ts generalizing us with
  | nil => rfl
  | cons t ts ih =>
    obtain ⟨ht, hts⟩ := List.forall_mem_cons.mp h
    rw [insertAll_cons, ih hts, only_insert ht, insertAll_cons]

/-- Of an owner who has no timer, none is pending. -/
theorem cancelled_of_mem_only (h : ∀ u ∈ us, u.owner ≠ owner) (hu : u ∈ only owner us) :
    u.cancelled = true := by
  obtain ⟨v, hv, rfl⟩ := List.mem_map.mp hu
  rw [bne_iff_ne.mpr (h v hv), Bool.or_true]

end Monody.Playback.Clock
