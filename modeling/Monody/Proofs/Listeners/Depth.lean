import Mathlib.Data.List.Basic
import Monody.Listeners.Emission
import Monody.Proofs.Listeners.Snapshot

/-!
# How deep the requests of named listeners are nested

Named listeners act a limited number of times each, and a listener that is called has one action less left
than what is made of the rest, so that an action on a stage always comes to an end; what is known of runs is
known of stages.

## Main results

* `serves_serve`, `not_exceeds` — a request and an action on named listeners come to an end
* `Stage.perform_eq` — performing an action is a run of its program, and what it makes of a stage
-/

namespace Monody.Listeners

variable {α : Type}

/-! ## Named listeners -/

section Named

/-- An emitter whose listeners have names. -/
abbrev NamedEmitter (α : Type) : Type := Emitter (List (Listener α)) (List Char) α

variable {known known' : List (Listener α)} {e : NamedEmitter α} {bound : ℕ}

theorem workload_cons (l : Listener α) (rest : List (Listener α)) :
    workload (l :: rest) = l.left * (1 + l.does.weight) + workload rest :=
  rfl

theorem workload_append (known rest : List (Listener α)) :
    workload (known ++ rest) = workload known + workload rest := by
  induction known with
  | nil => exact (Nat.zero_add _).symm
  | cons l known ih =>
    rw [List.cons_append, workload_cons, workload_cons, ih, Nat.add_assoc]

theorem workload_know_le (known : List (Listener α)) (name : List Char) (does : Action α) (times : ℕ) :
    workload (know known name does times) ≤ workload known + times * (1 + does.weight) := by
  rw [know]
  split
  · exact Nat.le_add_right _ _
  · rw [workload_append]
    exact Nat.le_refl _

/-- A listener that acts pays for its action, and one more. -/
theorem workload_of_spend {name : List Char} {does : Action α} (h : spend name known = some (does, known')) :
    workload known' + (1 + does.weight) = workload known := by
  induction known generalizing known' with
  | nil => cases h
  | cons l rest ih =>
    rw [spend] at h
    split at h
    · split at h
      · cases h
      · next left hleft =>
        cases h
        rw [workload_cons, workload_cons, hleft, Nat.succ_mul]
        dsimp only
        omega
    · obtain ⟨⟨does, rest'⟩, hrest, h⟩ := Option.map_eq_some_iff.mp h
      cases h
      rw [workload_cons, workload_cons, ← ih hrest, Nat.add_assoc]

/-- Whatever is asked for comes to an end while the listeners have at most `bound` actions left, and then
they have no more than before. -/
def Serves (bound : ℕ)
    (serve : Request (List Char) α → NamedEmitter α → Option (Except Fault Unit × NamedEmitter α)) : Prop :=
  ∀ request e, workload e.world ≤ bound →
    ∃ answer e', serve request e = some (answer, e') ∧ workload e'.world ≤ workload e.world

variable {inner : Request (List Char) α → NamedEmitter α → Option (Except Fault Unit × NamedEmitter α)}

theorem runWith_answered (answer : Except Fault Unit) (e : NamedEmitter α) :
    (Action.answered answer).runWith inner e = some (answer, e) := by
  cases answer <;> rfl

theorem Serves.exists_runWith (h : Serves bound inner) {a : Action α}
    (he : workload e.world + a.weight ≤ bound) : ∃ result e',
      a.program.runWith inner e = some (result, e') ∧ workload e'.world ≤ workload e.world + a.weight := by
  -- whatever an action asks for, it has only named a listener before
  have hask (request : Request (List Char) α) {known : List (Listener α)} (hknown : workload known ≤ bound) :
      ∃ result e', (Program.ask request Action.answered).runWith inner { e with world := known } =
        some (result, e') ∧ workload e'.world ≤ workload known := by
    obtain ⟨answer, e', hserve, hle⟩ := h request { e with world := known } hknown
    exact ⟨answer, e', by rw [Program.runWith, hserve]; exact runWith_answered answer e', hle⟩
  cases a with
  | idle | fail | exit => exact ⟨_, _, rfl, Nat.le_add_right _ _⟩
  | add event name does times =>
    have hknow := workload_know_le e.world name does times
    obtain ⟨result, e', hrun, hle⟩ := hask (.on event name) (Nat.le_trans hknow he)
    exact ⟨result, e', hrun, Nat.le_trans hle hknow⟩
  | remove event name =>
    have hknow := workload_know_le e.world name .idle 0
    rw [Nat.zero_mul] at hknow
    obtain ⟨result, e', hrun, hle⟩ := hask (.off event name) (Nat.le_trans hknow he)
    exact ⟨result, e', hrun, Nat.le_trans hle hknow⟩
  | emit event args => exact hask (.emit event args) he

/-- A listener that is called comes to an end if what it asks for does with less to be done. -/
theorem exists_runWith_behave (h : ∀ n, n + 1 = bound → Serves n inner) (args : List α) (name : List Char)
    (he : workload e.world ≤ bound) : ∃ result e',
      (behave name args).runWith inner e = some (result, e') ∧ workload e'.world ≤ workload e.world := by
  rw [behave, Program.runWith]
  cases hspend : spend name e.world with
  | none => exact ⟨_, _, rfl, Nat.le_refl _⟩
  | some p =>
    obtain ⟨does, known⟩ := p
    have hpaid := workload_of_spend hspend
    obtain ⟨result, e', hrun, hle⟩ :=
      (h (bound - 1) (by omega)).exists_runWith (e := { e with world := known }) (a := does)
        (by show workload known + does.weight ≤ bound - 1; omega)
    refine ⟨result, e', hrun, Nat.le_trans hle ?_⟩
    show workload known + does.weight ≤ workload e.world
    omega

theorem exists_callAll (h : ∀ n, n + 1 = bound → Serves n inner) (place : ℕ) (args : List α)
    (names : List (List Char)) (he : workload e.world ≤ bound) : ∃ result e',
      callAll (Program.runWith inner) behave place args names e = some (result, e') ∧
        workload e'.world ≤ workload e.world := by
  induction names generalizing e with
  | nil => exact ⟨_, e, rfl, Nat.le_refl _⟩
  | cons name names ih =>
    obtain ⟨result, e₁, hrun, hle⟩ :=
      exists_runWith_behave h args name (e := e.note (.called place name args)) he
    by_cases hstay : result = .error .exited
    · subst hstay
      exact ⟨_, _, callAll_of_exits hrun, hle⟩
    · obtain ⟨result', e', hcalls, hle'⟩ := ih (Nat.le_trans hle he)
      exact ⟨result', e', (callAll_of_stays hrun hstay).trans hcalls, Nat.le_trans hle' hle⟩

theorem serves_serveWith (h : ∀ n, n + 1 = bound → Serves n inner) :
    Serves bound (serveWith (Program.runWith inner) behave) := by
  have hchange (entry : Entry (List Char) α) (r : Except Fault (Registry (List Char)))
      (e : NamedEmitter α) : (e.change entry r).2.world = e.world := by
    cases r <;> rfl
  intro request e he
  cases request with
  | on event name => exact ⟨_, _, rfl, Nat.le_of_eq (congrArg workload (hchange _ _ _))⟩
  | off event name => exact ⟨_, _, rfl, Nat.le_of_eq (congrArg workload (hchange _ _ _))⟩
  | emit event args =>
    rw [serveWith]
    cases e.registry.listeners event with
    | error fault => exact ⟨_, _, rfl, Nat.le_refl _⟩
    | ok names =>
      exact exists_callAll h e.journal.length args names (e := e.note (.began event args)) he

/-- A request comes to an end, and goes no deeper than the listeners have actions left. -/
theorem serves_serve (depth : ℕ) :
    Serves depth (serve behave (depth + 1) : Request (List Char) α → NamedEmitter α → _) := by
  induction depth with
  | zero => exact serves_serveWith fun _ hn => absurd hn (Nat.succ_ne_zero _)
  | succ depth ih =>
    refine serves_serveWith fun n hn => ?_
    obtain rfl := Nat.succ.inj hn
    exact ih

/-- An action comes to an end, and goes no deeper than it and the listeners have actions left. -/
theorem not_exceeds (a : Action α) (e : NamedEmitter α) :
    ¬ Exceeds behave (workload e.world + a.weight + 1) (.program a.program) e := by
  intro h
  obtain ⟨result, e', hrun, -⟩ := (serves_serve _).exists_runWith (Nat.le_refl (workload e.world + a.weight))
  cases h.run_eq_none.symm.trans hrun

end Named

/-- Performing an action on a stage is a run of its program, whatever the bound is from there on, and its
calls are those that the journal tells of. -/
theorem Stage.perform_eq (a : Action α) (s : Stage α) : ∃ result e entries,
    (∀ depth, workload s.known + a.weight < depth → a.program.run behave depth s.emitter = some (result, e)) ∧
      Follows [] s.emitter e entries ∧
      s.perform a = (result, ⟨e.registry, e.world, s.calls ++ callsIn entries⟩) := by
  obtain ⟨result, e, hends, hrun⟩ := exists_ends_of_not_exceeds (not_exceeds a s.emitter)
  obtain ⟨entries, hfollows⟩ := hends.isTold
  have hjournal : e.journal = entries := hfollows.journal
  have hbound : a.program.run behave (workload s.known + a.weight + 1) s.emitter = some (result, e) :=
    hrun _ (Nat.le_refl _)
  refine ⟨result, e, entries, fun depth hlt => hrun depth hlt, hfollows, ?_⟩
  rw [Stage.perform, hbound, ← hjournal]

end Monody.Listeners
