import Mathlib.Data.List.Basic
import Monody.Listeners.Emitter

/-!
# Runs without a bound

A program is run with a bound on how deep its requests are nested, and it has no outcome beyond that. Here a
run is told without a bound, by a rule for every step of a program, of a request and of the calls of an
emission. The bound is then no more than that: a run that ends has its outcome at every bound that is great
enough, and a bound is too small exactly if requests are nested deeper, which is told by the same steps. A
run that goes on for ever has no end, and exceeds every bound.

One relation tells of programs, requests and calls, so that what holds of all of them is proved by a single
induction on how they end.

## Main definitions

* `Work` — what is run
* `Ends` — a run from its beginning to its end
* `Exceeds` — a run in which requests are nested deeper than a bound

## Main results

* `ends_iff_exists_run` — a run ends exactly as it does at some bound
* `run_eq_none_iff` — a bound is too small exactly if it is exceeded
* `exists_ends_of_not_exceeds` — a run that does not exceed a bound ends, as it does at every greater bound
-/

namespace Monody.Listeners

variable {σ κ α : Type}

/-- What is run: a program, a request, or the calls that are left of an emission under way. -/
inductive Work (σ κ α : Type) where
  | program (p : Program σ κ α)
  | request (request : Request κ α)
  | calls (place : ℕ) (args : List α) (listeners : List κ)

variable [DecidableEq κ]

/-- What is run comes to an end, with a result and the emitter that it leaves. -/
inductive Ends (behave : κ → List α → Program σ κ α) :
    Work σ κ α → Emitter σ κ α → Except Fault Unit → Emitter σ κ α → Prop
  | done {e} : Ends behave (.program .done) e (.ok ()) e
  | fail {fault e} : Ends behave (.program (.fail fault)) e (.error fault) e
  | read {next e result e'} (h : Ends behave (.program (next e.world)) e result e') :
    Ends behave (.program (.read next)) e result e'
  | write {world next e result e'} (h : Ends behave (.program next) { e with world } result e') :
    Ends behave (.program (.write world next)) e result e'
  | ask {request next e answer e₁ result e'} (hanswer : Ends behave (.request request) e answer e₁)
    (h : Ends behave (.program (next answer)) e₁ result e') :
    Ends behave (.program (.ask request next)) e result e'
  | on {event l e result e'}
    (h : e.change (.added event l) (e.registry.add event l) = (result, e')) :
    Ends behave (.request (.on event l)) e result e'
  | off {event l e result e'}
    (h : e.change (.removed event l) (e.registry.remove event l) = (result, e')) :
    Ends behave (.request (.off event l)) e result e'
  /-- There is nobody to be called where the event is unknown. -/
  | unknown {event args e fault} (h : e.registry.listeners event = .error fault) :
    Ends behave (.request (.emit event args)) e (.error fault) e
  | emit {event args e ls result e'} (hls : e.registry.listeners event = .ok ls)
    (h : Ends behave (.calls e.journal.length args ls) (e.note (.began event args)) result e') :
    Ends behave (.request (.emit event args)) e result e'
  | called {place args e} : Ends behave (.calls place args []) e (.ok ()) e
  /-- A listener that returns or fails is followed by the next one. -/
  | call {place args l ls e result e₁ result' e'}
    (hcall : Ends behave (.program (behave l args)) (e.note (.called place l args)) result e₁)
    (hstay : result ≠ .error .exited) (h : Ends behave (.calls place args ls) e₁ result' e') :
    Ends behave (.calls place args (l :: ls)) e result' e'
  | exit {place args l ls e e₁}
    (hcall : Ends behave (.program (behave l args)) (e.note (.called place l args)) (.error .exited) e₁) :
    Ends behave (.calls place args (l :: ls)) e (.error .exited) (e₁.note (.left place))

/-- Somewhere in a run, requests are nested deeper than a bound. -/
inductive Exceeds (behave : κ → List α → Program σ κ α) : ℕ → Work σ κ α → Emitter σ κ α → Prop
  | request {request e} : Exceeds behave 0 (.request request) e
  | emit {depth event args e ls} (hls : e.registry.listeners event = .ok ls)
    (h : Exceeds behave depth (.calls e.journal.length args ls) (e.note (.began event args))) :
    Exceeds behave (depth + 1) (.request (.emit event args)) e
  | read {depth next e} (h : Exceeds behave depth (.program (next e.world)) e) :
    Exceeds behave depth (.program (.read next)) e
  | write {depth world next e} (h : Exceeds behave depth (.program next) { e with world }) :
    Exceeds behave depth (.program (.write world next)) e
  | ask {depth request next e} (h : Exceeds behave depth (.request request) e) :
    Exceeds behave depth (.program (.ask request next)) e
  /-- The request that is asked for first comes to an end, and it goes on from there. -/
  | answered {depth request next e answer e₁} (hanswer : Ends behave (.request request) e answer e₁)
    (h : Exceeds behave depth (.program (next answer)) e₁) :
    Exceeds behave depth (.program (.ask request next)) e
  | call {depth place args l ls e}
    (h : Exceeds behave depth (.program (behave l args)) (e.note (.called place l args))) :
    Exceeds behave depth (.calls place args (l :: ls)) e
  /-- The listener that is called first comes to an end, and it goes on from there. -/
  | later {depth place args l ls e result e₁}
    (hcall : Ends behave (.program (behave l args)) (e.note (.called place l args)) result e₁)
    (hstay : result ≠ .error .exited) (h : Exceeds behave depth (.calls place args ls) e₁) :
    Exceeds behave depth (.calls place args (l :: ls)) e

/-- Runs something where the requests in it are nested at most `depth` deep. -/
def Work.run (behave : κ → List α → Program σ κ α) (depth : ℕ) :
    Work σ κ α → Emitter σ κ α → Option (Except Fault Unit × Emitter σ κ α)
  | .program p => p.run behave depth
  | .request q => serve behave depth q
  | .calls place args ls => callAll (Program.run behave depth) behave place args ls

variable {behave : κ → List α → Program σ κ α} {w : Work σ κ α} {p : Program σ κ α}
  {request : Request κ α} {e e₁ e' e'' : Emitter σ κ α} {answer result result' : Except Fault Unit}
  {place depth : ℕ} {event : List Char} {args : List α} {l : κ} {ls : List κ}

/-! ## Single steps -/

section Steps

variable {run : Program σ κ α → Emitter σ κ α → Option (Except Fault Unit × Emitter σ κ α)}

omit [DecidableEq κ] in
/-- A listener that does not exit is followed by the next one. -/
theorem callAll_of_stays (hrun : run (behave l args) (e.note (.called place l args)) = some (result, e₁))
    (hstay : result ≠ .error .exited) :
    callAll run behave place args (l :: ls) e = callAll run behave place args ls e₁ := by
  rw [callAll, hrun]
  match result, hstay with
  | .ok (), _ | .error .raised, _ | .error (.unknownEvent ..), _ | .error (.notRegistered _), _ => rfl
  | .error .exited, hstay => exact absurd rfl hstay

omit [DecidableEq κ] in
theorem callAll_of_exits
    (hrun : run (behave l args) (e.note (.called place l args)) = some (.error .exited, e₁)) :
    callAll run behave place args (l :: ls) e = some (.error .exited, e₁.note (.left place)) := by
  rw [callAll, hrun]
  rfl

omit [DecidableEq κ] in
theorem callAll_of_none (hrun : run (behave l args) (e.note (.called place l args)) = none) :
    callAll run behave place args (l :: ls) e = none := by
  rw [callAll, hrun]
  rfl

theorem serve_emit (hls : e.registry.listeners event = .ok ls) :
    serve behave (depth + 1) (.emit event args) e =
      (Work.calls e.journal.length args ls).run behave depth (e.note (.began event args)) := by
  rw [serve, serveWith, hls]
  rfl

theorem serve_unknown {fault : Fault} (h : e.registry.listeners event = .error fault) :
    serve behave (depth + 1) (.emit event args) e = some (.error fault, e) := by
  rw [serve, serveWith, h]

theorem run_ask_of_some {next : Except Fault Unit → Program σ κ α}
    (h : serve behave depth request e = some (answer, e₁)) :
    (Program.ask request next).run behave depth e = (next answer).run behave depth e₁ := by
  rw [Program.run, Program.runWith, h]
  rfl

theorem run_ask_of_none {next : Except Fault Unit → Program σ κ α}
    (h : serve behave depth request e = none) : (Program.ask request next).run behave depth e = none := by
  rw [Program.run, Program.runWith, h]
  rfl

end Steps

/-! ## What a bounded run gives is an end -/

theorem ends_of_run (hserve : ∀ request e answer e₁, serve behave depth request e = some (answer, e₁) →
      Ends behave (.request request) e answer e₁)
    (h : p.run behave depth e = some (result, e')) : Ends behave (.program p) e result e' := by
  induction p generalizing e with
  | done =>
    cases h
    exact .done
  | fail fault =>
    cases h
    exact .fail
  | read next ih => exact .read (ih _ h)
  | write world next ih => exact .write (ih h)
  | ask request next ih =>
    obtain ⟨⟨answer, e₁⟩, hanswer, h⟩ := Option.bind_eq_some_iff.mp h
    exact .ask (hserve _ _ _ _ hanswer) (ih answer h)

theorem ends_of_callAll (hrun : ∀ p e result e₁, Program.run behave depth p e = some (result, e₁) →
      Ends behave (.program p) e result e₁)
    (h : callAll (Program.run behave depth) behave place args ls e = some (result, e')) :
    Ends behave (.calls place args ls) e result e' := by
  induction ls generalizing e with
  | nil =>
    cases h
    exact .called
  | cons l ls ih =>
    obtain ⟨⟨outcome, e₁⟩, hcall, -⟩ := Option.bind_eq_some_iff.mp h
    by_cases hstay : outcome = .error .exited
    · subst hstay
      rw [callAll_of_exits hcall] at h
      cases h
      exact .exit (hrun _ _ _ _ hcall)
    · rw [callAll_of_stays hcall hstay] at h
      exact .call (hrun _ _ _ _ hcall) hstay (ih h)

theorem ends_of_serve (h : serve behave depth request e = some (answer, e')) :
    Ends behave (.request request) e answer e' := by
  induction depth generalizing request e answer e' with
  | zero => cases h
  | succ depth ih =>
    cases request with
    | on event l => exact .on (Option.some.inj h)
    | off event l => exact .off (Option.some.inj h)
    | emit event args =>
      cases hls : e.registry.listeners event with
      | error fault =>
        rw [serve_unknown hls] at h
        cases h
        exact .unknown hls
      | ok ls =>
        rw [serve_emit hls] at h
        exact .emit hls (ends_of_callAll
          (fun _ _ _ _ hrun => ends_of_run (fun _ _ _ _ hserve => ih hserve) hrun) h)

/-- What a run within a bound gives is how it ends. -/
theorem ends_of_run_eq_some (h : w.run behave depth e = some (result, e')) : Ends behave w e result e' := by
  have hrun (p : Program σ κ α) (e : Emitter σ κ α) (result : Except Fault Unit) (e' : Emitter σ κ α) :
      p.run behave depth e = some (result, e') → Ends behave (.program p) e result e' :=
    ends_of_run fun _ _ _ _ => ends_of_serve
  cases w with
  | program p => exact hrun p e result e' h
  | request request => exact ends_of_serve h
  | calls place args ls => exact ends_of_callAll hrun h

/-! ## Every end is met within some bound -/

/-- A run that ends has its outcome at every bound from some on. -/
theorem Ends.exists_run (h : Ends behave w e result e') :
    ∃ depth, ∀ bound, depth ≤ bound → w.run behave bound e = some (result, e') := by
  -- a bound for the parts of a run is one for the whole, and an emission needs one more
  induction h with
  | done | fail | called => exact ⟨0, fun _ _ => rfl⟩
  | read _ ih | write _ ih => exact ih
  | on h | off h =>
    refine ⟨1, fun bound hle => ?_⟩
    obtain ⟨bound, rfl⟩ := Nat.exists_eq_add_of_le' hle
    exact congrArg some h
  | unknown hls =>
    refine ⟨1, fun bound hle => ?_⟩
    obtain ⟨bound, rfl⟩ := Nat.exists_eq_add_of_le' hle
    exact serve_unknown hls
  | ask _ _ ihanswer ih =>
    obtain ⟨depth, hanswer⟩ := ihanswer
    obtain ⟨depth', h⟩ := ih
    refine ⟨max depth depth', fun bound hle => ?_⟩
    exact (run_ask_of_some (hanswer bound (Nat.le_trans (Nat.le_max_left ..) hle))).trans
      (h bound (Nat.le_trans (Nat.le_max_right ..) hle))
  | emit hls _ ih =>
    obtain ⟨depth, h⟩ := ih
    refine ⟨depth + 1, fun bound hle => ?_⟩
    obtain ⟨bound, rfl⟩ := Nat.exists_eq_add_of_le' (Nat.le_trans (Nat.le_add_left 1 depth) hle)
    exact (serve_emit hls).trans (h bound (Nat.le_of_succ_le_succ hle))
  | call _ hstay _ ihcall ih =>
    obtain ⟨depth, hcall⟩ := ihcall
    obtain ⟨depth', h⟩ := ih
    refine ⟨max depth depth', fun bound hle => ?_⟩
    exact (callAll_of_stays (hcall bound (Nat.le_trans (Nat.le_max_left ..) hle)) hstay).trans
      (h bound (Nat.le_trans (Nat.le_max_right ..) hle))
  | exit _ ihcall =>
    obtain ⟨depth, hcall⟩ := ihcall
    exact ⟨depth, fun bound hle => callAll_of_exits (hcall bound hle)⟩

/-- **A run ends exactly as it does at some bound.** -/
theorem ends_iff_exists_run :
    Ends behave w e result e' ↔ ∃ depth, w.run behave depth e = some (result, e') := by
  refine ⟨fun h => ?_, fun ⟨_, h⟩ => ends_of_run_eq_some h⟩
  obtain ⟨depth, h⟩ := h.exists_run
  exact ⟨depth, h depth (Nat.le_refl _)⟩

/-- A run ends in one way only. -/
theorem Ends.unique (h : Ends behave w e result e') (h' : Ends behave w e result' e'') :
    result = result' ∧ e' = e'' := by
  obtain ⟨depth, hrun⟩ := h.exists_run
  obtain ⟨depth', hrun'⟩ := h'.exists_run
  have hsame := (hrun _ (Nat.le_max_left depth depth')).symm.trans (hrun' _ (Nat.le_max_right depth depth'))
  cases Option.some.inj hsame
  exact ⟨rfl, rfl⟩

/-- Within a bound a run that ends has its outcome, or the bound is too small. -/
theorem Ends.run_eq_or (h : Ends behave w e result e') (depth : ℕ) :
    w.run behave depth e = some (result, e') ∨ w.run behave depth e = none := by
  cases hrun : w.run behave depth e with
  | none => exact .inr rfl
  | some outcome =>
    obtain ⟨rfl, rfl⟩ := h.unique (ends_of_run_eq_some hrun)
    exact .inl rfl

/-! ## Bounds that are too small -/

theorem exceeds_of_run (hserve : ∀ request e, serve behave depth request e = none →
      Exceeds behave depth (.request request) e)
    (h : p.run behave depth e = none) : Exceeds behave depth (.program p) e := by
  induction p generalizing e with
  | done | fail => cases h
  | read next ih => exact .read (ih _ h)
  | write world next ih => exact .write (ih h)
  | ask request next ih =>
    cases hanswer : serve behave depth request e with
    | none => exact .ask (hserve _ _ hanswer)
    | some outcome =>
      obtain ⟨answer, e₁⟩ := outcome
      rw [run_ask_of_some hanswer] at h
      exact .answered (ends_of_serve hanswer) (ih answer h)

theorem exceeds_of_callAll (hrun : ∀ p e, Program.run behave depth p e = none →
      Exceeds behave depth (.program p) e)
    (h : callAll (Program.run behave depth) behave place args ls e = none) :
    Exceeds behave depth (.calls place args ls) e := by
  induction ls generalizing e with
  | nil => cases h
  | cons l ls ih =>
    cases hcall : Program.run behave depth (behave l args) (e.note (.called place l args)) with
    | none => exact .call (hrun _ _ hcall)
    | some outcome =>
      obtain ⟨result, e₁⟩ := outcome
      have hends : Ends behave (.program (behave l args)) (e.note (.called place l args)) result e₁ :=
        ends_of_run_eq_some hcall
      by_cases hstay : result = .error .exited
      · subst hstay
        rw [callAll_of_exits hcall] at h
        cases h
      · rw [callAll_of_stays hcall hstay] at h
        exact .later hends hstay (ih h)

theorem exceeds_of_serve (h : serve behave depth request e = none) :
    Exceeds behave depth (.request request) e := by
  induction depth generalizing request e with
  | zero => exact .request
  | succ depth ih =>
    cases request with
    | on | off => cases h
    | emit event args =>
      cases hls : e.registry.listeners event with
      | error fault =>
        rw [serve_unknown hls] at h
        cases h
      | ok ls =>
        rw [serve_emit hls] at h
        exact .emit hls (exceeds_of_callAll
          (fun _ _ hrun => exceeds_of_run (fun _ _ hserve => ih hserve) hrun) h)

theorem Exceeds.run_eq_none (h : Exceeds behave depth w e) : w.run behave depth e = none := by
  induction h with
  | request => rfl
  | emit hls _ ih => exact (serve_emit hls).trans ih
  | read _ ih | write _ ih => exact ih
  | ask _ ih => exact run_ask_of_none ih
  | answered hanswer _ ih =>
    obtain hserve | hserve := hanswer.run_eq_or _
    · exact (run_ask_of_some hserve).trans ih
    · exact run_ask_of_none hserve
  | call _ ih => exact callAll_of_none ih
  | later hcall hstay _ ih =>
    obtain hrun | hrun := hcall.run_eq_or _
    · exact (callAll_of_stays hrun hstay).trans ih
    · exact callAll_of_none hrun

/-- **A bound is too small exactly if it is exceeded.** -/
theorem run_eq_none_iff : w.run behave depth e = none ↔ Exceeds behave depth w e := by
  refine ⟨fun h => ?_, Exceeds.run_eq_none⟩
  have hrun (p : Program σ κ α) (e : Emitter σ κ α) :
      p.run behave depth e = none → Exceeds behave depth (.program p) e :=
    exceeds_of_run fun _ _ => exceeds_of_serve
  cases w with
  | program p => exact hrun p e h
  | request request => exact exceeds_of_serve h
  | calls place args ls => exact exceeds_of_callAll hrun h

/-- What exceeds a bound exceeds every smaller one. -/
theorem Exceeds.of_le {bound : ℕ} (h : Exceeds behave bound w e) (hle : depth ≤ bound) :
    Exceeds behave depth w e := by
  induction h generalizing depth with
  | request =>
    obtain rfl := Nat.le_zero.mp hle
    exact .request
  | emit hls _ ih =>
    cases depth with
    | zero => exact .request
    | succ depth => exact .emit hls (ih (Nat.le_of_succ_le_succ hle))
  | read _ ih => exact .read (ih hle)
  | write _ ih => exact .write (ih hle)
  | ask _ ih => exact .ask (ih hle)
  | answered hanswer _ ih => exact .answered hanswer (ih hle)
  | call _ ih => exact .call (ih hle)
  | later hcall hstay _ ih => exact .later hcall hstay (ih hle)

/-- **A run that does not exceed a bound comes to an end**, and at this bound and at every greater one that
is its outcome. -/
theorem exists_ends_of_not_exceeds (h : ¬ Exceeds behave depth w e) : ∃ result e',
    Ends behave w e result e' ∧ ∀ bound, depth ≤ bound → w.run behave bound e = some (result, e') := by
  cases hrun : w.run behave depth e with
  | none => exact absurd (run_eq_none_iff.mp hrun) h
  | some outcome =>
    obtain ⟨result, e'⟩ := outcome
    have hends := ends_of_run_eq_some hrun
    refine ⟨result, e', hends, fun bound hle => (hends.run_eq_or bound).resolve_right fun hnone => ?_⟩
    exact h ((run_eq_none_iff.mp hnone).of_le hle)

end Monody.Listeners
