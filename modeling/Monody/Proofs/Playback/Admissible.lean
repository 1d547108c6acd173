import Monody.Playback.Run
import Monody.Proofs.Number
import Monody.Proofs.Voice

/-!
# What playback can calculate with

Starting a session takes the velocities of its voices and divides times by its speed. Both succeed
where the volumes lie between 0 and 1 and the speed is finite and positive, and then every voice that
plays has a plan.

## Main definitions

* `Number.IsSpeed` — a number whose real value is finite and positive
* `Playback.planBy` — the plan of a voice at a real speed
* `Playback.Admissible` — playback whose voices, listeners and default speed are such
* `Command.IsAdmissible` — commands that keep it so

## Main results

* `secondsAt_eq` — times have results
* `planOf_eq` — so a voice has a plan
-/

namespace Monody

/-- The real value is finite and positive. -/
def Number.IsSpeed (x : Number) : Prop := ∃ r, x.toReal = .ok r ∧ r.isFinite = true ∧ 0 < r

namespace Binary64

theorem isZero_eq_false_of_pos {x : Binary64} (h : 0 < x) : x.isZero = false := by
  cases x with
  | nan => rfl
  | infinite => rfl
  | finite s n hn =>
    by_contra hzero
    have hn0 : n = 0 := by simpa [isZero] using hzero
    subst hn0
    have horder : order 0 (.finite s 0 hn) = some .eq := by
      rw [zero_eq]
      cases s <;> rfl
    have hlt : order 0 (.finite s 0 hn) = some .lt := h
    rw [horder] at hlt
    exact absurd hlt (by decide)

end Binary64

namespace Playback

/-! ## Plans -/

/-- A speed that is not refused is positive as a real, unless it is no number. -/
theorem isFinite_or_of_not_le {speed : Number} {r : Binary64} (hspeed : ¬ speed ≤ 0)
    (hr : speed.toReal = .ok r) : r.isFinite ∧ 0 < r ∨ r = .nan ∨ r = .infinite false := by
  rcases Number.pos_of_not_le_zero hspeed with hpos | rfl
  · have hreal := Number.pos_of_toReal hpos hr
    rw [Binary64.zero_eq] at hreal
    cases r with
    | nan => cases hreal
    | infinite s =>
      cases s with
      | false => exact .inr (.inr rfl)
      | true => cases hreal
    | finite s n hn => exact .inl ⟨rfl, Binary64.zero_eq ▸ hreal⟩
  · exact .inr (.inl (Except.ok.inj hr).symm)

theorem isZero_eq_false_of_not_le {speed : Number} {r : Binary64} (hspeed : ¬ speed ≤ 0)
    (hr : speed.toReal = .ok r) : r.isZero = false := by
  rcases isFinite_or_of_not_le hspeed hr with ⟨-, hpos⟩ | rfl | rfl
  · exact Binary64.isZero_eq_false_of_pos hpos
  · rfl
  · rfl

/-- Milliseconds at a real speed, in seconds. -/
def secondsBy (r ms : Binary64) : Binary64 := ms / r / .ofInt 1000

theorem secondsAt_of_isZero_eq_false {speed : Number} {r : Binary64} (hr : speed.toReal = .ok r)
    (hzero : r.isZero = false) (ms : Binary64) : secondsAt speed ms = .ok (secondsBy r ms) := by
  rw [secondsAt, hr]
  simp only [Except.bind, bind, Number.divide, hzero]
  rfl

theorem secondsAt_eq {speed : Number} {r : Binary64} (hr : speed.toReal = .ok r) (hpos : 0 < r)
    (ms : Binary64) : secondsAt speed ms = .ok (secondsBy r ms) :=
  secondsAt_of_isZero_eq_false hr (Binary64.isZero_eq_false_of_pos hpos) ms

/-- A voice has a plan only at a speed that is held by a real. -/
theorem exists_toReal_of_planOf {speed : Number} {index performer : Nat} {v : Voice} {plan : Plan}
    (h : planOf speed index performer v = .ok plan) : ∃ r, speed.toReal = .ok r := by
  obtain ⟨velocity, -, h⟩ := exists_of_bind_eq_ok h
  obtain ⟨ends, hends, -⟩ := exists_of_bind_eq_ok h
  obtain ⟨r, hr, -⟩ := exists_of_bind_eq_ok (mapError_eq_ok_iff.mp hends)
  exact ⟨r, hr⟩

/-- The plan of a voice at a real speed, for notes of a certain velocity. -/
def planBy (r : Binary64) (index performer : Nat) (v : Voice) (velocity : Midi.Data) : Plan where
  part := ⟨index, performer, .ofVoice index, velocity, v.instrument.gate, secondsBy r v.melody.total⟩
  program := v.instrument.program
  strikes := (v.melody.events.zipIdx.filter (·.1.isPlayable)).map fun p => (secondsBy r p.1.start, p.2)

/-- A voice whose notes have a velocity has a plan at a real speed other than zero. -/
theorem planOf_of_isZero_eq_false {speed : Number} {r : Binary64} (hr : speed.toReal = .ok r)
    (hzero : r.isZero = false) {v : Voice} {velocity : Midi.Data}
    (hvelocity : v.velocity = .ok velocity) (index performer : Nat) :
    planOf speed index performer v = .ok (planBy r index performer v velocity) := by
  have hbind {α β : Type} (a : α) (f : α → Except Fault β) : (Except.ok a >>= f) = f a := rfl
  have hmap {α : Type} (a : α) : (Except.ok a).mapError Fault.number = .ok a := rfl
  have hpure {α : Type} (a : α) : (pure a : Except Fault α) = .ok a := rfl
  simp only [planOf, hvelocity, secondsAt_of_isZero_eq_false hr hzero, hmap, hbind, List.mapM_pure]
  rw [hpure, hbind]
  rfl

/-- A voice whose notes have a velocity has a plan at a finite positive speed. -/
theorem planOf_eq {speed : Number} {r : Binary64} (hr : speed.toReal = .ok r) (hpos : 0 < r)
    {v : Voice} {velocity : Midi.Data} (hvelocity : v.velocity = .ok velocity)
    (index performer : Nat) :
    planOf speed index performer v = .ok (planBy r index performer v velocity) :=
  planOf_of_isZero_eq_false hr (Binary64.isZero_eq_false_of_pos hpos) hvelocity index performer

/-- A voice that can be heard has a plan at a finite positive speed. Its part is on the channel of the
place that is asked for. -/
theorem planOf_ok {speed : Number} (hspeed : speed.IsSpeed) {v : Voice} (hv : v.IsAudible)
    (index performer : Nat) :
    ∃ plan, planOf speed index performer v = .ok plan ∧
      plan.part.channel = .ofVoice plan.part.index := by
  obtain ⟨r, hr, -, hpos⟩ := hspeed
  obtain ⟨velocity, hvelocity⟩ := v.velocity_ok hv
  exact ⟨_, planOf_eq hr hpos hvelocity index performer, rfl⟩

/-! ## Admissible playback -/

/-- What is played on account of a reaction is played at a finite positive speed, and a volume that it
assigns lies between 0 and 1. -/
def Reaction.IsAdmissible : Reaction → Prop
  | .play _ speed => ∀ x ∈ speed, x.IsSpeed
  | .listen _ _ _ reaction => reaction.IsAdmissible
  | .assign _ values => ∀ x ∈ values.volume, 0 ≤ x ∧ x ≤ 1
  | _ => True

/-- What a command plays is played at a finite positive speed, and a volume that it assigns lies
between 0 and 1. -/
def Command.IsAdmissible : Command → Prop
  | .play _ speed => ∀ x ∈ speed, x.IsSpeed
  | .assign _ values => ∀ x ∈ values.volume, 0 ≤ x ∧ x ≤ 1
  | .listen l => l.reaction.IsAdmissible
  | _ => True

end Playback

/-- All volumes lie between 0 and 1, and all speeds are finite and positive. -/
structure Playback.Admissible (s : Playback) : Prop where
  audible : ∀ p ∈ s.performers, p.voice.IsAudible
  reactions : ∀ l ∈ s.listeners, l.reaction.IsAdmissible
  defaultSpeed : s.defaultSpeed.IsSpeed

namespace Playback.Admissible

variable {s : Playback}

theorem congr {s' : Playback} (hs : s.Admissible) (hperformers : s'.performers = s.performers)
    (hlisteners : s'.listeners = s.listeners) (hspeed : s'.defaultSpeed = s.defaultSpeed) :
    s'.Admissible :=
  ⟨hperformers ▸ hs.audible, hlisteners ▸ hs.reactions, hspeed ▸ hs.defaultSpeed⟩

/-- A performer keeps his voice wherever he is in his melody. -/
theorem setCursor (hs : s.Admissible) (i : Nat) (event : Option Nat) :
    (s.setCursor i event).Admissible where
  audible p hp := by
    obtain ⟨j, hj⟩ := List.mem_iff_getElem?.mp hp
    rw [Playback.setCursor, List.getElem?_modify] at hj
    obtain ⟨q, hq, rfl⟩ := Option.map_eq_some_iff.mp hj
    have haudible := hs.audible q (List.mem_of_getElem? hq)
    split <;> exact haudible
  reactions := hs.reactions
  defaultSpeed := hs.defaultSpeed

theorem setListener (hs : s.Admissible) (i : Nat) {l : Listener} (hl : l.reaction.IsAdmissible) :
    (s.setListener i l).Admissible where
  audible := hs.audible
  reactions l' hl' := by
    rcases List.mem_or_eq_of_mem_set hl' with hl' | rfl
    · exact hs.reactions l' hl'
    · exact hl
  defaultSpeed := hs.defaultSpeed

/-- A voice is given new settings. -/
theorem assign (hs : s.Admissible) (performer : Nat) {values : Assignment}
    (hvalues : ∀ x ∈ values.volume, 0 ≤ x ∧ x ≤ 1) : (s.assign performer values).Admissible where
  audible p hp := by
    obtain ⟨j, hj⟩ := List.mem_iff_getElem?.mp hp
    rw [Playback.assign, List.getElem?_modify] at hj
    obtain ⟨q, hq, rfl⟩ := Option.map_eq_some_iff.mp hj
    have haudible := hs.audible q (List.mem_of_getElem? hq)
    split
    · cases hvolume : values.volume with
      | none => simpa [Voice.IsAudible, Assignment.apply, hvolume] using haudible
      | some x => simpa [Voice.IsAudible, Assignment.apply, hvolume] using hvalues x hvolume
    · exact haudible
  reactions := hs.reactions
  defaultSpeed := hs.defaultSpeed

theorem addListener (hs : s.Admissible) {l : Listener} (hl : l.reaction.IsAdmissible) :
    (s.addListener l).Admissible where
  audible := hs.audible
  reactions l' hl' := by
    rcases List.mem_append.mp hl' with hl' | hl'
    · exact hs.reactions l' hl'
    · rw [List.mem_singleton.mp hl']
      exact hl
  defaultSpeed := hs.defaultSpeed

/-- A speed that is given, or else the default speed, is finite and positive. -/
theorem isSpeed_getD (hs : s.Admissible) {speed : Option Number} (h : ∀ x ∈ speed, x.IsSpeed) :
    (speed.getD s.defaultSpeed).IsSpeed := by
  cases speed with
  | none => exact hs.defaultSpeed
  | some x => exact h x rfl

end Playback.Admissible

end Monody
