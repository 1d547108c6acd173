import Monody.Proofs.Playback.Admissible
import Monody.Proofs.Playback.Steps

/-!
# Playing that is refused

Where the speed is not positive or no voice plays, playing is refused before anything has happened.
What else a session needs is calculated only when the active session has been stopped and the new one
has taken its place: the speed as a real, and how hard the notes of each voice are struck. Where one of
these has no result, playing is refused halfway, and the new session stays behind.

## Main definitions

* `Retains` — no voice has another melody, and no session is gone
* `vacated` — the state in which a new session takes the place of the active one
* `IsCalculable` — what a session is started with has results

## Main results

* `stepwise_retains` — whatever happens while no time passes, melodies and sessions are retained
* `play_isOk_iff` — playing is refused halfway exactly if something has no result
* `perform_play_keeps_iff` — exactly then a refused command changes anything
-/

namespace Monody.Playback

open Binary64

variable {s s' : Playback} {speed : Number} {performers : List Nat} {id : Nat}

/-! ## Voices and sessions -/

/-- The voice of a performer. -/
def voice? (s : Playback) (performer : Nat) : Option Voice := (s.performers[performer]?).map (·.voice)

/-- The melody of a performer. -/
def melody? (s : Playback) (performer : Nat) : Option Melody := (s.voice? performer).map (·.melody)

/-- What may come of a state while no time passes: no voice has another melody, and no session is gone.
The settings of a voice may be others, as a listener may assign them. -/
structure Retains (s s' : Playback) : Prop where
  melodies : ∀ i, s'.melody? i = s.melody? i
  sessions : s.sessions.length ≤ s'.sessions.length

namespace Retains

theorem of_eq (hperformers : s'.performers = s.performers) (hsessions : s'.sessions = s.sessions) :
    Retains s s' :=
  ⟨fun i => by rw [melody?, melody?, voice?, voice?, hperformers], Nat.le_of_eq (by rw [hsessions])⟩

theorem update (s : Playback) (id : Nat) (f : Session → Session) : Retains s (s.update id f) :=
  ⟨fun _ => rfl, Nat.le_of_eq (List.length_modify ..).symm⟩

/-- A change of one performer that leaves him his melody. -/
theorem modify (s : Playback) (i : Nat) {f : Performer → Performer}
    (hf : ∀ p, (f p).voice.melody = p.voice.melody) :
    Retains s { s with performers := s.performers.modify i f } := by
  refine ⟨fun j => ?_, Nat.le_refl _⟩
  simp only [melody?, voice?, List.getElem?_modify, Option.map_eq_map, Option.map_map]
  refine congrArg (Option.map · _) (funext fun p => ?_)
  simp only [Function.comp_apply]
  split
  · exact hf p
  · rfl

end Retains

/-- Whatever happens while no time passes, melodies and sessions are retained. -/
theorem stepwise_retains : Stepwise Retains where
  refl _ := .of_eq rfl rfl
  trans h h' := ⟨fun i => (h'.melodies i).trans (h.melodies i), Nat.le_trans h.sessions h'.sessions⟩
  record _ _ := .of_eq rfl rfl
  update s id f _ := .update s id f
  through _ _ := .of_eq rfl rfl
  setCursor s i _ := .modify s i fun _ => rfl
  setListener _ _ _ := .of_eq rfl rfl
  addListener _ _ := .of_eq rfl rfl
  assign s i _ := .modify s i fun _ => rfl
  after _ _ _ _ _ := .of_eq rfl rfl
  conclude s id _ := ⟨fun _ => rfl, (Retains.update s id _).sessions⟩
  begin _ _ := ⟨fun _ => rfl, by simp only [begin, List.length_append]; omega⟩

/-! ## Plans -/

/-- A voice has a plan exactly if the speed is held by a real and its notes have a velocity. -/
theorem planOf_isOk_iff (hspeed : ¬ speed ≤ 0) (index performer : Nat) (v : Voice) :
    (planOf speed index performer v).isOk ↔ speed.toReal.isOk ∧ v.velocity.isOk := by
  constructor
  · intro h
    obtain ⟨plan, hplan⟩ := exists_ok_of_isOk h
    obtain ⟨velocity, hvelocity, hplan⟩ := exists_of_bind_eq_ok hplan
    obtain ⟨ends, hends, -⟩ := exists_of_bind_eq_ok hplan
    obtain ⟨r, hr, -⟩ := exists_of_bind_eq_ok (mapError_eq_ok_iff.mp hends)
    rw [hr, mapError_eq_ok_iff.mp hvelocity]
    exact ⟨rfl, rfl⟩
  · rintro ⟨hreal, hvelocity⟩
    obtain ⟨r, hr⟩ := exists_ok_of_isOk hreal
    obtain ⟨velocity, hvelocity⟩ := exists_ok_of_isOk hvelocity
    have hzero := isZero_eq_false_of_not_le hspeed hr
    rw [planOf_of_isZero_eq_false hr hzero hvelocity]
    rfl

/-- The state in which a new session takes the place of the active one: that has been stopped, and
whatever listeners have started then. -/
def vacated (s : Playback) : Playback :=
  clear emit ((s.stop emit).reactionsLeft + 1) (s.stop emit)

/-- What a session of some performers is started with has results: for each of them that plays, the
speed as a real and the velocity of his notes. Which of them play is settled before the active session
is stopped, and how hard their notes are struck only then, when a listener may have assigned a volume. -/
def IsCalculable (s : Playback) (performers : List Nat) (speed : Number) : Prop :=
  ∀ c ∈ s.castOf performers, ∀ v ∈ s.vacated.voice? c.2, speed.toReal.isOk ∧ v.velocity.isOk

/-- The performers of a cast can enter exactly if each of their voices has a plan. -/
theorem enterAll_isOk_iff (id : Nat) (speed : Number) (cast : List (Nat × Nat)) :
    (enterAll id speed cast s).1.isOk ↔
      ∀ c ∈ cast, ∀ v ∈ s.voice? c.2, (planOf speed c.1 c.2 v).isOk := by
  induction cast generalizing s with
  | nil => exact iff_of_true rfl fun c hc => absurd hc List.not_mem_nil
  | cons place rest ih =>
    obtain ⟨index, performer⟩ := place
    rw [List.forall_mem_cons, enterAll]
    cases hp : s.performers[performer]? with
    | none =>
      have hnone : s.voice? performer = none := by rw [voice?, hp]; rfl
      simp only [hnone, Option.mem_def, reduceCtorEq, false_imp_iff, implies_true, true_and]
      exact ih
    | some p =>
      have hvoice : s.voice? performer = some p.voice := by rw [voice?, hp]; rfl
      simp only [hvoice, Option.mem_def, Option.some.injEq, forall_eq']
      cases hplan : planOf speed index performer p.voice with
      | error fault => exact iff_of_false Bool.false_ne_true fun h => Bool.false_ne_true h.1
      | ok plan =>
        -- who enters leaves the voices of the others as they are
        have hsame (i : Nat) : (s.enter id plan).voice? i = s.voice? i := by
          rw [voice?, voice?, enter_performers]
        refine (ih (s := s.enter id plan)).trans ?_
        simp only [hsame]
        exact (and_iff_right rfl).symm

/-! ## Playing -/

/-- With a positive speed and voices that play, playing succeeds exactly if what it needs has results,
and otherwise a session stays behind that was not there before. -/
theorem play_isOk_iff (hspeed : ¬ speed ≤ 0) (hcast : s.castOf performers ≠ []) :
    ((play emit performers speed s).1.isOk ↔ s.IsCalculable performers speed) ∧
      s.sessions.length < (play emit performers speed s).2.sessions.length := by
  have hvacated : Retains s s.vacated := stepwise_retains.idle stepwise_retains.emit s
  have hcalculable : s.IsCalculable performers speed ↔ ∀ c ∈ s.castOf performers,
      ∀ v ∈ (s.vacated.begin speed).voice? c.2, (planOf speed c.1 c.2 v).isOk := by
    simp only [planOf_isOk_iff hspeed]
    rfl
  rw [play, if_neg hspeed, if_neg (by simpa using hcast), hcalculable]
  dsimp only
  rw [← vacated]
  -- from here on it makes no difference how the active session has been stopped
  generalize s.vacated = t at hvacated ⊢
  have hbegun : t.sessions.length < (t.begin speed).sessions.length := by
    simp only [begin, List.length_append, List.length_singleton]
    omega
  have hentered := stepwise_retains.enterAll (speed?_begin t speed) hspeed (s.castOf performers)
  have hok := enterAll_isOk_iff (s := t.begin speed) t.sessions.length speed (s.castOf performers)
  split
  · next heq =>
    rw [heq] at hok hentered
    exact ⟨hok, Nat.lt_of_le_of_lt hvacated.sessions (Nat.lt_of_lt_of_le hbegun hentered.sessions)⟩
  · next u heq =>
    rw [heq] at hok hentered
    have hlaunched := stepwise_retains.launch (s := u) t.sessions.length
    exact ⟨hok, Nat.lt_of_le_of_lt hvacated.sessions (Nat.lt_of_lt_of_le hbegun
      (Nat.le_trans hentered.sessions hlaunched.sessions))⟩

/-- **Playing that is refused** leaves everything as it is exactly if the speed is not positive, no
voice plays, or the session could be started after all. -/
theorem perform_play_keeps_iff (performers : List Nat) (speed : Option Number) (s : Playback) :
    (∀ refusal, (perform (.play performers speed) s).1 = .error refusal →
      (perform (.play performers speed) s).2 = s) ↔
      speed.getD s.defaultSpeed ≤ 0 ∨ s.castOf performers = [] ∨
        s.IsCalculable performers (speed.getD s.defaultSpeed) := by
  generalize hgiven : speed.getD s.defaultSpeed = given
  have hperform : perform (.play performers speed) s =
      answer .session (play emit performers given s) := by rw [perform, hgiven]
  rw [hperform]
  by_cases hspeed : given ≤ 0
  · refine iff_of_true (fun _ _ => ?_) (.inl hspeed)
    rw [play, if_pos hspeed]
    rfl
  by_cases hcast : s.castOf performers = []
  · refine iff_of_true (fun _ _ => ?_) (.inr (.inl hcast))
    rw [play, if_neg hspeed, if_pos (by simpa using hcast)]
    rfl
  obtain ⟨hok, hmore⟩ := play_isOk_iff hspeed hcast
  rw [or_iff_right hspeed, or_iff_right hcast, ← hok]
  generalize play Playback.emit performers given s = p at hmore ⊢
  obtain ⟨outcome, t⟩ := p
  cases outcome with
  | ok id =>
    refine iff_of_true (fun refusal h => ?_) rfl
    cases h
  | error fault =>
    -- a session stays behind
    refine iff_of_false (fun h => ?_) Bool.false_ne_true
    obtain rfl : t = s := h (.playback fault) rfl
    exact Nat.lt_irrefl _ hmore

/-- A voice of one note. -/
def singleNote : Voice :=
  .ofMelody ⟨['C'],
    [⟨.note .c false 4, 0, Melody.defaultDuration, Melody.defaultDuration, none, ['C'], (0, 1)⟩]⟩

/-- A speed that no real holds. -/
def boundlessSpeed : Number := .whole (10 ^ 400)

/-- The command to play a single note, and its answer with the state after it. -/
def noteStarted : Except Refusal Reply × Playback :=
  perform (.play [0] none) (start (.ofConnection (some ⟨false⟩) none) [singleNote] [] 1 true)

/-- While a voice is played, playing it at a speed that no real holds is refused; the session before it
has been cancelled by then, and one that is never scheduled is active. -/
theorem perform_play_boundlessSpeed :
    let p := perform (.play [0] (some boundlessSpeed)) noteStarted.2
    p.1 = .error (.playback (.number .tooLarge)) ∧
      noteStarted.2.sessions.map (·.phase) = [.scheduled] ∧
      p.2.sessions.map (·.phase) = [.ended .cancelled, .idle] ∧ p.2.current = some 1 := by
  decide +kernel

/-- Playing that is refused does not leave everything as it is in all states that can be reached. -/
theorem not_perform_play_keeps :
    ¬ ∀ output voices listeners defaultSpeed cancels cs performers speed,
      ∀ p ∈ history cs (start output voices listeners defaultSpeed cancels),
        ∀ refusal, (perform (.play performers speed) p.2).1 = .error refusal →
          (perform (.play performers speed) p.2).2 = p.2 := by
  intro h
  obtain ⟨hrefused, hbefore, hafter, -⟩ := perform_play_boundlessSpeed
  have hmem : noteStarted ∈ history [.play [0] none]
      (start (.ofConnection (some ⟨false⟩) none) [singleNote] [] 1 true) := List.mem_cons_self
  have hsame := h _ _ _ _ _ _ [0] (some boundlessSpeed) _ hmem _ hrefused
  rw [hsame, hbefore] at hafter
  cases hafter

end Monody.Playback
