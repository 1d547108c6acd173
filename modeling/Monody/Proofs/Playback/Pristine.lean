import Monody.Proofs.Playback.Mirror

/-!
# A new session does not remember the past

When a session is started, whatever was played before is stopped first, and then nothing remains of it
that matters. The new session sends and tells the same as it would where nothing has happened before, on an
output where nothing sounds and on a clock that is set to the same time. Only its number differs.

A clock that is set back before all moments is left out. There a voice that never ends sets timers at no time
at all, and these stand in the way of all that are set after them.

## Main definitions

* `pristine` — playback with the same voices at the same time, where nothing has happened
* `Agrees` — two answers are the same, and the same has been sent and told since, sounds and is played

## Main results

* `Tallies.history` — time passes alike where playback looks alike
* `mirrors_pristine` — when it has been stopped, playback looks as if nothing had happened
* `agrees_pristine` — a new session does not remember the past
-/

namespace Monody.Playback

open Binary64 (IsMoment)

variable {k id : Nat} {before : List Entry} {a b s t : Playback}

/-! ## Letting time pass -/

/-- A session is counted from another number. -/
def Reply.shift (k : Nat) : Reply → Reply
  | .session id => .session (k + id)
  | r => r

/-- Two answers are the same, but for the number of a session, and so is what has been sent and told since
some time, what sounds, and which events performers are at. -/
structure Agrees (k : Nat) (before : List Entry) (x y : Except Refusal Reply × Playback) : Prop where
  answer : x.1 = y.1.map (·.shift k)
  now : x.2.clock.now = y.2.clock.now
  log : observed x.2.log = before ++ observed y.2.log
  active : x.2.output.active = y.2.output.active
  cursors : ∀ i, x.2.cursor? i = y.2.cursor? i

/-- Where two histories agree, so does in the end what has been sent and told. -/
theorem Agrees.log_performAll {c : Command} {cs : List Command}
    (h : List.Forall₂ (Agrees k before) (history (c :: cs) a) (history (c :: cs) b)) :
    observed (performAll (c :: cs) a).log = before ++ observed (performAll (c :: cs) b).log := by
  induction cs generalizing c a b with
  | nil => exact (List.forall₂_cons.mp h).1.log
  | cons c' cs ih => exact ih (List.forall₂_cons.mp h).2

namespace Tallies

/-- Time passes alike where playback looks alike. -/
theorem advance (h : Tallies k before a b) (seconds : Binary64) :
    Passes k before (advance seconds a) (advance seconds b) := by
  obtain ⟨hnow, ⟨hnan, hmirrors⟩ | ⟨now, hmoment, hmirrors⟩⟩ := h
  · -- from no time on, the clock is at no time, and nothing comes up
    have htarget : a.clock.now + seconds = .nan := by
      rw [hnan]
      rfl
    have hnone (s : Playback) : ∀ t ∈ s.clock.queue, ¬ t.due ≤ .nan + Clock.slack :=
      fun t _ hdue => (Binary64.ne_nan_of_le hdue).2 rfl
    rw [Playback.advance, Playback.advance, ← hnow, htarget, advanceTo_of_none_due _ (hnone a),
      advanceTo_of_none_due _ (hnone b)]
    exact ⟨rfl, rfl, .inl ⟨rfl, { hmirrors with clock := ⟨rfl, hmirrors.clock.cancels, .inl rfl⟩ }⟩⟩
  · have hpassed := hmirrors.advanceTo (a.clock.now + seconds) hmoment (load_le_workload a) (load_le_workload b)
    rw [advanceTo_moved_now, advanceTo_moved_now] at hpassed
    rw [Playback.advance, Playback.advance, ← hnow]
    exact hpassed

theorem agrees {x y : Except Refusal Reply × Playback} (h : Tallies k before x.2 y.2)
    (hanswer : x.1 = y.1.map (·.shift k)) : Agrees k before x y := by
  obtain ⟨hnow, ⟨-, hmirrors⟩ | ⟨now, -, hmirrors⟩⟩ := h
  · exact ⟨hanswer, hnow, hmirrors.log, congrArg _ hmirrors.output, hmirrors.cursor?_eq⟩
  · exact ⟨hanswer, hnow, hmirrors.log, congrArg _ hmirrors.output, hmirrors.cursor?_eq⟩

theorem perform (h : Tallies k before a b) (seconds : Number) :
    Agrees k before (perform (.advance seconds) a) (perform (.advance seconds) b) ∧
      Tallies k before (perform (.advance seconds) a).2 (perform (.advance seconds) b).2 := by
  suffices hall : (Playback.perform (.advance seconds) a).1 =
      (Playback.perform (.advance seconds) b).1.map (·.shift k) ∧
        Tallies k before (Playback.perform (.advance seconds) a).2 (Playback.perform (.advance seconds) b).2 from
    ⟨hall.2.agrees hall.1, hall.2⟩
  rw [Playback.perform, Playback.perform]
  split
  · next x _ =>
    obtain ⟨hanswer, htallies⟩ := h.advance x
    refine ⟨?_, htallies⟩
    rw [answer, answer, hanswer]
    cases (Playback.advance x b).1 <;> rfl
  · exact ⟨rfl, h⟩

theorem history (h : Tallies k before a b) (waits : List Number) :
    List.Forall₂ (Agrees k before) (history (waits.map .advance) a) (history (waits.map .advance) b) := by
  induction waits generalizing a b with
  | nil => exact .nil
  | cons seconds waits ih =>
    obtain ⟨hagrees, htallies⟩ := h.perform seconds
    exact .cons hagrees (ih htallies)

end Tallies

/-! ## Starting where nothing has happened -/

/-- Playback with the same voices on the same connection at the same time, where nothing has happened and
nothing sounds. -/
def pristine (s : Playback) (listeners : List Listener) : Playback :=
  (start (.ofConnection s.output.connection s.output.device) (s.performers.map (·.voice)) listeners
    s.defaultSpeed s.clock.cancels).moved s.clock.now []

theorem pristine_clock (s : Playback) (listeners : List Listener) :
    (s.pristine listeners).clock = ⟨s.clock.now, [], s.clock.cancels⟩ := by
  simp only [pristine, start, Clock.start, moved]

/-- Timers are due when they were, and whose they were. -/
theorem Hushes.forall_timers (h : Hushes s t) {P : Binary64 × Nat → Prop}
    (hs : ∀ u ∈ s.clock.queue, P (u.due, u.owner)) : ∀ u ∈ t.clock.queue, P (u.due, u.owner) := by
  have hall : ∀ x ∈ s.clock.queue.map fun u => (u.due, u.owner), P x := List.forall_mem_map.mpr hs
  rw [← h.queue] at hall
  exact List.forall_mem_map.mp hall

theorem Hushes.isOrdered (h : Hushes s t) (hs : Clock.IsOrdered s.clock.queue) :
    Clock.IsOrdered t.clock.queue := by
  have hall : (s.clock.queue.map fun u => (u.due, u.owner)).Pairwise fun x y => ¬ y.1 < x.1 :=
    List.pairwise_map.mpr hs
  rw [← h.queue] at hall
  exact List.pairwise_map.mp hall

/-- Where nobody is at an event, performers are given by their voices. -/
theorem performers_eq (h : ∀ i, s.cursor? i = none) :
    s.performers = (s.performers.map (·.voice)).map (⟨·, none⟩) := by
  rw [List.map_map]
  refine (List.map_id _).symm.trans (List.map_congr_left fun p hp => ?_)
  obtain ⟨i, hi⟩ := List.mem_iff_getElem?.mp hp
  have hnone := h i
  rw [cursor?, hi] at hnone
  obtain ⟨voice, cursor⟩ := p
  obtain rfl : cursor = none := hnone
  rfl

/-- When it has been stopped, playback looks as if nothing had happened. -/
theorem mirrors_pristine {listeners : List Listener} (hlisteners : ∀ l ∈ listeners, l.reaction = .log)
    (h : IsLeft id [] s t) (howners : ∀ u ∈ s.clock.queue, u.owner < s.sessions.length)
    (hordered : Clock.IsOrdered s.clock.queue)
    (hmoment : s.clock.now = .nan ∨ IsMoment s.clock.now ∧ s.clock.IsNumbered) :
    Mirrors s.sessions.length (observed t.log) t (s.pristine listeners) := by
  obtain ⟨hsilent, hnone⟩ := Remains.nil_iff.mp h.remains
  have hclock : t.clock.Mirrors s.sessions.length ⟨s.clock.now, [], s.clock.cancels⟩ := by
    refine ⟨h.hushes.now, h.hushes.cancels, ?_⟩
    rw [h.hushes.now]
    refine hmoment.imp_right fun hmoments => ⟨hmoments.1, h.hushes.isOrdered hordered,
      h.hushes.forall_timers (P := fun x => IsMoment x.1) hmoments.2, List.filter_eq_nil_iff.mpr fun u hu => ?_⟩
    have howner := h.hushes.forall_timers (P := fun x => x.2 < s.sessions.length) howners u hu
    simpa using howner
  have houtput : t.output = { s.output with active := [] } := by
    rw [← h.hushes.output, ← hsilent]
  have hperformers : t.performers = (s.performers.map (·.voice)).map (⟨·, none⟩) := by
    rw [performers_eq hnone, h.hushes.voices]
  rw [← pristine_clock s listeners] at hclock
  refine ⟨hclock, h.hushes.length, fun id => ?_, h.current, houtput, hperformers, ?_, h.logging, hlisteners⟩
  · have hpast : t.sessions.length ≤ s.sessions.length + id := h.hushes.length ▸ Nat.le_add_right _ id
    rw [List.getElem?_eq_none hpast]
    rfl
  · exact (List.append_nil _).symm

/-- The same performers play. -/
theorem castOf_pristine (s : Playback) (listeners : List Listener) (performers : List Nat) :
    (s.pristine listeners).castOf performers = s.castOf performers := by
  have hvoices : (s.pristine listeners).voicesOf performers = s.voicesOf performers := by
    refine List.filterMap_congr fun i _ => ?_
    simp only [pristine, start, moved, List.getElem?_map, Option.map_map, Function.comp_def]
  rw [castOf, castOf, hvoices]

/-- Where the answer to a command is a session, it is the one that playing has started. -/
theorem play_of_perform {performers : List Nat} {speed : Option Number}
    (h : (perform (.play performers speed) s).1 = .ok (.session id)) :
    (play emit performers (speed.getD s.defaultSpeed) s).1 = .ok id := by
  rw [perform, answer] at h
  cases hplayed : (play emit performers (speed.getD s.defaultSpeed) s).1 with
  | error fault =>
    rw [hplayed] at h
    cases h
  | ok j =>
    rw [hplayed] at h
    cases h
    rfl

/-- **A new session does not remember the past.** Whatever has been done to playback before, as long as
listeners only log: a session that is started, and all that comes of letting time pass then, is what it would
be where nothing has happened before and the clock is set to the same time, unless this is before all
moments. What was played before is stopped first, and that selects no program. From there on the same is
sent and told, and at every time the same notes sound and performers are at the same events. -/
theorem agrees_pristine {voices : List Voice}
    (hparsed : ∀ v ∈ voices, ∃ text, Melody.parse text = .ok v.melody)
    (connection : Option Connection) (device : Option (List Char)) {listeners listeners' : List Listener}
    (hlisteners : ∀ l ∈ listeners, l.reaction = .log) (hlisteners' : ∀ l ∈ listeners', l.reaction = .log)
    (defaultSpeed : Number) (cancels : Bool) {earlier : List Command}
    (hearlier : ∀ l, .listen l ∈ earlier → l.reaction = .log)
    (hs : s = performAll earlier (start (.ofConnection connection device) voices listeners defaultSpeed cancels))
    (hnow : s.clock.now ≠ .infinite true) {performers : List Nat} {speed : Option Number}
    (hplay : (perform (.play performers speed) s).1 = .ok (.session id)) :
    ∃ ending : List Entry, (∀ e ∈ ending, e.IsNoProgram) ∧ ∀ waits : List Number,
      List.Forall₂ (Agrees s.sessions.length (observed (s.log ++ ending)))
        (history (.play performers speed :: waits.map .advance) s)
        (history (.play performers speed :: waits.map .advance) (s.pristine listeners')) := by
  have hmelodies : AreParsed (voices.map (·.melody)) := List.forall_mem_map.mpr hparsed
  obtain ⟨hconcert, hkempt⟩ : IsConcert (voices.map (·.melody)) s ∧ IsKempt s :=
    hs ▸ isKempt_performAll hmelodies (.start _ voices listeners defaultSpeed cancels)
      (.start voices defaultSpeed cancels rfl hlisteners) fun c hc l hl => hearlier l (hl ▸ hc)
  have hordered : Clock.IsOrdered s.clock.queue := hs ▸ isOrdered_performAll earlier .nil
  -- timers are due at moments as long as the clock is at one
  have hmoment : s.clock.now = .nan ∨ IsMoment s.clock.now ∧ s.clock.IsNumbered := by
    refine (Binary64.eq_nan_or_isMoment hnow).imp_right fun hmoment => ⟨hmoment, ?_⟩
    subst hs
    exact isNumbered_performAll earlier (fun _ t ht => absurd ht List.not_mem_nil) hmoment
  have howners : ∀ u ∈ s.clock.queue, u.owner < s.sessions.length := by
    intro u hu
    have hknown := (hconcert.scored.timely u hu).isSome
    rw [speed?, Option.isSome_map, isSome_getElem?] at hknown
    exact hknown
  -- when what was active has been stopped, nothing of it is left that a new session could meet
  have hleft := hkempt.stop hconcert
  have hmirrors := mirrors_pristine hlisteners' hleft howners hordered hmoment
  obtain ⟨ending, hlog, hending⟩ := hleft.hushes.log
  rw [hlog] at hmirrors
  have hidle : (s.pristine listeners').current = none := by simp only [pristine, start, moved]
  have hdefault : (s.pristine listeners').defaultSpeed = s.defaultSpeed := by simp only [pristine, start, moved]
  have hcast := castOf_pristine s listeners' performers
  obtain ⟨hanswer, hstarted⟩ := hmirrors.play hidle hcast (play_of_perform hplay)
  refine ⟨ending, hending, fun waits => ?_⟩
  rw [history, history, perform, perform, hdefault]
  refine .cons (hstarted.tallies.agrees ?_) (hstarted.tallies.history waits)
  rw [answer, answer, hanswer]
  cases (play emit performers (speed.getD s.defaultSpeed) (s.pristine listeners')).1 <;> rfl

/-- A voice that is started anew while its first note sounds. -/
theorem agrees_pristine_restarted :
    ∃ m, Melody.parse "C E".toList = .ok m ∧
      let s := performAll [.play [0] none, .advance (.real Number.half)]
        (start (.ofConnection (some ⟨false⟩) none) [.ofMelody m] [] 1 true)
      s.output.active = [(0, 60)] ∧ s.clock.now ≠ .infinite true ∧
        (perform (.play [0] none) s).1 = .ok (.session 1) ∧
        ∃ ending : List Entry, (∀ e ∈ ending, e.IsNoProgram) ∧ ∀ waits : List Number,
          List.Forall₂ (Agrees s.sessions.length (observed (s.log ++ ending)))
            (history (.play [0] none :: waits.map .advance) s)
            (history (.play [0] none :: waits.map .advance) (s.pristine [])) := by
  refine ⟨⟨_, _⟩, rfl, ?_⟩
  intro s
  obtain ⟨hactive, hnow, hplay⟩ : s.output.active = [(0, 60)] ∧ s.clock.now ≠ .infinite true ∧
      (perform (.play [0] none) s).1 = .ok (.session 1) := by
    decide +kernel +zetaReduce
  have hparsed : ∀ v ∈ [Voice.ofMelody _], ∃ text, Melody.parse text = .ok v.melody :=
    List.forall_mem_singleton.mpr ⟨"C E".toList, rfl⟩
  have hnone : ∀ l ∈ ([] : List Listener), l.reaction = .log := by simp
  have hearlier : ∀ l, Command.listen l ∈ [.play [0] none, .advance (.real Number.half)] → l.reaction = .log := by
    simp
  have hs : s = performAll [.play [0] none, .advance (.real Number.half)]
      (start (.ofConnection (some ⟨false⟩) none) [.ofMelody _] [] 1 true) := rfl
  exact ⟨hactive, hnow, hplay, agrees_pristine hparsed _ _ hnone hnone 1 true hearlier hs hnow hplay⟩

/-- Before all moments the past matters. At the slowest of speeds a rest never ends, and its timers are set
at no time at all. They stand in the way of the timers of the next session, where otherwise its note would be
struck. -/
theorem not_agrees_pristine :
    ∃ m m', Melody.parse "P".toList = .ok m ∧ Melody.parse "C".toList = .ok m' ∧
      let slowest : Number := .real (.ofDecimal false ⟨5, -324⟩)
      let s := performAll [.advance (.real (.infinite true)), .play [0] slowest]
        (start (.ofConnection (some ⟨false⟩) none) [.ofMelody m, .ofMelody m'] [] 1 true)
      let cs : List Command := [.play [1] none, .advance (.real 0)]
      s.clock.now = .infinite true ∧ (perform (.play [1] none) s).1 = .ok (.session 1) ∧
        ∀ before, ¬ List.Forall₂ (Agrees s.sessions.length before) (history cs s) (history cs (s.pristine [])) := by
  refine ⟨⟨_, _⟩, ⟨_, _⟩, rfl, rfl, ?_⟩
  intro slowest s cs
  let struck : Entry := .signal (.message (.noteOn 0 60 100))
  obtain ⟨hnow, hplay, hnot, hstruck⟩ : s.clock.now = .infinite true ∧
      (perform (.play [1] none) s).1 = .ok (.session 1) ∧ struck ∉ observed (performAll cs s).log ∧
        struck ∈ observed (performAll cs (s.pristine [])).log := by
    decide +kernel +zetaReduce
  refine ⟨hnow, hplay, fun before hagree => ?_⟩
  rw [Agrees.log_performAll hagree] at hnot
  exact hnot (List.mem_append_right before hstruck)

end Monody.Playback
