import Monody.Proofs.Midi.Unnumbered
import Monody.Proofs.Playback.Firings
import Monody.Proofs.Playback.Refusal

/-!
# Timers that fault

When a timer comes up, only striking a note calculates anything: the number of the note, and the seconds
that it sounds for. The seconds have a result, as the timers that strike notes are set only where the
start of a note has had one. So a timer faults exactly if it strikes a note that has no number.

## Main definitions

* `IsTimely` — all timers were set for sessions that may have them
* `Firing.Faults` — a timer that strikes a note without a number

## Main results

* `stepwise_times` — whatever happens while no time passes, timers are set for sessions that may have them
* `fire_eq_error_iff` — when a timer faults, and how
* `fault_of_mem_firings` — the same of all timers that come up in a run
* `playable_except_unnumbered` — a note without a flaw is playable everywhere but for its number
-/

namespace Monody.Playback

open Midi (IsUnnumbered)

variable {s s' : Playback} {id : Nat} {task : Task} {t : Timer Task} {fault : Fault}
  {melodies : List Melody}

/-! ## Timers and the speeds of sessions -/

/-- All timers, also those that are cancelled, were set for sessions that may have them. -/
def IsTimely (s : Playback) : Prop := ∀ t ∈ s.clock.queue, s.MaySet t.owner t.task

theorem MaySet.congr (h : s.MaySet id task) (hsame : s'.speed? id = s.speed? id) :
    s'.MaySet id task := by
  cases task with
  | strike => exact (HasTimes.congr hsame).mpr h
  | release | endPart | complete => exact (congrArg Option.isSome hsame).trans h

theorem MaySet.isSome (h : s.MaySet id task) : (s.speed? id).isSome := by
  cases task with
  | strike => exact HasTimes.isSome h
  | release | endPart | complete => exact h

/-- What may come of a state while no time passes: sessions keep their speeds, and timers are set for
sessions that may have them. -/
structure Times (s s' : Playback) : Prop where
  speeds : ∀ id, (s.speed? id).isSome → s'.speed? id = s.speed? id
  timely : s.IsTimely → s'.IsTimely

namespace Times

theorem of_eq (hspeeds : ∀ id, s'.speed? id = s.speed? id) (hqueue : s'.clock.queue = s.clock.queue) :
    Times s s' where
  speeds id _ := hspeeds id
  timely h t ht := (h t (hqueue ▸ ht)).congr (hspeeds t.owner)

theorem after (s : Playback) (delay : Binary64) (id : Nat) (task : Task) (h : s.MaySet id task) :
    Times s (s.after delay id task) where
  speeds _ _ := rfl
  timely htimely t ht := by
    rcases Clock.mem_insert.mp ht with rfl | ht
    · exact h.congr rfl
    · exact (htimely t ht).congr rfl

/-- Cancelled timers are those of the same sessions. -/
theorem conclude (s : Playback) (id : Nat) (how : Ending) : Times s (s.conclude id how) where
  speeds j _ := speed?_update (f := fun session => { session with phase := .ended how }) (fun _ => rfl) id j
  timely htimely t ht := by
    have hsame (j : Nat) : (s.conclude id how).speed? j = s.speed? j :=
      speed?_update (f := fun session => { session with phase := .ended how }) (fun _ => rfl) id j
    have hclock : (s.conclude id how).clock = s.clock.cancel id := rfl
    rw [hclock, Clock.cancel] at ht
    split at ht
    · obtain ⟨u, hu, rfl⟩ := List.mem_map.mp ht
      exact (htimely u hu).congr (hsame u.owner)
    · exact (htimely t ht).congr (hsame t.owner)

theorem begin (s : Playback) (speed : Number) : Times s (s.begin speed) := by
  have hsame (j : Nat) (hj : (s.speed? j).isSome) : (s.begin speed).speed? j = s.speed? j := by
    have hlt : j < s.sessions.length := by
      by_contra hle
      rw [speed?, List.getElem?_eq_none (not_lt.mp hle)] at hj
      cases hj
    rw [speed?, speed?, Playback.begin, List.getElem?_append_left hlt]
  exact ⟨hsame, fun htimely t ht => (htimely t ht).congr (hsame _ (htimely t ht).isSome)⟩

theorem trans {s₁ s₂ s₃ : Playback} (h : Times s₁ s₂) (h' : Times s₂ s₃) : Times s₁ s₃ where
  speeds id hid := by
    have hnext := h.speeds id hid
    exact (h'.speeds id (hnext ▸ hid)).trans hnext
  timely := h'.timely ∘ h.timely

end Times

/-- Whatever happens while no time passes, timers are set for sessions that may have them. -/
theorem stepwise_times : Stepwise Times where
  refl _ := .of_eq (fun _ => rfl) rfl
  trans := .trans
  record _ _ := .of_eq (fun _ => rfl) rfl
  update _ id _ hf := .of_eq (speed?_update hf id) rfl
  through _ _ := .of_eq (fun _ => rfl) rfl
  setCursor _ _ _ := .of_eq (fun _ => rfl) rfl
  setListener _ _ _ := .of_eq (fun _ => rfl) rfl
  addListener _ _ := .of_eq (fun _ => rfl) rfl
  assign _ _ _ := .of_eq (fun _ => rfl) rfl
  after := .after
  conclude := .conclude
  begin := .begin

/-! ## What a timer calculates -/

/-- All melodies of a list are those of scores. -/
def AreParsed (melodies : List Melody) : Prop := ∀ m ∈ melodies, ∃ text, Melody.parse text = .ok m

/-- The timer strikes a note that has no number, and the fault names it. -/
def Firing.Faults (melodies : List Melody) (f : Firing) (fault : Fault) : Prop :=
  f.timer.cancelled = false ∧ f.state.IsCurrent f.timer.owner ∧
    ∃ part event m e name, f.timer.task = .strike part event ∧ melodies[part.performer]? = some m ∧
      m.events[event]? = some e ∧ e ∈ m.notes ∧ IsUnnumbered e ∧ e.content.noteName? = some name ∧
      fault = .pitch (.unknownName name)

theorem eventAt?_eq_bind (s : Playback) (id : Nat) (part : Part) (event : Nat) :
    s.eventAt? id part event = (s.melody? part.performer).bind fun m =>
      (m.events[event]?).bind fun e => (s.speed? id).map (e, ·) := by
  rw [eventAt?, melody?, voice?, speed?]
  cases s.performers[part.performer]? with
  | none => rfl
  | some p =>
    cases hevent : p.voice.melody.events[event]? with
    | none => simp [hevent]
    | some e => cases hsession : s.sessions[id]? <;> simp [hevent]

/-- The number of a note of a score is a note of an output, unless it has none. -/
theorem noteOf_eq_error_iff {text : List Char} {m : Melody} (hparse : Melody.parse text = .ok m)
    {e : Melody.Event} (he : e ∈ m.events) :
    noteOf e = .error fault ↔ e ∈ m.notes ∧ IsUnnumbered e ∧
      ∃ name, e.content.noteName? = some name ∧ fault = .pitch (.unknownName name) := by
  cases hplay : e.isPlayable with
  | false =>
    have hsilent : e ∉ m.notes := fun hmem => by
      rw [(List.mem_filter.mp hmem).2] at hplay
      cases hplay
    rw [noteOf, Midi.Sounds.noteNumber?_of_silent hplay]
    exact iff_of_false (by rintro ⟨⟩) fun h => hsilent h.1
  | true =>
    have hmem : e ∈ m.notes := List.mem_filter.mpr ⟨he, hplay⟩
    rw [and_iff_right hmem]
    -- a number that there is fits a message
    by_cases h : IsUnnumbered e
    · obtain ⟨name, hname, hnumber⟩ := Midi.noteNumber?_of_isUnnumbered hplay h
      rw [noteOf, hnumber, and_iff_right h]
      constructor
      · intro hfault
        exact ⟨name, hname, (Except.error.inj hfault).symm⟩
      · rintro ⟨other, hother, rfl⟩
        rw [hname] at hother
        obtain rfl := Option.some.inj hother
        rfl
    · obtain ⟨n, hnumber, hrange⟩ := Midi.exists_representable_of_not_isUnnumbered hparse hmem h
      obtain ⟨note, hnote⟩ := Midi.exists_data_of_representable hrange
      have hok : noteOf e = .ok (some note) := by
        rw [noteOf, hnumber, mapError_ok, ok_bind]
        dsimp only
        rw [hnote]
        rfl
      rw [hok]
      exact iff_of_false (by rintro ⟨⟩) fun hno => h hno.1

theorem exists_soundingSeconds (h : s.HasTimes id) {speed : Number} (hspeed : s.speed? id = some speed)
    (gate : Binary64) (e : Melody.Event) : ∃ seconds, soundingSeconds speed gate e = .ok seconds := by
  obtain ⟨speed', r, hspeed', hr, hzero⟩ := h
  obtain rfl : speed = speed' := Option.some.inj (hspeed.symm.trans hspeed')
  exact ⟨_, secondsAt_of_isZero_eq_false hr hzero _⟩

/-- Striking faults exactly if the event has a note without a number. -/
theorem strike_eq_error_iff (hid : s.HasTimes id) (part : Part) (event : Nat) :
    (strike emit id part event s).1 = .error fault ↔
      ∃ m ∈ s.melody? part.performer, ∃ e ∈ m.events[event]?, noteOf e = .error fault := by
  obtain ⟨speed, hspeed⟩ := Option.isSome_iff_exists.mp hid.isSome
  have hplaying : (s.update id fun session => { session with phase := .playing }).eventAt? id part event =
      (s.melody? part.performer).bind fun m => (m.events[event]?).bind fun e => some (e, speed) := by
    have hsame := speed?_update (s := s) (f := fun session => { session with phase := .playing })
      (fun _ => rfl) id id
    rw [eventAt?_eq_bind, hsame, hspeed]
    rfl
  rw [strike, hplaying]
  cases s.melody? part.performer with
  | none => simp
  | some m =>
    simp only [Option.mem_def, Option.some.injEq, exists_eq_left', Option.bind_some]
    cases m.events[event]? with
    | none => simp
    | some e =>
      simp only [Option.some.injEq, exists_eq_left', Option.bind_some]
      cases noteOf e with
      | error fault' =>
        exact ⟨fun h => congrArg _ (Except.error.inj h), fun h => congrArg _ (Except.error.inj h)⟩
      | ok note =>
        cases note with
        | none => simp
        | some note =>
          -- the seconds are no reason to fault
          obtain ⟨seconds, hseconds⟩ := exists_soundingSeconds hid hspeed part.gate e
          dsimp only
          rw [hseconds]
          simp

/-- A timer faults exactly if it strikes a note that has no number. -/
theorem fire_eq_error_iff (hset : s.MaySet t.owner t.task) (hparsed : AreParsed melodies)
    (hmelodies : ∀ i, s.melody? i = melodies[i]?) :
    (fire emit t s).1 = .error fault ↔ Firing.Faults melodies ⟨t, s⟩ fault := by
  rw [Firing.Faults, fire]
  cases t.cancelled with
  | true => simp
  | false =>
    rw [if_neg Bool.false_ne_true, and_iff_right rfl]
    by_cases hcurrent : s.IsCurrent t.owner
    · rw [if_pos hcurrent, and_iff_right hcurrent]
      cases htask : t.task with
      | strike part event =>
        rw [htask] at hset
        dsimp only
        -- striking faults where the number of the note does
        rw [strike_eq_error_iff hset, hmelodies]
        constructor
        · rintro ⟨m, hm, e, he, hfault⟩
          obtain ⟨text, hparse⟩ := hparsed m (List.mem_of_getElem? hm)
          obtain ⟨hmem, hunnumbered, name, hname, rfl⟩ :=
            (noteOf_eq_error_iff hparse (List.mem_of_getElem? he)).mp hfault
          exact ⟨part, event, m, e, name, rfl, hm, he, hmem, hunnumbered, hname, rfl⟩
        · rintro ⟨part', event', m, e, name, hsame, hm, he, hmem, hunnumbered, hname, rfl⟩
          obtain ⟨rfl, rfl⟩ := Task.strike.inj hsame
          obtain ⟨text, hparse⟩ := hparsed m (List.mem_of_getElem? hm)
          exact ⟨m, hm, e, he, (noteOf_eq_error_iff hparse (List.mem_of_getElem? he)).mpr
            ⟨hmem, hunnumbered, name, hname, rfl⟩⟩
      | release | endPart | complete =>
        refine iff_of_false (by rintro ⟨⟩) ?_
        rintro ⟨part, event, m, e, name, hsame, -⟩
        cases hsame
    · rw [if_neg hcurrent]
      exact iff_of_false (by rintro ⟨⟩) fun h => hcurrent h.1

/-! ## All timers that come up -/

/-- All timers were set for sessions that may have them, and the performers have certain melodies. -/
structure IsScored (melodies : List Melody) (s : Playback) : Prop where
  timely : s.IsTimely
  melodies : ∀ i, s.melody? i = melodies[i]?

namespace IsScored

theorem of_step (h : IsScored melodies s) (htimes : Times s s') (hretains : Retains s s') :
    IsScored melodies s' where
  timely := htimes.timely h.timely
  melodies i := by
    rw [hretains.melodies]
    exact h.melodies i

/-- Whatever happens while no time passes, timers are set for sessions that may have them, and melodies
stay what they are. -/
theorem stepwise (melodies : List Melody) :
    Stepwise fun s s' => IsScored melodies s → IsScored melodies s' where
  refl _ := id
  trans h h' := h' ∘ h
  record s e h := h.of_step (stepwise_times.record s e) (stepwise_retains.record s e)
  update s id f hf h := h.of_step (stepwise_times.update s id f hf) (stepwise_retains.update s id f hf)
  through s call h := h.of_step (stepwise_times.through s call) (stepwise_retains.through s call)
  setCursor s i event h :=
    h.of_step (stepwise_times.setCursor s i event) (stepwise_retains.setCursor s i event)
  setListener s i l h :=
    h.of_step (stepwise_times.setListener s i l) (stepwise_retains.setListener s i l)
  addListener s l h :=
    h.of_step (stepwise_times.addListener s l) (stepwise_retains.addListener s l)
  assign s i values h :=
    h.of_step (stepwise_times.assign s i values) (stepwise_retains.assign s i values)
  after s delay id task hset h :=
    h.of_step (stepwise_times.after s delay id task hset) (stepwise_retains.after s delay id task hset)
  conclude s id how h :=
    h.of_step (stepwise_times.conclude s id how) (stepwise_retains.conclude s id how)
  begin s speed h := h.of_step (stepwise_times.begin s speed) (stepwise_retains.begin s speed)

theorem start (output : Output) (voices : List Voice) (listeners : List Listener)
    (defaultSpeed : Number) (cancels : Bool) :
    IsScored (voices.map (·.melody)) (start output voices listeners defaultSpeed cancels) where
  timely t ht := absurd ht List.not_mem_nil
  melodies i := by
    rw [melody?, voice?, Playback.start, List.getElem?_map, List.getElem?_map, Option.map_map,
      Option.map_map]
    rfl

/-- The clock moves on, and some timers are left. -/
theorem moved (h : IsScored melodies s) (now : Binary64) {queue : List (Timer Task)}
    (hqueue : ∀ t ∈ queue, t ∈ s.clock.queue) : IsScored melodies (s.moved now queue) where
  timely t ht := (h.timely t (hqueue t ht)).congr rfl
  melodies := h.melodies

/-- When a timer comes up, it was set for a session that may have it. -/
theorem keptByTime : KeptByTime fun fs s => IsScored melodies s ∧
    ∀ f ∈ fs, f.state.MaySet f.timer.owner f.timer.task ∧ ∀ i, f.state.melody? i = melodies[i]? where
  wait h now := ⟨h.1.moved now fun _ ht => ht, h.2⟩
  up := by
    rintro fs s t rest ⟨hs, hfs⟩ hqueue next rfl
    have hmoved := hs.moved (if t.cancelled then s.clock.now else t.due)
      fun u (hu : u ∈ rest) => hqueue ▸ List.mem_cons_of_mem t hu
    refine ⟨(stepwise melodies).fire t hmoved, fun f hf => ?_⟩
    rcases List.mem_append.mp hf with hf | hf
    · exact hfs f hf
    · obtain rfl := List.mem_singleton.mp hf
      exact ⟨(hs.timely t (hqueue ▸ List.mem_cons_self)).congr rfl, hmoved.melodies⟩

end IsScored

/-- Of all timers that come up, those fault that strike a note without a number, and no others. -/
theorem fault_of_mem_firings {voices : List Voice} (hparsed : AreParsed (voices.map (·.melody)))
    {output : Output} {listeners : List Listener} {defaultSpeed : Number} {cancels : Bool}
    {cs : List Command} {f : Firing}
    (hf : f ∈ firings cs (start output voices listeners defaultSpeed cancels)) (fault : Fault) :
    (fire emit f.timer f.state).1 = .error fault ↔ f.Faults (voices.map (·.melody)) fault := by
  have hstart := IsScored.start output voices listeners defaultSpeed cancels
  have hcs : ∀ c ∈ cs, True := fun _ _ => trivial
  obtain ⟨-, hall⟩ := IsScored.keptByTime.firings (fun _ => True)
    (fun _ hc h => ⟨(IsScored.stepwise _).perform hc h.1, h.2⟩) hcs
    ⟨hstart, fun f hf => absurd hf List.not_mem_nil⟩
  obtain ⟨hset, hmelodies⟩ := hall f hf
  exact fire_eq_error_iff hset hparsed hmelodies

/-- **A note that is read without a flaw is playable but for its number.** A sharp E or B has none, and
every other note has a number from 12 to 119. A score without flaws is transposed exactly if the shift is
shown and all its notes have numbers. A note is written to a file exactly if it has a number and ticks
for its times. And whatever is done to playback, a timer that comes up faults exactly if it strikes a
note without a number. -/
theorem playable_except_unnumbered {voices : List Voice}
    (hparsed : ∀ v ∈ voices, ∃ text, Melody.parse text = .ok v.melody) :
    (∀ v ∈ voices, ∀ e ∈ v.melody.notes,
      if IsUnnumbered e then
        ∃ name, e.content.noteName? = some name ∧ e.noteNumber? = .error (.unknownName name)
      else ∃ n, e.noteNumber? = .ok (some n) ∧ 12 ≤ n ∧ n ≤ 119) ∧
    (∀ v ∈ voices, v.melody.isFlawed = false → ∀ shift,
      ((Melody.transpose v.melody.events shift).isOk ↔
        Text.isShown shift ∧ ∀ e ∈ v.melody.notes, ¬ IsUnnumbered e)) ∧
    (∀ v ∈ voices, ∀ e ∈ v.melody.notes, ∀ channel velocity resolution tempo,
      ((Midi.messagesOfEvent channel velocity resolution tempo e).isOk ↔ ¬ IsUnnumbered e ∧
        (Midi.ticksOfMs e.start resolution tempo).isOk ∧
        (Midi.ticksOfMs e.stop resolution tempo).isOk)) ∧
    ∀ output listeners defaultSpeed cancels cs,
      ∀ f ∈ firings cs (start output voices listeners defaultSpeed cancels), ∀ fault,
        ((fire emit f.timer f.state).1 = .error fault ↔ f.Faults (voices.map (·.melody)) fault) := by
  refine ⟨fun v hv e he => ?_, fun v hv hsound shift => ?_, fun v hv e he c velocity resolution tempo => ?_,
    fun output listeners defaultSpeed cancels cs f hf fault => ?_⟩
  · obtain ⟨text, hparse⟩ := hparsed v hv
    split
    · next h => exact Midi.noteNumber?_of_isUnnumbered (List.mem_filter.mp he).2 h
    · next h => exact Midi.exists_representable_of_not_isUnnumbered hparse he h
  · obtain ⟨text, hparse⟩ := hparsed v hv
    exact Midi.isOk_transpose_iff hparse hsound shift
  · obtain ⟨text, hparse⟩ := hparsed v hv
    exact Midi.isOk_messagesOfEvent_iff hparse he c velocity resolution tempo
  · exact fault_of_mem_firings (List.forall_mem_map.mpr hparsed) hf fault

/-- A score with a sharp E between two notes that have numbers cannot be transposed, and of the timers
that come up when it is played those fault that strike the sharp E. -/
theorem playable_except_unnumbered_sharpE :
    ∃ m, Melody.parse "c(100) E#5(250) B".toList = .ok m ∧
      (∀ shift, ¬ (Melody.transpose m.events shift).isOk) ∧
      ∀ f ∈ firings [.play [0] none, .advance (.whole 1), .runAll]
          (start (.ofConnection none none) [.ofMelody m] [] 1 true), ∀ fault,
        ((fire emit f.timer f.state).1 = .error fault ↔ f.Faults [m] fault) := by
  obtain ⟨m, hm, hsound, hnotes⟩ :
      ∃ m, Melody.parse "c(100) E#5(250) B".toList = .ok m ∧ m.isFlawed = false ∧
        ∃ e ∈ m.notes, IsUnnumbered e := by
    refine ⟨⟨_, _⟩, rfl, ?_, ?_⟩ <;> decide +kernel
  have hparsed : ∀ v ∈ [Voice.ofMelody m], ∃ text, Melody.parse text = .ok v.melody :=
    List.forall_mem_singleton.mpr ⟨_, hm⟩
  obtain ⟨-, htranspose, -, hfaults⟩ := playable_except_unnumbered hparsed
  refine ⟨m, hm, fun shift hok => ?_, hfaults _ _ _ _ _⟩
  obtain ⟨e, he, hunnumbered⟩ := hnotes
  exact (htranspose _ List.mem_cons_self hsound shift).mp hok |>.2 e he hunnumbered

/-- A sharp E is read without a flaw, and nothing can be done with it: it has no number, it is neither
transposed nor written to a file, and when its timer comes up, playback faults. -/
theorem not_playable_sharpE :
    ∃ m, Melody.parse "E#".toList = .ok m ∧ m.isFlawed = false ∧
      m.notes.map (·.noteNumber?) = [.error (.unknownName "E#".toList)] ∧
      Melody.transpose m.events 1 = .error (.pitch (.unknownName "E#".toList)) ∧
      Midi.encode [.ofMelody m] (.whole Midi.defaultBpm) (.whole Midi.defaultResolution) =
        .error (.pitch (.unknownName "E#".toList)) ∧
      (history [.play [0] none, .runAll] (start (.ofConnection none none) [.ofMelody m] [] 1 true)).map
          (·.1) =
        [.ok (.session 0), .error (.playback (.pitch (.unknownName "E#".toList)))] := by
  refine ⟨⟨_, _⟩, rfl, ?_, ?_, ?_, ?_, ?_⟩ <;> decide +kernel

end Monody.Playback
