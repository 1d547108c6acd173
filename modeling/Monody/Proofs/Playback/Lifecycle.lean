import Monody.Proofs.Playback.Lawful
import Monody.Proofs.Playback.Leads

/-!
# The life of a session

A session is scheduled, may play, and ends once, completed by its own timer or cancelled. Whoever
waits for it is told how it ended, and when the call that ended it has returned it is silent. All of
this holds whatever listeners start and stop in the middle of it, and between any two commands at most
one session has not ended.

## Main definitions

* `Faithful` — a way of telling reports that keeps a chronicle sound
* `Chronicle.IsLifecycle` — what is said of the sessions between commands

## Main results

* `Sound.finish`, `Sound.play` — ending and starting sessions
* `faithful_tell` — telling a report to listeners
* `Sound.fire`, `Sound.advanceTo` — letting time pass
* `history_isLifecycle` — every chronicle of a history tells of such lives
-/

namespace Monody.Playback

variable {leaving : Nat → Ending → Prop} {c : Chronicle} {id : Nat} {how : Ending}

open Chronicle

/-- Telling a report keeps a chronicle sound, whichever sessions are leaving. -/
structure Faithful (tell : Option Nat → Report → Chronicle → Chronicle)
    (emit : Report → Playback → Playback) : Prop where
  follows : Follows tell emit
  quiet : ∀ {n : Nat} {s : Playback} (r : Report), s.Quiet n → (emit r s).Quiet n
  sound : ∀ {leaving session r c}, Sound leaving c → c.Permits session [.report r] →
    Sound leaving (tell session r c)

section Telling

variable {emit : Report → Playback → Playback} {tell : Option Nat → Report → Chronicle → Chronicle}
  (htell : Faithful tell emit)
include htell

/-! ## Ending sessions -/

/-- A part leaves a session whose end has not returned. -/
theorem Sound.leave (h : Sound leaving c) (hid : leaving id how) (part : Part) :
    Sound leaving (c.leave tell id part) := by
  have hpermits (es : List Entry) : c.Permits id es := permits_of_not_mem (h.left id how hid).2 es
  have hreleased : Sound leaving (c.become id (c.state.release id part)) :=
    h.abide id (.release id part) (hpermits _)
  rw [Chronicle.leave]
  split
  · have hmoved := hreleased.abide id (.setCursor part.performer none)
      (permits_become.mpr (hpermits _))
    exact htell.sound hmoved (permits_become.mpr (permits_become.mpr (hpermits _)))
  · exact hreleased

theorem Sound.foldl_leave (h : Sound leaving c) (hid : leaving id how) (parts : List Part) :
    Sound leaving (parts.foldl (Chronicle.leave tell id) c) := by
  induction parts generalizing c with
  | nil => exact h
  | cons part parts ih => exact ih (h.leave htell hid part)

/-- An unfinished session is ended. If it is complete, the timer that completes it has just fired. -/
theorem Sound.finish (h : Sound leaving c) (hid : c.state.IsUnfinished id) (how : Ending)
    (ds : List Deed) (hfired : ∀ d ∈ ds, ∃ t, d = .fired t)
    (hcompletes : ∀ j, (∃ t, .fired t ∈ ds ∧ t.owner = j ∧ t.task = .complete) ↔
      j = id ∧ how = .completed) :
    Sound leaving (Chronicle.finish tell id how { c with deeds := c.deeds ++ ds }) := by
  obtain ⟨-, session, hsession, hlive⟩ := isCurrent_iff.mpr ⟨(h.solitary id).mpr hid, hid⟩
  rw [Option.mem_def] at hsession
  have hnot (how : Ending) : ¬ leaving id how := fun hleaving =>
    hid.phase?_ne (h.left id how hleaving).1
  have hconcluded := h.conclude hfired id hid how hcompletes
  have hleft := hconcluded.foldl_leave htell (.inr ⟨rfl, rfl⟩) session.parts
  obtain ⟨htold, hresult⟩ := hleft.tellResult (hleft.left id how (.inr ⟨rfl, rfl⟩)).1
  simp only [Chronicle.finish, hsession, hlive]
  exact htold.return hnot hresult

/-- The active session is cancelled. -/
theorem Sound.cancel (h : Sound leaving c) (hid : c.state.current = some id) :
    Sound leaving (c.finish tell id .cancelled) := by
  have hcancelled := h.finish htell ((h.solitary id).mp hid) .cancelled [] (by simp) (by simp)
  rwa [List.append_nil] at hcancelled

theorem Sound.stop (h : Sound leaving c) : Sound leaving (c.stop tell) := by
  simp only [Chronicle.stop]
  split
  · exact h
  · next hid =>
    refine htell.sound (h.cancel htell hid) (permits_of_not_isAct ?_)
    simp [Entry.IsAct, Report.topic]

/-- With one step more than there are reactions left, clearing ends when no session is active. -/
theorem Sound.clear {fuel : Nat} (h : Sound leaving c) (hfuel : c.state.reactionsLeft < fuel) :
    Sound leaving (c.clear tell fuel) ∧ (c.clear tell fuel).state.current = none := by
  induction fuel generalizing c with
  | zero => exact absurd hfuel (Nat.not_lt_zero _)
  | succ fuel ih =>
    simp only [Chronicle.clear]
    split
    · next hidle => exact ⟨h, hidle⟩
    next id hid =>
      have hcancelled := h.cancel htell hid
      have hquiet := quiet_finish htell.quiet .cancelled
        (isCurrent_iff.mpr ⟨hid, (h.solitary id).mp hid⟩) (Nat.le_refl _)
      rw [← state_finish htell.follows] at hquiet
      -- if a session is active again, a listener has used a reaction to start it
      rcases hquiet with ⟨hidle, -⟩ | hfewer
      · have hclear : (c.finish tell id .cancelled).clear tell fuel = c.finish tell id .cancelled := by
          cases fuel with
          | zero => rfl
          | succ fuel => simp only [Chronicle.clear, hidle]
        rw [hclear]
        exact ⟨hcancelled, hidle⟩
      · exact ih hcancelled (by omega)

/-! ## Starting sessions -/

/-- A session is built and scheduled where none is active. -/
theorem Sound.play {speed : Number} (hspeed : speed.IsSpeed) (performers : List Nat)
    (h : Sound leaving c) : Sound leaving (c.play tell performers speed).2 := by
  simp only [Chronicle.play]
  split
  · exact h
  split
  · exact h
  obtain ⟨hcleared, hidle⟩ := (h.stop htell).clear htell (Nat.lt_succ_self _)
  generalize (c.stop tell).clear tell ((c.stop tell).state.reactionsLeft + 1) = d at hcleared hidle ⊢
  -- the session that is built now is the next one, of which nothing has been told
  generalize hid : d.state.sessions.length = id
  have hnew : (d.state.begin speed).phase? id = some .idle := by
    rw [phase?_begin, if_pos hid.symm]
  have hnot : .returned id ∉ d.deeds := fun hreturned => by
    obtain ⟨how, hended⟩ := hcleared.returned id hreturned
    rw [phase?, List.getElem?_eq_none (Nat.le_of_eq hid)] at hended
    cases hended
  have hpermits (es : List Entry) : d.Permits id es := permits_of_not_mem hnot es
  have hbegun : Lawful leaving (d.become id (d.state.begin speed)) :=
    hcleared.toLawful.become id (.begin hidle speed) (hpermits _)
  obtain ⟨s, henter, hs⟩ := Abides.enterAll hspeed id (c.state.castOf performers) hbegun.admissible
  rw [state_become] at henter hs
  simp only [state_become, henter]
  have hentered := hbegun.become id hs.spares (permits_become.mpr (hpermits _))
  have hsame (j : Nat) : s.phase? j = (d.state.begin speed).phase? j := hs.phase j
  have hlaunch : Spares s (s.launch id) := .launch ((hsame id).trans hnew)
  have hresult := (hcleared.toAnnounced.become id (.begin hidle speed) (result?_begin speed)).become id
    hs.spares hs.result
  refine ⟨hentered.become id hlaunch (permits_become.mpr (permits_become.mpr (hpermits _))),
    hresult.become id hlaunch result?_launch, fun j => ?_⟩
  rw [state_become, phase?_launch (by simp [hsame, hnew])]
  split
  · simp
  · next hne =>
    rw [hsame, phase?_begin, if_neg fun heq => hne (hid ▸ heq.symm)]
    exact hcleared.built j

theorem Sound.act {r : Reaction} (hr : r.IsAdmissible) (h : Sound leaving c) :
    Sound leaving (c.act tell r) := by
  cases r with
  | log => exact h
  | fail => exact h
  | stop => exact h.stop htell
  | play performers speed => exact h.play htell (h.admissible.isSpeed_getD hr) performers
  | listen topic skip times reaction => exact h.abide none (.addListener hr) (permits_none _)
  | resolve id => exact h.resolveFrom
  | assign performer values => exact h.abide none (.assign performer hr) (permits_none _)
  | panic => exact h.abide none (.through _) (permits_none _)

end Telling

/-! ## Reporting -/

section Acting

variable {act : Reaction → Chronicle → Chronicle}
  (hact : ∀ {leaving c} {r : Reaction}, r.IsAdmissible → Sound leaving c → Sound leaving (act r c))
include hact

theorem Sound.react (h : Sound leaving c) (i : Nat) : Sound leaving (c.react act i) := by
  simp only [Chronicle.react]
  split
  · exact h
  next l hl =>
    have hreaction := h.admissible.reactions l (List.mem_of_getElem? hl)
    split
    · exact h.abide none (.setListener i hreaction) (permits_none _)
    · next times _ _ =>
      have hlistener : Abides c.state (c.state.setListener i { l with times }) :=
        .setListener i hreaction
      exact hact hreaction (h.abide none (hlistener.trans (.record _)) (permits_none _))
    · exact h

theorem faithful_tellWith {act' : Reaction → Playback → Playback}
    (hstate : ∀ r c, (act r c).state = act' r c.state) (hleads : ∀ r s, Leads none (r.count - 1) s (act' r s)) :
    Faithful (tellWith act) (emitWith act') where
  follows := follows_tellWith hstate
  quiet := quiet_emitWith hleads
  sound {leaving session r c} h hpermits := by
    have hfoldl (is : List Nat) : ∀ c, Sound leaving c →
        Sound leaving (is.foldl (Chronicle.react act) c) := by
      induction is with
      | nil => exact fun _ h => h
      | cons i is ih => exact fun c h => ih _ (h.react hact i)
    refine hfoldl _ _ (h.abide session (.record _) ?_)
    rwa [entriesOf_record]

end Acting

theorem faithful_tellWithin (depth : Nat) : Faithful (tellWithin depth) (emitWithin depth) := by
  induction depth with
  | zero => exact faithful_tellWith (fun _ h => h) (fun _ _ => rfl) fun _ s => (Leads.refl s).mono _
  | succ depth ih =>
    exact faithful_tellWith (fun hr h => h.act ih hr) (state_act ih.follows)
      (leads_act (leads_emitWithin depth))

theorem faithful_tell : Faithful Chronicle.tell Playback.emit where
  follows := follows_tell
  quiet := quiet_emitWithin _
  sound := (faithful_tellWithin _).sound

/-! ## Timers -/

theorem Sound.tell (h : Sound leaving c) (id : Nat) (r : Report) (hpermits : c.Permits id [.report r]) :
    Sound leaving (c.tell id r) :=
  faithful_tell.sound h hpermits

/-- Anything may be reported of an active session. -/
theorem Sound.tell_of_isCurrent (h : Sound leaving c) (hid : c.state.IsCurrent id) (r : Report) :
    Sound leaving (c.tell id r) :=
  h.tell id r (permits_of_not_mem (h.returned_not_mem (isCurrent_iff.mp hid).2) _)

theorem Sound.strike (h : Sound leaving c) (hid : c.state.IsUnfinished id) (part : Part)
    (event : Nat) : Sound leaving (c.strike id part event).2 := by
  have hpermits (es : List Entry) : c.Permits id es := permits_of_not_mem (h.returned_not_mem hid) es
  have hspares := Spares.play hid (h.built id)
  -- playing may go on, so that the change is spared whatever has been told
  have hplaying : Sound leaving (c.become id
      (c.state.update id fun session => { session with phase := .playing })) := {
    toLawful := h.toLawful.become id hspares (hpermits _)
    toAnnounced := h.toAnnounced.become id hspares fun _ => result?_update_of_eq fun _ => rfl
    built := fun j => by
      rw [state_become, phase?_update]
      split
      · simp
      · exact h.built j }
  simp only [Chronicle.strike]
  split
  · exact hplaying
  split
  · exact hplaying
  · exact hplaying
  rename_i note _
  have hreleased := hplaying.abide id (.release id part)
    (permits_become.mpr (hpermits _))
  split
  · exact hreleased
  next seconds _ =>
    have hsounding := hreleased.abide id (.sound id part event note seconds)
      (permits_become.mpr (permits_become.mpr (hpermits _)))
    have hcursor := hsounding.tell id (.cursor part.index (some event))
      (permits_become.mpr (permits_become.mpr (permits_become.mpr (hpermits _))))
    dsimp only
    split
    · next hcurrent => exact hcursor.tell_of_isCurrent hcurrent _
    · exact hcursor

theorem Sound.endPart (h : Sound leaving c) (hid : c.state.IsUnfinished id) (part : Part) :
    Sound leaving (c.endPart id part) := by
  have hpermits (es : List Entry) : c.Permits id es := permits_of_not_mem (h.returned_not_mem hid) es
  have hreleased := h.abide id
    ((Abides.release id part).trans (.setCursor part.performer none)) (hpermits _)
  have hcursor := hreleased.tell id (.cursor part.index none) (permits_become.mpr (hpermits _))
  simp only [Chronicle.endPart]
  split
  · next hcurrent => exact hcursor.tell_of_isCurrent hcurrent _
  · exact hcursor

theorem Sound.fire (h : Sound leaving c) (t : Timer Task) : Sound leaving (c.fire t).2 := by
  simp only [Chronicle.fire]
  split
  · exact h
  split
  · next hcurrent =>
    have hid := (isCurrent_iff.mp hcurrent).2
    cases htask : t.task with
    | strike part event => exact (h.add_fired (by simp [htask])).strike hid part event
    | release part event =>
      have hfired := h.add_fired (t := t) (by simp [htask])
      exact hfired.abide t.owner (.releaseEvent _ part event)
        (permits_of_not_mem (hfired.returned_not_mem hid) _)
    | endPart part => exact (h.add_fired (by simp [htask])).endPart hid part
    | complete =>
      have hfinished := h.finish faithful_tell hid .completed [.fired t] (by simp)
        (by simp [htask, eq_comm])
      refine faithful_tell.sound hfinished (permits_of_not_isAct ?_)
      simp [Entry.IsAct, Report.topic]
  · exact h

/-! ## Time -/

theorem Sound.advanceTo (target : Binary64) (fuel : Nat) (h : Sound leaving c) :
    Sound leaving (c.advanceTo target fuel).2 := by
  induction fuel generalizing c with
  | zero => exact h.abide none (.clock _) (permits_none _)
  | succ fuel ih =>
    simp only [Chronicle.advanceTo]
    split
    · exact h.abide none (.clock _) (permits_none _)
    next timer clock _ =>
      have hfired := (h.abide none (.clock clock) (permits_none _)).fire timer
      split
      · next heq => rwa [heq] at hfired
      · next heq =>
        rw [heq] at hfired
        exact ih hfired

theorem Sound.runWithin (fuel : Nat) (h : Sound leaving c) :
    Sound leaving (c.runWithin fuel).2 := by
  induction fuel generalizing c with
  | zero => exact h
  | succ fuel ih =>
    simp only [Chronicle.runWithin]
    split
    · exact h
    next due _ =>
      have hadvanced := h.advanceTo (c.state.clock.now + (due - c.state.clock.now)) c.state.workload
      simp only [Chronicle.advance]
      split
      · next heq => rwa [heq] at hadvanced
      · next heq =>
        rw [heq] at hadvanced
        exact ih hadvanced

/-! ## Commands -/

theorem Sound.perform {command : Command} (hcommand : command.IsAdmissible) (h : Sound leaving c) :
    Sound leaving (c.perform command).2 := by
  cases command with
  | play performers speed =>
    exact h.play faithful_tell (h.admissible.isSpeed_getD hcommand) performers
  | stop => exact h.stop faithful_tell
  | advance seconds =>
    simp only [Chronicle.perform]
    split
    · exact h.advanceTo _ _
    · exact h
  | runAll => exact h.runWithin _
  | eligible performers => exact h
  | panic => exact h.abide none (.through _) (permits_none _)
  | close => exact (h.stop faithful_tell).abide none (.through _) (permits_none _)
  | assign performer values => exact h.abide none (.assign performer hcommand) (permits_none _)
  | listen l => exact h.abide none (.addListener hcommand) (permits_none _)
  | resolve id => exact h.resolveFrom

/-- What is said of the sessions between commands. -/
structure Chronicle.IsLifecycle (c : Chronicle) : Prop where
  /-- The active session is the only one that has not ended. -/
  solitary : c.state.IsSolitary
  /-- At every moment the phases have changed as they may. -/
  course : IsCourse (c.past ++ [c.state])
  /-- Playback tells the result of a session at most once. -/
  once : (c.deeds.filterMap Deed.told?).Nodup
  /-- Whoever waits for an ended session has been told how it ended, by playback unless he was told
  from outside that it is cancelled. -/
  told : ∀ id how, c.state.phase? id = some (.ended how) →
    c.state.result? id = some how ∧ .told id ∈ c.deeds ∧ .toldOutside id ∉ c.deeds ∨
      c.state.result? id = some .cancelled ∧ .toldOutside id ∈ c.deeds ∧ .told id ∉ c.deeds
  /-- A session is complete if its own timer has completed it while it was active, and only then. -/
  completed : ∀ id, c.state.phase? id = some (.ended .completed) ↔ c.HasCompleted id
  /-- The calls that ended sessions have returned. -/
  returned : ∀ id how, c.state.phase? id = some (.ended how) → .returned id ∈ c.deeds
  /-- After that, nothing has been done on account of them. -/
  silent : IsSilent c.deeds
  /-- Nothing in the log is missing from the deeds. -/
  log : c.deeds.filterMap Deed.entry? = c.state.log

/-- With no session leaving, a sound chronicle tells of the lives of sessions. -/
theorem Sound.isLifecycle (h : Sound (fun _ _ => False) c) : c.IsLifecycle := by
  have hreturned (id : Nat) (how : Ending) (hended : c.state.phase? id = some (.ended how)) :
      .returned id ∈ c.deeds := (h.ended id how hended).resolve_left fun hleaving => hleaving
  exact { h with
    returned := hreturned
    told := fun id how hended => by
      cases hresult : c.state.result? id with
      | none => exact absurd (hreturned id how hended) (h.untold id hresult).2.2
      | some how' =>
        refine (h.told id how' hresult).imp ?_ ?_
        · rintro ⟨hended', htold⟩
          have hsame : Phase.ended how' = .ended how := Option.some.inj (hended'.symm.trans hended)
          exact ⟨congrArg some (Phase.ended.inj hsame), htold⟩
        · rintro ⟨rfl, houtside⟩
          exact ⟨rfl, houtside⟩ }

/-- Where nothing has been asked yet, there are no sessions and nothing has been told. -/
theorem Sound.start {output : Output} {voices : List Voice} {listeners : List Listener}
    {defaultSpeed : Number} {cancels : Bool} (hvoices : ∀ v ∈ voices, v.IsAudible)
    (hlisteners : ∀ l ∈ listeners, l.reaction.IsAdmissible) (hspeed : defaultSpeed.IsSpeed) :
    Sound (fun _ _ => False) (.start (Playback.start output voices listeners defaultSpeed cancels)) where
  admissible := by
    refine ⟨fun p hp => ?_, hlisteners, hspeed⟩
    obtain ⟨v, hv, rfl⟩ := List.mem_map.mp hp
    exact hvoices v hv
  solitary id := iff_of_false (by simp [Playback.start, Chronicle.start]) fun ⟨p, hp, _⟩ => by cases hp
  course := List.isChain_singleton _
  log := rfl
  completed id := by
    have hnone : (Playback.start output voices listeners defaultSpeed cancels).phase? id = none := rfl
    exact iff_of_false (by simp [Chronicle.start, hnone]) fun ⟨t, ht, _⟩ => by cases ht
  ended id how hended := by cases hended
  left id how hleaving := hleaving.elim
  returned id hid := by cases hid
  silent := .nil
  once := .nil
  untold id _ := by simp [Chronicle.start]
  told id how hresult := by cases hresult
  built id := by
    have hnone : (Playback.start output voices listeners defaultSpeed cancels).phase? id = none := rfl
    simp [Chronicle.start, hnone]

/-- **The life of a session.** Whatever is asked of playback, its history is that of chronicles
after each of which the sessions have such lives. -/
theorem history_isLifecycle (output : Output) (voices : List Voice) (listeners : List Listener)
    (defaultSpeed : Number) (cancels : Bool) (commands : List Command)
    (hvoices : ∀ v ∈ voices, v.IsAudible) (hlisteners : ∀ l ∈ listeners, l.reaction.IsAdmissible)
    (hspeed : defaultSpeed.IsSpeed) (hcommands : ∀ command ∈ commands, command.IsAdmissible) :
    let s := start output voices listeners defaultSpeed cancels
    (Chronicle.history commands (.start s)).map erase = history commands s ∧
      ∀ p ∈ Chronicle.history commands (.start s), p.2.IsLifecycle := by
  intro s
  refine ⟨map_erase_history commands _, ?_⟩
  have hstart : Sound (fun _ _ => False) (.start s) := .start hvoices hlisteners hspeed
  generalize Chronicle.start s = c at hstart
  induction commands generalizing c with
  | nil => exact fun p hp => by cases hp
  | cons command commands ih =>
    have hnext := hstart.perform (hcommands command List.mem_cons_self)
    intro p hp
    rcases List.mem_cons.mp hp with rfl | hp
    · exact hnext.isLifecycle
    · exact ih (fun command h => hcommands command (List.mem_cons_of_mem _ h)) _ hnext p hp

/-- Those who wait for a session are told from outside that it is cancelled; then it is stopped, and a
listener starts another one, which is completed. -/
theorem history_isLifecycle_restart :
    let note : Melody.Event :=
      ⟨.note .c false 4, 0, Melody.defaultDuration, Melody.defaultDuration, none, ['C'], (0, 1)⟩
    let voice : Voice := .ofMelody ⟨['C'], [note]⟩
    let listener : Listener := ⟨.stop, 0, 1, .play [0] (some 2)⟩
    let commands : List Command :=
      [.play [0] none, .advance (.real Number.half), .resolve 0, .stop, .runAll]
    let s := start (.ofConnection (some ⟨false⟩) none) [voice] [listener] (.real 1) true
    (voice.IsAudible ∧ listener.reaction.IsAdmissible ∧ ∀ c ∈ commands, c.IsAdmissible) ∧
      (Chronicle.history commands (.start s)).map erase = history commands s ∧
      ∀ p ∈ Chronicle.history commands (.start s), p.2.IsLifecycle := by
  intro note voice listener commands s
  have hvoice : voice.IsAudible := ⟨by decide +kernel, by decide +kernel⟩
  have hone : Number.IsSpeed (.real 1) := ⟨1, rfl, by decide +kernel, by decide +kernel⟩
  have htwo : Number.IsSpeed 2 := ⟨.ofInt 2, by decide +kernel, by decide +kernel, by decide +kernel⟩
  have hlistener : listener.reaction.IsAdmissible := fun x hx => Option.mem_some.mp hx ▸ htwo
  have hcommands : ∀ c ∈ commands, c.IsAdmissible := by
    simp [commands, Command.IsAdmissible]
  refine ⟨⟨hvoice, hlistener, hcommands⟩, ?_⟩
  exact history_isLifecycle _ [voice] [listener] (.real 1) true commands
    (fun v hv => List.mem_singleton.mp hv ▸ hvoice)
    (fun l hl => List.mem_singleton.mp hl ▸ hlistener) hone hcommands

end Monody.Playback
