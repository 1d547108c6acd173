import Monody.Proofs.Outcome
import Monody.Proofs.Playback.Leads
import Monody.Proofs.Playback.Logging
import Monody.Proofs.Playback.Refusal

/-!
# Bounds that make no difference

Listeners react to reports, and what they do is reported in turn; timers come up, and set others. How deep
reactions go is bounded by the reactions that are left, and how many timers come up by those that there are
and those that reactions may still set. Neither bound is ever felt. A reaction is used up before anything
comes of it, and whatever it sets has been counted for it. So those who react report as anybody does, and
time passes until no timer is due, however many there are.

## Main definitions

* `AgreeBelow` — two ways of reporting that do the same while few enough reactions are left
* `load` — how many timers come up on account of those that there are
* `Spends` — what comes of a state at the cost of some timers

## Main results

* `emit_eq_emitWith` — what is reported in reaction to a report is reported as any other report is
* `spends_play`, `spends_emit` — starting a session costs its timers, and a report costs none
* `workload_fire_lt` — when a timer has come up, fewer are still to come up
* `advanceTo_workload` — timers that are due come up one after another
* `due?_eq_none_of_advance` — when time has passed, no timer is due
-/

namespace Monody.Playback

variable {s s' : Playback} {id n m : Nat} {emit emit' : Report → Playback → Playback}

/-! ## How deep reactions go -/

/-- Two ways of reporting do the same while fewer than a number of reactions are left. -/
def AgreeBelow (n : Nat) (emit emit' : Report → Playback → Playback) : Prop :=
  ∀ r s, s.reactionsLeft < n → emit r s = emit' r s

section Agreement

/-- What agrees while few reactions are left agrees all along a list, as no reactions come back. -/
theorem foldl_agree {α : Type} {f g : Playback → α → Playback}
    (hfewer : ∀ s a, (f s a).reactionsLeft ≤ s.reactionsLeft)
    (hfg : ∀ s a, s.reactionsLeft < n → f s a = g s a) (as : List α) (hs : s.reactionsLeft < n) :
    as.foldl f s = as.foldl g s := by
  induction as generalizing s with
  | nil => rfl
  | cons a as ih =>
    rw [List.foldl_cons, List.foldl_cons, ← hfg s a hs]
    exact ih (Nat.lt_of_le_of_lt (hfewer s a) hs)

variable (hemit : ∀ r s, Leads none 0 s (emit r s)) (hagree : AgreeBelow n emit emit')
include hemit hagree

theorem finish_agree (id : Nat) (how : Ending) (hs : s.reactionsLeft < n) :
    finish emit id how s = finish emit' id how s := by
  have hleave (s : Playback) (part : Part) (hs : s.reactionsLeft < n) :
      leave emit id s part = leave emit' id s part := by
    have hreleased : (release id part s).reactionsLeft < n := by
      rwa [reactionsLeft, release_listeners]
    rw [leave, leave, hagree _ ((release id part s).setCursor part.performer none) hreleased]
  rw [finish, finish]
  split
  · rfl
  split
  · rfl
  exact congrArg (update · id _) (foldl_agree (fun s part => (leads_leave hemit s part).fewer) hleave _ hs)

theorem stop_agree (hs : s.reactionsLeft < n) : stop emit s = stop emit' s := by
  rw [stop, stop]
  split
  · rfl
  · next id _ =>
    have hfewer : (finish emit id .cancelled s).reactionsLeft ≤ s.reactionsLeft :=
      (leads_finish hemit .cancelled).fewer
    rw [← finish_agree hemit hagree _ _ hs, hagree _ _ (Nat.lt_of_le_of_lt hfewer hs)]

theorem clear_agree (fuel : Nat) (hs : s.reactionsLeft < n) : clear emit fuel s = clear emit' fuel s := by
  induction fuel generalizing s with
  | zero => rfl
  | succ fuel ih =>
    rw [clear, clear]
    split
    · rfl
    · next id _ =>
      have hfewer : (finish emit id .cancelled s).reactionsLeft ≤ s.reactionsLeft :=
        (leads_finish hemit .cancelled).fewer
      rw [← finish_agree hemit hagree _ _ hs, ih (Nat.lt_of_le_of_lt hfewer hs)]

theorem act_agree (reaction : Reaction) (hs : s.reactionsLeft < n) :
    act emit reaction s = act emit' reaction s := by
  cases reaction with
  | log | fail | listen | resolve | assign | panic => rfl
  | stop => exact stop_agree hemit hagree hs
  | play performers speed =>
    have hstopped := Nat.lt_of_le_of_lt (leads_stop hemit (s := s)).fewer hs
    simp only [act, play, ← stop_agree hemit hagree hs, ← clear_agree hemit hagree _ hstopped]

end Agreement

/-- Listeners do the same if their reactions do the same once one has been used up. -/
theorem emitWith_agree {act act' : Reaction → Playback → Playback}
    (hact : ∀ reaction s, Leads none (reaction.count - 1) s (act reaction s))
    (hagree : ∀ reaction s, s.reactionsLeft < n → act reaction s = act' reaction s) (r : Report)
    (hs : s.reactionsLeft ≤ n) : emitWith act r s = emitWith act' r s := by
  refine foldl_agree (fun s i => (leads_react hact s i).fewer) (fun s i hs => ?_) _ (Nat.lt_succ_of_le hs)
  rw [react, react]
  split
  · rfl
  next l hl =>
    split
    · rfl
    · next times _ htimes =>
      have hused := reactionsLeft_used hl htimes
      have hcount := l.reaction.count_pos
      have hfewer : (s.setListener i { l with times }).reactionsLeft < n := by omega
      exact hagree l.reaction _ hfewer
    · rfl

/-- How deep reactions go does not matter if they may go as deep as there are reactions left. -/
theorem emitWithin_eq_of_le {depth depth' : Nat} (r : Report) (hdepth : s.reactionsLeft ≤ depth)
    (hdepth' : s.reactionsLeft ≤ depth') : emitWithin depth r s = emitWithin depth' r s := by
  induction depth generalizing depth' r s with
  | zero =>
    have hnone : s.reactionsLeft ≤ 0 := hdepth
    cases depth' with
    | zero => rfl
    | succ depth' =>
      exact emitWith_agree (fun _ s => (Leads.refl s).mono _) (fun _ s hs => absurd hs (Nat.not_lt_zero _)) r hnone
  | succ depth ih =>
    cases depth' with
    | zero =>
      have hnone : s.reactionsLeft ≤ 0 := hdepth'
      exact emitWith_agree (leads_act (leads_emitWithin depth))
        (fun _ s hs => absurd hs (Nat.not_lt_zero _)) r hnone
    | succ depth' =>
      refine emitWith_agree (leads_act (leads_emitWithin depth)) (fun reaction t ht => ?_) r (Nat.le_refl _)
      refine act_agree (leads_emitWithin depth) (fun r u hu => ih r ?_ ?_) reaction ht <;> omega

/-- What is reported in reaction to a report is reported as any other report is. -/
theorem emit_eq_emitWith (r : Report) (s : Playback) :
    Playback.emit r s = emitWith (act Playback.emit) r s := by
  have hdeep : Playback.emit r s = emitWithin (s.reactionsLeft + 1) r s :=
    emitWithin_eq_of_le r (Nat.le_refl _) (Nat.le_succ _)
  rw [hdeep, emitWithin]
  refine emitWith_agree (leads_act (leads_emitWithin _)) (fun reaction t ht => ?_) r (Nat.le_refl _)
  refine act_agree (leads_emitWithin _) (fun r u hu => ?_) reaction ht
  exact emitWithin_eq_of_le r hu.le (Nat.le_refl _)

/-! ## How many timers come up -/

/-- How many timers come up on account of those that there are. -/
def load (us : List (Timer Task)) : Nat := (us.map (·.task.weight)).sum

theorem load_cons (t : Timer Task) (us : List (Timer Task)) :
    load (t :: us) = t.task.weight + load us := List.sum_cons

theorem one_le_weight (task : Task) : 1 ≤ task.weight := by
  cases task with
  | strike => exact (by decide : 1 ≤ 2)
  | _ => exact Nat.le_refl 1

theorem load_eq_zero {us : List (Timer Task)} (h : load us = 0) : us = [] := by
  cases us with
  | nil => rfl
  | cons t us =>
    have hpositive := one_le_weight t.task
    rw [load_cons] at h
    omega

theorem load_insert (t : Timer Task) (us : List (Timer Task)) :
    load (Clock.insert t us) = t.task.weight + load us := by
  induction us with
  | nil => rfl
  | cons u us ih =>
    rw [Clock.insert]
    split
    · rw [load_cons]
    · rw [load_cons, ih, load_cons]
      omega

theorem load_cancel (c : Clock Task) (owner : Nat) : load (c.cancel owner).queue = load c.queue := by
  rw [Clock.cancel]
  split
  · rw [load, List.map_map]
    rfl
  · rfl

/-- How many timers reactions may still set. -/
def reserve (s : Playback) : Nat := (s.listeners.map fun l => l.times * s.reactionWeight l.reaction).sum

theorem workload_eq (s : Playback) : s.workload = load s.clock.queue + s.reserve := by
  rw [workload, load, reserve, List.sum_eq_foldl, List.sum_eq_foldl, List.foldl_map, List.foldl_map]

theorem load_le_workload (s : Playback) : load s.clock.queue ≤ s.workload :=
  workload_eq s ▸ Nat.le_add_right ..

/-- How many events the melody of a performer has. -/
def eventCount (s : Playback) (performer : Nat) : Nat :=
  ((s.melody? performer).map (·.events.length)).getD 0

theorem reactionWeight_play (s : Playback) (performers : List Nat) (speed : Option Number) :
    s.reactionWeight (.play performers speed) =
      1 + (performers.map fun i => 1 + 2 * s.eventCount i).sum := by
  have hfrom (k : Nat) : performers.foldl (fun k i =>
      k + 1 + 2 * ((s.performers[i]?).map (·.voice.melody.events.length)).getD 0) k =
        k + (performers.map fun i => 1 + 2 * s.eventCount i).sum := by
    induction performers generalizing k with
    | nil => rfl
    | cons i performers ih =>
      have hcount : ((s.performers[i]?).map (·.voice.melody.events.length)).getD 0 = s.eventCount i := by
        rw [eventCount, melody?, voice?, Option.map_map, Option.map_map]
        rfl
      rw [List.foldl_cons, ih, hcount, List.map_cons, List.sum_cons]
      omega
  exact hfrom 1

/-- What comes of a state at the cost of a number of timers, while voices and sessions are retained. -/
structure Spends (n : Nat) (s s' : Playback) : Prop extends Retains s s' where
  workload : s'.workload ≤ s.workload + n

theorem Retains.eventCount (h : Retains s s') (performer : Nat) :
    s'.eventCount performer = s.eventCount performer := by
  rw [Playback.eventCount, Playback.eventCount, h.melodies]

theorem Retains.reactionWeight (h : Retains s s') (reaction : Reaction) :
    s'.reactionWeight reaction = s.reactionWeight reaction := by
  induction reaction with
  | log | fail | stop | resolve | assign | panic => rfl
  | play performers speed => simp only [reactionWeight_play, h.eventCount]
  | listen topic skip times reaction ih => exact congrArg (times * ·) ih

/-- What reactions may set can be told from the melodies before. -/
theorem Retains.reserve_eq (h : Retains s s') :
    s'.reserve = (s'.listeners.map fun l => l.times * s.reactionWeight l.reaction).sum := by
  simp only [reserve, h.reactionWeight]

namespace Spends

theorem mono (h : Spends n s s') (hnm : n ≤ m) : Spends m s s' :=
  { h with workload := Nat.le_trans h.workload (Nat.add_le_add_left hnm _) }

theorem refl (s : Playback) : Spends 0 s s := ⟨stepwise_retains.refl s, Nat.le_refl _⟩

theorem trans {s₁ s₂ s₃ : Playback} (h : Spends n s₁ s₂) (h' : Spends m s₂ s₃) : Spends (n + m) s₁ s₃ where
  toRetains := stepwise_retains.trans h.toRetains h'.toRetains
  workload := by
    have hfirst := h.workload
    have hlast := h'.workload
    omega

/-- A step that touches no listeners costs the timers that it sets. -/
theorem of_load (h : Retains s s') (hlisteners : s'.listeners = s.listeners)
    (hload : load s'.clock.queue ≤ load s.clock.queue + n) : Spends n s s' where
  toRetains := h
  workload := by
    have hreserve : s'.reserve = s.reserve := by
      rw [h.reserve_eq, hlisteners, reserve]
    rw [workload_eq, workload_eq, hreserve]
    omega

theorem of_clock (h : Retains s s') (hlisteners : s'.listeners = s.listeners)
    (hclock : s'.clock = s.clock) : Spends 0 s s' :=
  of_load h hlisteners (Nat.le_of_eq (congrArg (load ·.queue) hclock))

theorem after (s : Playback) (delay : Binary64) (id : Nat) (task : Task) :
    Spends task.weight s (s.after delay id task) := by
  refine of_load (.of_eq rfl rfl) rfl (Nat.le_of_eq ?_)
  rw [after_clock, Clock.after, load_insert]
  exact Nat.add_comm ..

/-- A listener who is added costs what his reactions do. -/
theorem addListener (s : Playback) (l : Listener) :
    Spends (l.times * s.reactionWeight l.reaction) s (s.addListener l) where
  toRetains := stepwise_retains.addListener s l
  workload := by
    have hreserve : (s.addListener l).reserve = s.reserve + l.times * s.reactionWeight l.reaction := by
      rw [(stepwise_retains.addListener s l).reserve_eq, addListener_listeners, List.map_append,
        List.sum_append, List.map_singleton, List.sum_singleton, reserve]
    rw [workload_eq, workload_eq, hreserve]
    exact Nat.le_of_eq (Nat.add_assoc ..).symm

theorem conclude (s : Playback) (id : Nat) (how : Ending) : Spends 0 s (s.conclude id how) :=
  of_load (stepwise_retains.conclude s id how) rfl (Nat.le_of_eq (load_cancel s.clock id))

theorem foldl {α : Type} {f : Playback → α → Playback} (h : ∀ s a, Spends 0 s (f s a)) (as : List α)
    (s : Playback) : Spends 0 s (as.foldl f s) := by
  induction as generalizing s with
  | nil => exact refl s
  | cons a as ih => exact (h s a).trans (ih (f s a))

end Spends

/-! ## What sessions and reports cost -/

theorem spends_release (id : Nat) (part : Part) : Spends 0 s (release id part s) :=
  .of_clock (stepwise_retains.release id part) (release_listeners id part) (release_clock id part)

section Reporting

variable (hemit : ∀ r s, Spends 0 s (emit r s))
include hemit

theorem spends_leave (id : Nat) (s : Playback) (part : Part) : Spends 0 s (leave emit id s part) := by
  rw [leave]
  split
  · have hleft : Spends 0 (release id part s) ((release id part s).setCursor part.performer none) :=
      .of_clock (stepwise_retains.setCursor ..) rfl rfl
    exact ((spends_release id part).trans hleft).trans (hemit ..)
  · exact spends_release id part

/-- Ending a session costs nothing. -/
theorem spends_finish (id : Nat) (how : Ending) : Spends 0 s (finish emit id how s) := by
  rw [finish]
  split
  · exact .refl s
  split
  · exact .refl s
  · have hresolved (s : Playback) : Spends 0 s (s.update id (·.resolve how)) :=
      .of_clock (.update ..) rfl rfl
    exact ((Spends.conclude s id how).trans (.foldl (spends_leave hemit id) ..)).trans (hresolved _)

theorem spends_stop : Spends 0 s (stop emit s) := by
  rw [stop]
  split
  · exact .refl s
  · exact (spends_finish hemit _ .cancelled).trans (hemit ..)

theorem spends_clear (fuel : Nat) : Spends 0 s (clear emit fuel s) := by
  induction fuel generalizing s with
  | zero => exact .refl s
  | succ fuel ih =>
    rw [clear]
    split
    · exact .refl s
    · exact (spends_finish hemit _ .cancelled).trans ih

end Reporting

/-- Each note to be struck costs two timers, as it is released by another. -/
theorem spends_strikes (id : Nat) (part : Part) (ps : List (Binary64 × Nat)) :
    Spends (2 * ps.length) s (ps.foldl (fun s p => s.after p.1 id (.strike part p.2)) s) := by
  induction ps generalizing s with
  | nil => exact .refl s
  | cons p ps ih =>
    refine ((Spends.after s p.1 id (.strike part p.2)).trans ih).mono (Nat.le_of_eq ?_)
    rw [List.length_cons, Task.weight]
    omega

theorem spends_enter (id : Nat) (plan : Plan) :
    Spends (2 * plan.strikes.length + 1) s (enter id plan s) := by
  have hjoined : Spends 0 s ((s.update id fun session =>
      { session with parts := session.parts ++ [plan.part] }).through
        (·.programChange plan.part.channel.val plan.program.val)) :=
    .of_clock (stepwise_retains.trans (.update ..) (stepwise_retains.through ..)) rfl rfl
  have hset := (hjoined.trans (spends_strikes id plan.part plan.strikes)).trans
    (.after _ plan.part.ends id (.endPart plan.part))
  exact hset.mono (Nat.le_of_eq (congrArg (· + 1) (Nat.zero_add _)))

/-- A plan has no more notes to strike than the melody has events. -/
theorem length_strikes_le {speed : Number} {index performer : Nat} {v : Voice} {plan : Plan}
    (h : planOf speed index performer v = .ok plan) :
    plan.strikes.length ≤ v.melody.events.length := by
  obtain ⟨velocity, -, h⟩ := exists_of_bind_eq_ok h
  obtain ⟨ends, -, h⟩ := exists_of_bind_eq_ok h
  obtain ⟨strikes, hstrikes, h⟩ := exists_of_bind_eq_ok h
  obtain rfl := Except.ok.inj h
  calc strikes.length = (v.melody.events.zipIdx.filter (·.1.isPlayable)).length :=
        (mapM_eq_ok_iff.mp hstrikes).length_eq.symm
    _ ≤ v.melody.events.zipIdx.length := List.length_filter_le ..
    _ = v.melody.events.length := List.length_zipIdx

theorem spends_enterAll (id : Nat) (speed : Number) (cast : List (Nat × Nat)) :
    Spends ((cast.map fun c => 1 + 2 * s.eventCount c.2).sum) s (enterAll id speed cast s).2 := by
  induction cast generalizing s with
  | nil => exact .refl s
  | cons c rest ih =>
    obtain ⟨index, performer⟩ := c
    rw [List.map_cons, List.sum_cons, enterAll]
    split
    · exact ih.mono (Nat.le_add_left ..)
    next p hp =>
    split
    · exact (Spends.refl s).mono (Nat.zero_le _)
    next plan hplan =>
    have hentered := spends_enter (s := s) id plan
    -- entering takes nothing from the voices of those who are yet to enter
    have hcount := hentered.eventCount
    have hstrikes : plan.strikes.length ≤ s.eventCount performer := by
      rw [eventCount, melody?, voice?, hp]
      exact length_strikes_le hplan
    have hrest := @ih (enter id plan s)
    simp only [hcount] at hrest
    refine (hentered.trans hrest).mono ?_
    dsimp only
    omega

theorem spends_launch (id : Nat) : Spends 1 s (launch id s) := by
  rw [launch]
  split
  · exact (Spends.refl s).mono (Nat.zero_le _)
  · next session _ =>
    have hset := Spends.after s session.lastEnd id .complete
    exact hset.trans (.of_clock (.update ..) rfl rfl)

/-- Those of a cast are performers that were asked for, each at most as often as that. -/
theorem castOf_sublist (s : Playback) (performers : List Nat) :
    ((s.castOf performers).map (·.2)).Sublist performers := by
  have hplaces : (eligible (s.voicesOf performers)).Sublist (List.range (s.voicesOf performers).length) := by
    have hsub : (eligible (s.voicesOf performers)).Sublist ((s.voicesOf performers).zipIdx.map (·.2)) :=
      List.filter_sublist.map _
    rwa [List.zipIdx_map_snd, ← List.range_eq_range'] at hsub
  -- all places in order would give the performers themselves
  have htake (k : Nat) : (List.range k).filterMap (performers[·]?) = performers.take k := by
    induction k with
    | zero => rfl
    | succ k ih =>
      have hlast : [k].filterMap (performers[·]?) = performers[k]?.toList := by
        rw [List.filterMap_cons]
        cases performers[k]? <;> rfl
      rw [List.range_succ, List.filterMap_append, ih, hlast, List.take_add_one]
  have hall : (s.castOf performers).map (·.2) =
      (eligible (s.voicesOf performers)).filterMap (performers[·]?) := by
    rw [castOf, List.map_filterMap]
    exact List.filterMap_congr fun i _ => by rw [Option.map_map]; exact Option.map_id' ..
  rw [hall]
  exact (hplaces.filterMap _).trans (htake _ ▸ List.take_sublist ..)

/-- Starting a session costs at most what a reaction that starts it is counted for. -/
theorem spends_play (hemit : ∀ r s, Spends 0 s (emit r s)) (performers : List Nat) (speed : Number)
    (given : Option Number) :
    Spends (s.reactionWeight (.play performers given)) s (play emit performers speed s).2 := by
  rw [play]
  split
  · exact (Spends.refl s).mono (Nat.zero_le _)
  dsimp only
  split
  · exact (Spends.refl s).mono (Nat.zero_le _)
  have hidle := (spends_stop hemit (s := s)).trans (spends_clear hemit ((s.stop emit).reactionsLeft + 1))
  generalize clear emit ((s.stop emit).reactionsLeft + 1) (s.stop emit) = t at hidle ⊢
  have hbegun := hidle.trans (.of_clock (stepwise_retains.begin t speed) rfl rfl)
  have hentered := hbegun.trans (spends_enterAll t.sessions.length speed (s.castOf performers))
  have hcount := hbegun.eventCount
  -- those who enter are among those who were asked for
  have hsum : ((s.castOf performers).map fun c => 1 + 2 * s.eventCount c.2).sum ≤
      (performers.map fun i => 1 + 2 * s.eventCount i).sum := by
    have hsub := (castOf_sublist s performers).map fun i => 1 + 2 * s.eventCount i
    rw [List.map_map] at hsub
    exact hsub.sum_le_sum fun _ _ => Nat.zero_le _
  simp only [hcount] at hentered
  rw [reactionWeight_play]
  split
  · next heq =>
    rw [heq] at hentered
    exact hentered.mono (by omega)
  · next heq =>
    rw [heq] at hentered
    exact (hentered.trans (spends_launch _)).mono (by omega)

theorem spends_act (hemit : ∀ r s, Spends 0 s (emit r s)) (reaction : Reaction) (s : Playback) :
    Spends (s.reactionWeight reaction) s (act emit reaction s) := by
  cases reaction with
  | log | fail => exact .refl s
  | stop => exact spends_stop hemit
  | play performers speed => exact spends_play hemit performers _ speed
  | listen topic skip times reaction => exact .addListener s ⟨topic, skip, times, reaction⟩
  | resolve session => exact .of_clock (.update ..) rfl rfl
  | assign performer values => exact .of_clock (stepwise_retains.assign ..) rfl rfl
  | panic => exact .of_clock (stepwise_retains.through ..) rfl rfl

section Acting

variable {act : Reaction → Playback → Playback}
  (hact : ∀ reaction s, Spends (s.reactionWeight reaction) s (act reaction s))
include hact

/-- A reaction that is used up pays for what it sets. -/
theorem spends_react (s : Playback) (i : Nat) : Spends 0 s (react act s i) := by
  rw [react]
  split
  · exact .refl s
  next l hl =>
  -- what a listener is worth is its reactions, each by what it may set, and nothing else changes
  have hset (l' : Listener) : (s.setListener i l').workload + l.times * s.reactionWeight l.reaction =
      s.workload + l'.times * s.reactionWeight l'.reaction := by
    have hreserve : (s.setListener i l').reserve + l.times * s.reactionWeight l.reaction =
        s.reserve + l'.times * s.reactionWeight l'.reaction := by
      rw [(stepwise_retains.setListener s i l').reserve_eq]
      exact sum_map_set (f := fun l => l.times * s.reactionWeight l.reaction) hl l'
    rw [workload_eq, workload_eq, setListener_clock]
    omega
  split
  · next skip _ =>
    have hskipped := hset { l with skip }
    exact ⟨stepwise_retains.setListener .., Nat.le_of_eq (Nat.add_right_cancel hskipped)⟩
  · next times _ htimes =>
    have hused := hset { l with times }
    have hpaid : (s.setListener i { l with times }).workload + s.reactionWeight l.reaction =
        s.workload := by
      rw [htimes, Nat.succ_mul] at hused
      dsimp only at hused
      omega
    -- the reaction that is used up is worth as much as acting may cost
    have hrecorded : Spends 0 (s.setListener i { l with times })
        ((s.setListener i { l with times }).record (.reaction l.reaction)) :=
      .of_clock (stepwise_retains.record ..) rfl rfl
    have hretains := stepwise_retains.trans (stepwise_retains.setListener s i _) hrecorded.toRetains
    have hacted := hrecorded.trans (hact l.reaction _)
    rw [hretains.reactionWeight] at hacted
    have hworkload := hacted.workload
    exact ⟨stepwise_retains.trans (stepwise_retains.setListener ..) hacted.toRetains, by omega⟩
  · exact .refl s

theorem spends_emitWith (r : Report) (s : Playback) : Spends 0 s (emitWith act r s) :=
  (Spends.of_clock (stepwise_retains.record s (.report r)) rfl rfl).trans (.foldl (spends_react hact) ..)

end Acting

theorem spends_emitWithin (depth : Nat) (r : Report) (s : Playback) : Spends 0 s (emitWithin depth r s) := by
  induction depth generalizing r s with
  | zero => exact spends_emitWith (fun _ s => (Spends.refl s).mono (Nat.zero_le _)) r s
  | succ depth ih => exact spends_emitWith (spends_act ih) r s

/-- A report costs nothing. -/
theorem spends_emit (r : Report) (s : Playback) : Spends 0 s (Playback.emit r s) :=
  spends_emitWithin s.reactionsLeft r s

/-! ## What timers cost -/

theorem spends_sound (id : Nat) (part : Part) (event : Nat) (note : Midi.Data) (seconds : Binary64)
    (s : Playback) : Spends 1 s (sound id part event note seconds s) := by
  have hstruck : Spends 0 s (((s.setCursor part.performer (some event)).through
      (·.noteOn part.channel.val note.val part.velocity.val)).update id
        (·.hold ⟨part.index, event, note⟩)) :=
    .of_clock (stepwise_retains.trans (stepwise_retains.trans (stepwise_retains.setCursor ..)
      (stepwise_retains.through ..)) (.update ..)) rfl rfl
  exact hstruck.trans (.after _ seconds id (.release part event))

/-- A note that is struck costs the timer that releases it. -/
theorem spends_strike (id : Nat) (part : Part) (event : Nat) :
    Spends 1 s (strike Playback.emit id part event s).2 := by
  have hplaying : Spends 0 s (s.update id fun session => { session with phase := .playing }) :=
    .of_clock (.update ..) rfl rfl
  rw [strike]
  generalize (s.update id fun session => { session with phase := .playing }) = t at hplaying ⊢
  have hnone := hplaying.mono (Nat.zero_le 1)
  split
  · exact hnone
  split
  · exact hnone
  · exact hnone
  next note _ =>
  have hreleased := hplaying.trans (spends_release id part)
  split
  · exact hreleased.mono (Nat.zero_le 1)
  next seconds _ =>
  have hcursor := (hreleased.trans (spends_sound id part event note seconds _)).trans
    (spends_emit (.cursor part.index (some event)) _)
  dsimp only
  split
  · exact hcursor.trans (spends_emit ..)
  · exact hcursor

theorem spends_releaseEvent (id : Nat) (part : Part) (event : Nat) :
    Spends 0 s (releaseEvent id part event s) := by
  rcases releaseEvent_eq_or id part event s with heq | heq
  · rw [heq]
    exact spends_release id part
  · rw [heq]
    exact Spends.refl s

theorem spends_endPart (id : Nat) (part : Part) : Spends 0 s (endPart Playback.emit id part s) := by
  have hleft : Spends 0 (release id part s) ((release id part s).setCursor part.performer none) :=
    .of_clock (stepwise_retains.setCursor ..) rfl rfl
  have hcursor := ((spends_release (s := s) id part).trans hleft).trans
    (spends_emit (.cursor part.index none) _)
  rw [endPart]
  split
  · exact hcursor.trans (spends_emit ..)
  · exact hcursor

/-- When a timer has come up, fewer are still to come up. -/
theorem workload_fire_lt (t : Timer Task) (s : Playback) :
    (fire Playback.emit t s).2.workload < t.task.weight + s.workload := by
  have hspends : Spends (t.task.weight - 1) s (fire Playback.emit t s).2 := by
    have hnone : Spends (t.task.weight - 1) s s := (Spends.refl s).mono (Nat.zero_le _)
    rw [fire]
    split
    · exact hnone
    split
    · cases t.task with
      | strike part event => exact spends_strike t.owner part event
      | release part event => exact spends_releaseEvent t.owner part event
      | endPart part => exact spends_endPart t.owner part
      | complete => exact (spends_finish spends_emit t.owner .completed).trans (spends_emit ..)
    · exact hnone
  have hweight := one_le_weight t.task
  have hworkload := hspends.workload
  omega

/-- Where listeners only log, all that is still to come up is the timers that there are. -/
theorem load_fire_lt (hs : s.IsLogging) (t : Timer Task) :
    load (fire Playback.emit t s).2.clock.queue < t.task.weight + load s.clock.queue := by
  have hreserve : s.reserve = 0 := by
    refine List.sum_eq_zero fun k hk => ?_
    obtain ⟨l, hl, rfl⟩ := List.mem_map.mp hk
    rw [hs l hl]
    rfl
  calc load (fire Playback.emit t s).2.clock.queue ≤ (fire Playback.emit t s).2.workload :=
        load_le_workload _
    _ < t.task.weight + s.workload := workload_fire_lt t s
    _ = t.task.weight + load s.clock.queue := by rw [workload_eq, hreserve, Nat.add_zero]

/-! ## Time -/

section Time

variable {target : Binary64} {fuel fuel' : Nat}

/-- At what time the clock stands makes no difference to the work that there is. -/
theorem workload_moved (s : Playback) (now : Binary64) :
    (s.moved now s.clock.queue).workload = s.workload := by
  have hretains : Retains s (s.moved now s.clock.queue) := .of_eq rfl rfl
  rw [workload_eq, workload_eq, hretains.reserve_eq]
  rfl

/-- When the first timer has come up, there is less work than before. -/
theorem workload_lt_of_cons {t : Timer Task} {rest : List (Timer Task)} (now : Binary64)
    (hqueue : s.clock.queue = t :: rest) :
    (fire Playback.emit t (s.moved now rest)).2.workload < s.workload := by
  have hlt := workload_fire_lt t (s.moved now rest)
  have hall : t.task.weight + (s.moved now rest).workload = s.workload := by
    have hretains : Retains s (s.moved now rest) := .of_eq rfl rfl
    rw [workload_eq, workload_eq, hretains.reserve_eq, hqueue, load_cons]
    exact (Nat.add_assoc ..).symm
  exact hall ▸ hlt

theorem workload_lt_of_due {t : Timer Task} {c : Clock Task} (h : s.clock.due? target = some (t, c)) :
    (fire Playback.emit t { s with clock := c }).2.workload < s.workload := by
  rw [Clock.due?] at h
  split at h
  · cases h
  next u rest hqueue =>
  split at h
  · obtain ⟨rfl, rfl⟩ := Prod.mk.inj (Option.some.inj h)
    exact workload_lt_of_cons _ hqueue
  · cases h

/-- How many timers may come up does not matter if there is no more work than that. -/
theorem advanceTo_eq_of_le (hfuel : s.workload ≤ fuel) (hfuel' : s.workload ≤ fuel') :
    advanceTo target fuel s = advanceTo target fuel' s := by
  induction fuel generalizing s fuel' with
  | zero =>
    have hqueue := load_eq_zero (Nat.le_zero.mp ((load_le_workload s).trans hfuel))
    rw [advanceTo_nil _ _ hqueue, advanceTo_nil _ _ hqueue]
  | succ fuel ih =>
    cases hdue : s.clock.due? target with
    | none => cases fuel' <;> simp only [advanceTo, hdue]
    | some next =>
      have hless := workload_lt_of_due hdue
      obtain ⟨k, rfl⟩ : ∃ k, fuel' = k + 1 := Nat.exists_eq_succ_of_ne_zero (by omega)
      simp only [advanceTo, hdue]
      split
      · rfl
      · next heq =>
        rw [heq] at hless
        dsimp only at hless
        exact ih (by omega) (by omega)

/-- Timers that are due come up one after another, until one fails or none is due. -/
theorem advanceTo_workload (target : Binary64) (s : Playback) :
    advanceTo target s.workload s =
      match s.clock.due? target with
      | none => (.ok (), { s with clock := { s.clock with now := target } })
      | some (timer, clock) =>
        match fire Playback.emit timer { s with clock } with
        | (.error fault, s) => (.error fault, s)
        | (.ok (), s) => advanceTo target s.workload s := by
  rw [advanceTo_eq_of_le (Nat.le_refl _) (Nat.le_succ _), advanceTo]
  cases hdue : s.clock.due? target with
  | none => rfl
  | some next =>
    have hless := workload_lt_of_due hdue
    dsimp only
    generalize fire Playback.emit next.1 { s with clock := next.2 } = fired at hless ⊢
    obtain ⟨_ | _, t⟩ := fired
    · rfl
    · exact advanceTo_eq_of_le (Nat.le_of_lt hless) (Nat.le_refl _)

theorem due?_eq_none_of_advanceTo (hfuel : s.workload ≤ fuel) (h : advanceTo target fuel s = (.ok (), s')) :
    s'.clock.due? target = none := by
  -- at what time a clock stands does not matter to whether a timer is due
  have hset {c : Clock Task} (hnone : c.due? target = none) :
      Clock.due? { c with now := target } target = none := by
    obtain ⟨now, _ | ⟨u, rest⟩, cancels⟩ := c
    · rfl
    · by_cases hdue : u.due ≤ target + Clock.slack
      · cases (if_pos hdue).symm.trans hnone
      · exact if_neg hdue
  induction fuel generalizing s with
  | zero =>
    have hqueue := load_eq_zero (Nat.le_zero.mp ((load_le_workload s).trans hfuel))
    obtain rfl := (Prod.mk.inj h).2
    exact hset (by rw [Clock.due?, hqueue])
  | succ fuel ih =>
    rw [advanceTo] at h
    cases hdue : s.clock.due? target with
    | none =>
      rw [hdue] at h
      obtain rfl := (Prod.mk.inj h).2
      exact hset hdue
    | some next =>
      have hless := workload_lt_of_due hdue
      rw [hdue] at h
      dsimp only at h
      generalize fire Playback.emit next.1 { s with clock := next.2 } = fired at hless h
      obtain ⟨_ | _, t⟩ := fired
      · cases h
      · exact ih (Nat.le_of_lt_succ (Nat.lt_of_lt_of_le hless hfuel)) h

/-- When time has passed, no timer is due. -/
theorem due?_eq_none_of_advance {seconds : Binary64} (h : advance seconds s = (.ok (), s')) :
    s'.clock.due? (s.clock.now + seconds) = none :=
  due?_eq_none_of_advanceTo (Nat.le_refl _) h

end Time

end Monody.Playback
