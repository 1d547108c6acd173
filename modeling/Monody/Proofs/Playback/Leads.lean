import Monody.Proofs.Playback.State

/-!
# What may come of a state

Whatever is done to playback, and whatever listeners do on account of it, sessions that have ended
stay as they are but for what is told of them, only the timers of ended sessions are cancelled, and no
more reactions come of listeners than might have come before. The one exception is a session in the
middle of its end, whose parts still release their notes.

## Main definitions

* `Leads` — what may come of a state as far as ended sessions, cancelled timers and reactions go
* `Quiet` — no session is active, or fewer reactions than a given number are left

## Main results

* `leads_finish`, `leads_play`, `leads_emit`, `leads_fire`, `leads_advanceTo` — everything that
  happens leads from one state to another in this sense
* `quiet_finish` — when a session has been ended, none is active unless a reaction has been used
-/

namespace Monody.Playback

variable {s s' : Playback} {id j more : Nat} {but : Option Nat} {emit : Report → Playback → Playback}

/-! ## The relation -/

/-- What may come of a state, where one session may be in the middle of its end, and listeners may have
been added from which so many more reactions may come. -/
structure Leads (but : Option Nat) (more : Nat) (s s' : Playback) : Prop where
  ended : ∀ j, s.HasEnded j → s'.HasEnded j
  same : ∀ j, but ≠ some j → s.HasEnded j →
    (s'.sessions[j]?).map (·.untold) = (s.sessions[j]?).map (·.untold)
  cancelled : ∀ t ∈ s'.clock.queue, t.cancelled = true → t ∈ s.clock.queue ∨ s'.HasEnded t.owner
  fewer : s'.reactionsLeft ≤ s.reactionsLeft + more

namespace Leads

theorem refl (s : Playback) : Leads but 0 s s :=
  ⟨fun _ h => h, fun _ _ _ => rfl, fun _ ht _ => .inl ht, Nat.le_refl _⟩

/-- That more reactions may come of a state makes no difference. -/
theorem mono (h : Leads but 0 s s') (more : Nat) : Leads but more s s' :=
  { h with fewer := Nat.le_add_right_of_le h.fewer }

theorem trans {s₁ s₂ s₃ : Playback} (h : Leads but 0 s₁ s₂) (h' : Leads but more s₂ s₃) :
    Leads but more s₁ s₃ where
  ended j hj := h'.ended j (h.ended j hj)
  same j hbut hj := (h'.same j hbut (h.ended j hj)).trans (h.same j hbut hj)
  cancelled t ht hcancelled := by
    rcases h'.cancelled t ht hcancelled with ht | ht
    · exact (h.cancelled t ht hcancelled).imp_right (h'.ended t.owner)
    · exact .inr ht
  fewer := Nat.le_trans h'.fewer (Nat.add_le_add_right h.fewer more)

/-- Where every ended session stays as it is, so do all but one. -/
theorem but_any (h : Leads none more s s') : Leads but more s s' :=
  { h with same := fun j _ hj => h.same j (by simp) hj }

/-- The exception is none if that session had not ended before. -/
theorem of_not_hasEnded (h : Leads (some id) more s s') (hid : ¬ s.HasEnded id) : Leads none more s s' :=
  { h with
    same := fun j _ hj => h.same j (fun heq => hid (Option.some.inj heq ▸ hj)) hj }

/-- A step that touches neither sessions nor timers nor listeners. -/
theorem of_eq (hsessions : s'.sessions = s.sessions) (hclock : s'.clock = s.clock)
    (hlisteners : s'.listeners = s.listeners) : Leads but 0 s s' where
  ended _ h := (HasEnded.congr hsessions).mpr h
  same _ _ _ := by rw [hsessions]
  cancelled _ ht _ := .inl (hclock ▸ ht)
  fewer := Nat.le_of_eq (by rw [reactionsLeft, reactionsLeft, hlisteners, Nat.add_zero])

theorem through (call : Output → Output.Effect) : Leads but 0 s (s.through call) := of_eq rfl rfl rfl

theorem setCursor (i : Nat) (event : Option Nat) : Leads but 0 s (s.setCursor i event) :=
  of_eq rfl rfl rfl

theorem record (e : Entry) : Leads but 0 s (s.record e) := of_eq rfl rfl rfl

/-- A report that a listener lets pass. -/
theorem skipped {i : Nat} {l : Listener} (hl : s.listeners[i]? = some l) (skip : Nat) :
    Leads but 0 s (s.setListener i { l with skip }) where
  ended _ h := h
  same _ _ _ := rfl
  cancelled _ ht _ := .inl ht
  fewer := Nat.le_of_eq (reactionsLeft_skipped hl skip)

/-- A listener is added, from which so many reactions may come. -/
theorem addListener (l : Listener) :
    Leads but (l.times * l.reaction.count) s (s.addListener l) where
  ended _ h := h
  same _ _ _ := rfl
  cancelled _ ht _ := .inl ht
  fewer := Nat.le_of_eq (reactionsLeft_addListener l)

theorem foldl {α : Type} {f : Playback → α → Playback} (h : ∀ s a, Leads but 0 s (f s a))
    (as : List α) (s : Playback) : Leads but 0 s (as.foldl f s) := by
  induction as generalizing s with
  | nil => exact refl s
  | cons a as ih => exact (h s a).trans (ih (f s a))

/-- An update that does not touch the phase of the session. -/
theorem update {f : Session → Session} (hf : ∀ session, (f session).phase = session.phase) :
    Leads (some id) 0 s (s.update id f) where
  ended _ h := (hasEnded_update_iff hf).mpr h
  same _ hbut _ := by
    rw [sessions_update_of_ne fun heq => hbut (congrArg some heq)]
  cancelled _ ht _ := .inl ht
  fewer := Nat.le_refl _

/-- An update of a session that has not ended. -/
theorem update_of_not_hasEnded {f : Session → Session} (h : ¬ s.HasEnded id) :
    Leads but 0 s (s.update id f) where
  ended j hj := by
    have hne : id ≠ j := fun heq => h (heq.symm ▸ hj)
    exact (hasEnded_update_of_ne hne).mpr hj
  same j _ hj := by
    have hne : id ≠ j := fun heq => h (heq.symm ▸ hj)
    rw [sessions_update_of_ne hne]
  cancelled _ ht _ := .inl ht
  fewer := Nat.le_refl _

/-- What is told of a session makes no difference. -/
theorem resolve (how : Ending) : Leads but 0 s (s.update id (·.resolve how)) where
  ended _ h := (hasEnded_update_iff (f := (·.resolve how)) fun _ => rfl).mpr h
  same j _ _ := by
    by_cases heq : id = j
    · subst heq
      cases hsession : s.sessions[id]? with
      | none => simp [hsession]
      | some session => simp [hsession, Session.untold, Session.resolve]
    · rw [sessions_update_of_ne heq]
  cancelled _ ht _ := .inl ht
  fewer := Nat.le_refl _

theorem after (delay : Binary64) (task : Task) : Leads but 0 s (s.after delay id task) where
  ended _ h := h
  same _ _ _ := rfl
  cancelled t ht hcancelled := by
    rcases Clock.mem_insert.mp ht with rfl | ht
    · exact Bool.noConfusion hcancelled
    · exact .inl ht
  fewer := Nat.le_refl _

end Leads

/-! ## Ending sessions -/

theorem hasEnded_conclude_self (how : Ending) (hid : id < s.sessions.length) :
    (s.conclude id how).HasEnded id :=
  ⟨{ s.sessions[id] with phase := .ended how }, sessions_update_self (List.getElem?_eq_getElem hid),
    rfl⟩

theorem Leads.conclude (how : Ending) (hid : id < s.sessions.length) :
    Leads (some id) 0 s (s.conclude id how) where
  ended j hj := by
    by_cases h : id = j
    · subst h
      exact hasEnded_conclude_self how hid
    · have hsessions : (s.conclude id how).sessions =
        (s.update id fun session => { session with phase := .ended how }).sessions := rfl
      exact (HasEnded.congr hsessions).mpr ((hasEnded_update_of_ne h).mpr hj)
  same j hbut _ := by
    have hne : id ≠ j := fun heq => hbut (congrArg some heq)
    have hsessions : (s.conclude id how).sessions[j]? = s.sessions[j]? := sessions_update_of_ne hne
    rw [hsessions]
  cancelled t ht hcancelled := by
    -- a timer that has been cancelled just now belongs to the session that has ended
    have hqueue : t ∈ (s.clock.cancel id).queue := ht
    simp only [Clock.cancel] at hqueue
    split at hqueue
    · obtain ⟨u, hu, rfl⟩ := List.mem_map.mp hqueue
      by_cases howner : u.owner = id
      · have hended := hasEnded_conclude_self how hid
        rw [← howner] at hended ⊢
        exact .inr hended
      · rw [Clock.cancelIf_of_ne howner]
        exact .inl hu
    · exact .inl hqueue
  fewer := Nat.le_refl _

theorem leads_release (id : Nat) (part : Part) : Leads (some id) 0 s (release id part s) := by
  simp only [release]
  split
  · exact .refl s
  · have hdrop : Leads (some id) 0 s (s.update id (·.drop part.index)) := .update fun _ => rfl
    exact hdrop.trans (.through _)

section Reporting

variable (hemit : ∀ r s, Leads none 0 s (emit r s))
include hemit

theorem leads_leave (s : Playback) (part : Part) : Leads (some id) 0 s (leave emit id s part) := by
  simp only [leave]
  split
  · have hcursor := (leads_release id part).trans
      (.setCursor (s := release id part s) part.performer none)
    exact hcursor.trans (hemit ..).but_any
  · exact leads_release id part

theorem leads_finish (how : Ending) : Leads none 0 s (finish emit id how s) := by
  simp only [finish]
  split
  · exact .refl s
  split
  · exact .refl s
  rename_i session hsession hlive
  have hid := (List.getElem?_eq_some_iff.mp hsession).1
  have hnot : ¬ s.HasEnded id := by
    rintro ⟨other, hother, hended⟩
    rw [hsession, Option.some.injEq] at hother
    exact hlive (hother ▸ hended)
  refine Leads.of_not_hasEnded ?_ hnot
  exact ((Leads.conclude how hid).trans (.foldl (leads_leave hemit) ..)).trans
    (.update fun _ => rfl)

theorem leads_stop : Leads none 0 s (stop emit s) := by
  simp only [stop]
  split
  · exact .refl s
  · exact (leads_finish hemit .cancelled).trans (hemit ..)

theorem leads_clear (fuel : Nat) : Leads none 0 s (clear emit fuel s) := by
  induction fuel generalizing s with
  | zero => exact .refl s
  | succ fuel ih =>
    simp only [clear]
    split
    · exact .refl s
    · exact (leads_finish hemit .cancelled).trans ih

end Reporting

/-! ## Starting sessions -/

theorem leads_enter (plan : Plan) : Leads (some id) 0 s (enter id plan s) := by
  have hpart : Leads (some id) 0 s (s.update id fun session =>
      { session with parts := session.parts ++ [plan.part] }) := .update fun _ => rfl
  have hstrike (s : Playback) (p : Binary64 × Nat) :
      Leads (some id) 0 s (s.after p.1 id (.strike plan.part p.2)) := .after ..
  exact ((hpart.trans (.through _)).trans (.foldl hstrike ..)).trans (.after ..)

/-- While its parts enter it, a session does not end. -/
theorem hasEnded_enter_iff (plan : Plan) : (enter id plan s).HasEnded j ↔ s.HasEnded j := by
  have hsessions : (enter id plan s).sessions = (s.update id fun session =>
      { session with parts := session.parts ++ [plan.part] }).sessions := enter_sessions plan
  rw [HasEnded.congr hsessions]
  exact hasEnded_update_iff fun _ => rfl

theorem leads_enterAll (id : Nat) (speed : Number) (cast : List (Nat × Nat)) :
    Leads (some id) 0 s (enterAll id speed cast s).2 ∧
      ((enterAll id speed cast s).2.HasEnded j ↔ s.HasEnded j) := by
  induction cast generalizing s with
  | nil => exact ⟨.refl s, .rfl⟩
  | cons place rest ih =>
    obtain ⟨index, performer⟩ := place
    simp only [enterAll]
    split
    · exact ih
    split
    · exact ⟨.refl s, .rfl⟩
    · exact ⟨(leads_enter _).trans ih.1, ih.2.trans (hasEnded_enter_iff _)⟩

theorem leads_launch (h : ¬ s.HasEnded id) : Leads but 0 s (launch id s) := by
  simp only [launch]
  split
  · exact .refl s
  · exact (Leads.after ..).trans (.update_of_not_hasEnded h)

/-- A new session has not ended. -/
theorem not_hasEnded_begin (speed : Number) :
    ¬ (s.begin speed).HasEnded s.sessions.length := by
  rintro ⟨session, hsession, hended⟩
  simp only [begin, List.getElem?_concat_length, Option.some.injEq] at hsession
  subst hsession
  exact Bool.noConfusion hended

theorem leads_begin (speed : Number) : Leads but 0 s (s.begin speed) where
  ended _ := by
    rintro ⟨session, hsession, hended⟩
    have hid := (List.getElem?_eq_some_iff.mp hsession).1
    exact ⟨session, (List.getElem?_append_left hid).trans hsession, hended⟩
  same _ _ := by
    rintro ⟨session, hsession, -⟩
    simp only [begin, List.getElem?_append_left (List.getElem?_eq_some_iff.mp hsession).1]
  cancelled _ ht _ := .inl ht
  fewer := Nat.le_refl _

section Reporting

variable (hemit : ∀ r s, Leads none 0 s (emit r s))
include hemit

theorem leads_play (performers : List Nat) (speed : Number) :
    Leads none 0 s (play emit performers speed s).2 := by
  simp only [play]
  split
  · exact .refl s
  split
  · exact .refl s
  have hclear := (leads_stop hemit (s := s)).trans
    (leads_clear hemit ((s.stop emit).reactionsLeft + 1))
  generalize clear emit ((s.stop emit).reactionsLeft + 1) (s.stop emit) = t at hclear ⊢
  have hnot := not_hasEnded_begin (s := t) speed
  have henter := leads_enterAll (s := t.begin speed) (j := t.sessions.length)
    t.sessions.length speed (s.castOf performers)
  have hstart := hclear.trans ((leads_begin speed).trans (henter.1.of_not_hasEnded hnot))
  split
  · next heq => rwa [heq] at hstart
  · next heq =>
    rw [heq] at hstart henter
    exact hstart.trans (leads_launch fun h => hnot (henter.2.mp h))

/-- Besides a reaction itself, only the reactions that it lets come are left after it. -/
theorem leads_act (r : Reaction) (s : Playback) : Leads none (r.count - 1) s (act emit r s) := by
  cases r with
  | log => exact .refl s
  | fail => exact .refl s
  | stop => exact leads_stop hemit
  | play performers speed => exact leads_play hemit performers _
  | listen topic skip times reaction => exact .addListener ⟨topic, skip, times, reaction⟩
  | resolve session => exact .resolve .cancelled
  | assign performer values => exact .of_eq rfl rfl rfl
  | panic => exact .through _

end Reporting

/-! ## Reporting -/

section Acting

variable {act : Reaction → Playback → Playback}
  (hact : ∀ r s, Leads none (r.count - 1) s (act r s))
include hact

/-- A reaction that is used makes up for more than those that it lets come. -/
theorem reactionsLeft_act_lt {i times : Nat} {l : Listener} (hl : s.listeners[i]? = some l)
    (htimes : l.times = times + 1) :
    (act l.reaction ((s.setListener i { l with times }).record
      (.reaction l.reaction))).reactionsLeft < s.reactionsLeft := by
  have hfewer := (hact l.reaction
    ((s.setListener i { l with times }).record (.reaction l.reaction))).fewer
  have hused := reactionsLeft_used hl htimes
  have hcount := l.reaction.count_pos
  have hrecord : ((s.setListener i { l with times }).record (.reaction l.reaction)).reactionsLeft =
      (s.setListener i { l with times }).reactionsLeft := rfl
  omega

/-- A listener who reacts leads on. -/
theorem leads_used {i times : Nat} {l : Listener} (hl : s.listeners[i]? = some l)
    (htimes : l.times = times + 1) :
    Leads none 0 s (act l.reaction
      ((s.setListener i { l with times }).record (.reaction l.reaction))) where
  ended j hj := (hact ..).ended j hj
  same j hbut hj := (hact l.reaction
    ((s.setListener i { l with times }).record (.reaction l.reaction))).same j hbut hj
  cancelled t ht hcancelled := (hact ..).cancelled t ht hcancelled
  fewer := Nat.le_of_lt (reactionsLeft_act_lt hact hl htimes)

theorem leads_react (s : Playback) (i : Nat) : Leads none 0 s (react act s i) := by
  simp only [react]
  split
  · exact .refl s
  next l hl =>
    split
    · exact .skipped hl _
    · next htimes => exact leads_used hact hl htimes
    · exact .refl s

theorem leads_emitWith (r : Report) (s : Playback) : Leads none 0 s (emitWith act r s) :=
  (Leads.record (.report r)).trans (.foldl (leads_react hact) ..)

end Acting

theorem leads_emitWithin (depth : Nat) (r : Report) (s : Playback) :
    Leads none 0 s (emitWithin depth r s) := by
  induction depth generalizing r s with
  | zero => exact leads_emitWith (fun _ s => (Leads.refl s).mono _) r s
  | succ depth ih => exact leads_emitWith (leads_act ih) r s

theorem leads_emit (r : Report) (s : Playback) : Leads none 0 s (Playback.emit r s) :=
  leads_emitWithin s.reactionsLeft r s

/-! ## Timers -/

theorem leads_sound (id : Nat) (part : Part) (event : Nat) (note : Midi.Data) (seconds : Binary64) :
    Leads (some id) 0 s (sound id part event note seconds s) := by
  refine Leads.trans ?_ (.after ..)
  refine Leads.trans ?_ (.update fun _ => rfl)
  exact (Leads.setCursor ..).trans (.through _)

theorem leads_strike (part : Part) (event : Nat) (h : ¬ s.HasEnded id) :
    Leads none 0 s (strike Playback.emit id part event s).2 := by
  refine Leads.of_not_hasEnded ?_ h
  have hplaying : Leads (some id) 0 s (s.update id fun session => { session with phase := .playing }) :=
    .update_of_not_hasEnded h
  simp only [strike]
  split
  · exact hplaying
  split
  · exact hplaying
  · exact hplaying
  have hrelease := hplaying.trans (leads_release id part)
  split
  · exact hrelease
  rename_i note _ _ seconds _
  have hcursor := (hrelease.trans (leads_sound id part event note seconds)).trans
    (leads_emit (.cursor part.index (some event)) _).but_any
  dsimp only
  split
  · exact hcursor.trans (leads_emit ..).but_any
  · exact hcursor

theorem leads_releaseEvent (part : Part) (event : Nat) :
    Leads (some id) 0 s (releaseEvent id part event s) := by
  rcases releaseEvent_eq_or id part event s with heq | heq
  · rw [heq]
    exact leads_release id part
  · rw [heq]
    exact Leads.refl s

theorem leads_endPart (part : Part) :
    Leads (some id) 0 s (endPart Playback.emit id part s) := by
  have hcursor := ((leads_release (s := s) id part).trans
    (.setCursor part.performer none)).trans (leads_emit (.cursor part.index none) _).but_any
  simp only [endPart]
  split
  · exact hcursor.trans (leads_emit ..).but_any
  · exact hcursor

theorem leads_fire (t : Timer Task) : Leads none 0 s (fire Playback.emit t s).2 := by
  simp only [fire]
  split
  · exact .refl s
  split
  · rename_i hcurrent
    split
    · exact leads_strike _ _ hcurrent.not_hasEnded
    · exact (leads_releaseEvent ..).of_not_hasEnded hcurrent.not_hasEnded
    · exact (leads_endPart _).of_not_hasEnded hcurrent.not_hasEnded
    · exact (leads_finish leads_emit .completed).trans (leads_emit ..)
  · exact .refl s

theorem leads_moved (now : Binary64) {queue : List (Timer Task)}
    (h : ∀ t ∈ queue, t ∈ s.clock.queue) : Leads none 0 s (s.moved now queue) where
  ended _ hid := hid
  same _ _ _ := rfl
  cancelled t ht _ := .inl (h t ht)
  fewer := Nat.le_refl _

theorem leads_advanceTo (target : Binary64) (fuel : Nat) :
    Leads none 0 s (advanceTo target fuel s).2 := by
  induction fuel generalizing s with
  | zero => exact leads_moved target fun _ ht => ht
  | succ fuel ih =>
    cases hqueue : s.clock.queue with
    | nil =>
      rw [advanceTo_nil _ _ hqueue]
      exact leads_moved target (by simp)
    | cons t rest =>
      by_cases hdue : t.due ≤ target + Clock.slack
      · rw [advanceTo_of_due fuel hqueue hdue]
        -- it makes no difference when the timer comes up
        generalize (if t.cancelled then s.clock.now else t.due) = now
        have hfire : Leads none 0 s (fire Playback.emit t (s.moved now rest)).2 :=
          (leads_moved now fun u hu => hqueue ▸ List.mem_cons_of_mem t hu).trans (leads_fire t)
        split
        · next heq => rwa [heq] at hfire
        · next heq =>
          rw [heq] at hfire
          exact hfire.trans ih
      · rw [advanceTo_of_not_due _ hqueue hdue]
        exact leads_moved target fun _ ht => hqueue ▸ ht

/-! ## Reactions that are used -/

/-- No session is active, with at most some number of reactions left, or there are fewer. -/
def Quiet (n : Nat) (s : Playback) : Prop :=
  s.current = none ∧ s.reactionsLeft ≤ n ∨ s.reactionsLeft < n

/-- A report makes a session active only through a reaction. -/
theorem quiet_emitWith {act : Reaction → Playback → Playback}
    (hact : ∀ r s, Leads none (r.count - 1) s (act r s)) {n : Nat} (r : Report) (hs : s.Quiet n) :
    (emitWith act r s).Quiet n := by
  have hreact (s : Playback) (hs : s.Quiet n) (i : Nat) : (react act s i).Quiet n := by
    have hfewer := (leads_react hact s i).fewer
    -- where nothing is active only a reaction can start a session, and then it is used up
    rcases hs with ⟨hidle, hle⟩ | hlt
    · simp only [react]
      split
      · exact .inl ⟨hidle, hle⟩
      next l hl =>
        split
        · next skip _ => exact .inl ⟨hidle, Nat.le_trans (reactionsLeft_skipped hl skip).le hle⟩
        · next htimes =>
          exact .inr (Nat.lt_of_lt_of_le (reactionsLeft_act_lt hact hl htimes) hle)
        · exact .inl ⟨hidle, hle⟩
    · exact .inr (Nat.lt_of_le_of_lt hfewer hlt)
  have hfoldl (is : List Nat) : ∀ s : Playback, s.Quiet n → (is.foldl (react act) s).Quiet n := by
    induction is with
    | nil => exact fun _ hs => hs
    | cons i is ih => exact fun s hs => ih _ (hreact s hs i)
  exact hfoldl _ _ hs

theorem quiet_emitWithin (depth : Nat) {n : Nat} (r : Report) (hs : s.Quiet n) :
    (emitWithin depth r s).Quiet n := by
  cases depth with
  | zero => exact quiet_emitWith (fun _ s => (Leads.refl s).mono _) r hs
  | succ depth => exact quiet_emitWith (leads_act (leads_emitWithin depth)) r hs

section Reporting

variable (hquiet : ∀ {n : Nat} {s : Playback} (r : Report), s.Quiet n → (emit r s).Quiet n)
include hquiet

/-- When the active session has ended, another one is active only through a reaction. -/
theorem quiet_finish (how : Ending) (hid : s.IsCurrent id) {n : Nat} (hs : s.reactionsLeft ≤ n) :
    (finish emit id how s).Quiet n := by
  obtain ⟨hcurrent, session, hsession, hlive⟩ := hid
  have hleave (s : Playback) (part : Part) (hs : s.Quiet n) : (leave emit id s part).Quiet n := by
    have hrelease : (release id part s).Quiet n := by
      simp only [release]
      split <;> exact hs
    simp only [leave]
    split
    · exact hquiet _ hrelease
    · exact hrelease
  have hfoldl (parts : List Part) :
      ∀ s : Playback, s.Quiet n → (parts.foldl (leave emit id) s).Quiet n := by
    induction parts with
    | nil => exact fun _ hs => hs
    | cons part parts ih => exact fun s hs => ih _ (hleave s part hs)
  have hconclude : (s.conclude id how).Quiet n := .inl ⟨if_pos hcurrent, hs⟩
  rw [finish_of_live hsession hlive]
  exact hfoldl _ _ hconclude

end Reporting

end Monody.Playback
