import Mathlib.Data.List.Chain
import Monody.Proofs.Playback.Admissible
import Monody.Proofs.Playback.Chronicle
import Monody.Proofs.Playback.State

/-!
# What every change in a chronicle keeps

The phases of the sessions only move forwards, an ended session has been told its result by the time
that its end has returned, and nothing is sent or told on account of it after that. Between the
moment when a session ends and the return of the call that ended it listeners may do anything, so the
sessions that are leaving are kept apart.

## Main definitions

* `Phase.MayBecome` — how the phase of a session may change at once
* `Spares`, `Abides` — changes that end no session, and those that touch neither phases nor results
* `Lawful`, `Announced` — what holds of the phases and of the results all the time
* `Sound` — both of these, and no session is being built

## Main results

* `Lawful.become`, `Announced.become`, `Sound.abide` — changes that end no session
* `Sound.tellResult`, `Sound.resolveFrom` — the result of a session is told
* `Sound.conclude`, `Sound.return` — a session ends, and the call that ended it returns
-/

namespace Monody.Playback

/-! ## Phases and results -/

/-- How the phase of a session may change at once. A session that is not there yet has none. -/
inductive Phase.MayBecome : Option Phase → Option Phase → Prop
  | same (p : Option Phase) : MayBecome p p
  | build : MayBecome none (some .idle)
  | schedule : MayBecome (some .idle) (some .scheduled)
  | play : MayBecome (some .scheduled) (some .playing)
  | cutShort (how : Ending) : MayBecome (some .scheduled) (some (.ended how))
  | finish (how : Ending) : MayBecome (some .playing) (some (.ended how))

/-- How far a session has come, if it is there. -/
def phase? (s : Playback) (id : Nat) : Option Phase := (s.sessions[id]?).map (·.phase)

/-- A session is there and has not ended. -/
def IsUnfinished (s : Playback) (id : Nat) : Prop :=
  ∃ p, s.phase? id = some p ∧ ∀ how, p ≠ .ended how

/-- The active session is the only one that has not ended. -/
def IsSolitary (s : Playback) : Prop := ∀ id, s.current = some id ↔ s.IsUnfinished id

section Phases

variable {s s' : Playback} {id j : Nat} {how : Ending}

theorem phase?_of_getElem? {session : Session} (h : s.sessions[id]? = some session) :
    s.phase? id = some session.phase := by
  rw [phase?, h]
  rfl

theorem isUnfinished_of_getElem? {session : Session} (h : s.sessions[id]? = some session)
    (hlive : ¬ session.hasEnded = true) : s.IsUnfinished id := by
  refine ⟨session.phase, phase?_of_getElem? h, fun how hended => hlive ?_⟩
  rw [Session.hasEnded, hended]

theorem IsUnfinished.phase?_ne (h : s.IsUnfinished id) : s.phase? id ≠ some (.ended how) := by
  obtain ⟨p, hp, hlive⟩ := h
  rw [hp]
  exact fun heq => hlive how (Option.some.inj heq)

theorem isUnfinished_congr (h : s'.phase? id = s.phase? id) :
    s'.IsUnfinished id ↔ s.IsUnfinished id := by
  rw [IsUnfinished, IsUnfinished, h]

theorem isCurrent_iff : s.IsCurrent id ↔ s.current = some id ∧ s.IsUnfinished id := by
  refine and_congr_right fun _ => ⟨?_, ?_⟩
  · rintro ⟨session, hsession, hlive⟩
    exact isUnfinished_of_getElem? hsession (by simp [hlive])
  · rintro ⟨p, hp, hlive⟩
    obtain ⟨session, hsession, rfl⟩ := Option.map_eq_some_iff.mp hp
    refine ⟨session, hsession, ?_⟩
    rw [Session.hasEnded]
    split
    · next how hended => exact absurd hended (hlive how)
    · rfl

theorem phase?_update {f : Session → Session} :
    (s.update id f).phase? j =
      if id = j then (s.sessions[j]?).map fun session => (f session).phase else s.phase? j := by
  rw [phase?, phase?, update_sessions, List.getElem?_modify]
  cases s.sessions[j]? <;> split <;> rfl

theorem phase?_update_of_eq {f : Session → Session} (hf : ∀ session, (f session).phase = session.phase) :
    (s.update id f).phase? j = s.phase? j := by
  rw [phase?_update]
  split
  · simp only [hf]; rfl
  · rfl

theorem result?_update {f : Session → Session} :
    (s.update id f).result? j =
      if id = j then (s.sessions[j]?).bind fun session => (f session).result else s.result? j := by
  rw [result?, result?, update_sessions, List.getElem?_modify]
  cases s.sessions[j]? <;> split <;> rfl

theorem result?_update_of_eq {f : Session → Session}
    (hf : ∀ session, (f session).result = session.result) :
    (s.update id f).result? j = s.result? j := by
  rw [result?_update]
  split
  · simp only [hf]; rfl
  · rfl

/-- A session that is told its result for the first time has it. -/
theorem result?_resolve_self (how : Ending) (hthere : id < s.sessions.length) (hopen : s.result? id = none) :
    (s.update id (·.resolve how)).result? id = some how := by
  rw [result?, List.getElem?_eq_getElem hthere, Option.bind_some] at hopen
  rw [result?_update, if_pos rfl, List.getElem?_eq_getElem hthere, Option.bind_some,
    Session.resolve, hopen]
  rfl

theorem result?_resolve_of_ne (how : Ending) (hne : id ≠ j) :
    (s.update id (·.resolve how)).result? j = s.result? j :=
  result?_update.trans (if_neg hne)

end Phases

/-! ## Changes of the state -/

/-- A change of the state that ends no session. -/
structure Spares (s s' : Playback) : Prop where
  admissible : s.Admissible → s'.Admissible
  solitary : s.IsSolitary → s'.IsSolitary
  phase : ∀ id, Phase.MayBecome (s.phase? id) (s'.phase? id)
  ended : ∀ id how, s'.phase? id = some (.ended how) ↔ s.phase? id = some (.ended how)
  log : s.log <+: s'.log

/-- A change of the state that touches neither the phases nor the results of the sessions. -/
structure Abides (s s' : Playback) : Prop where
  admissible : s.Admissible → s'.Admissible
  current : s'.current = s.current
  phase : ∀ id, s'.phase? id = s.phase? id
  result : ∀ id, s'.result? id = s.result? id
  log : s.log <+: s'.log

namespace Abides

variable {s s' : Playback} {id : Nat}

theorem spares (h : Abides s s') : Spares s s' where
  admissible := h.admissible
  solitary hs id := by rw [h.current, isUnfinished_congr (h.phase id), hs id]
  phase id := h.phase id ▸ .same _
  ended id how := by rw [h.phase]
  log := h.log

theorem refl (s : Playback) : Abides s s := ⟨id, rfl, fun _ => rfl, fun _ => rfl, List.prefix_rfl⟩

theorem trans {s₁ s₂ s₃ : Playback} (h : Abides s₁ s₂) (h' : Abides s₂ s₃) : Abides s₁ s₃ where
  admissible := h'.admissible ∘ h.admissible
  current := h'.current.trans h.current
  phase id := (h'.phase id).trans (h.phase id)
  result id := (h'.result id).trans (h.result id)
  log := h.log.trans h'.log

/-- A change of neither the voices nor the sessions. -/
theorem of_sessions_eq (hadmissible : s.Admissible → s'.Admissible)
    (hcurrent : s'.current = s.current) (hsessions : s'.sessions = s.sessions)
    (hlog : s.log <+: s'.log) : Abides s s' where
  admissible := hadmissible
  current := hcurrent
  phase _ := by rw [phase?, phase?, hsessions]
  result _ := by rw [result?, result?, hsessions]
  log := hlog

theorem record (e : Entry) : Abides s (s.record e) :=
  .of_sessions_eq (·.congr rfl rfl rfl) rfl rfl (List.prefix_append ..)

theorem through (call : Output → Output.Effect) : Abides s (s.through call) :=
  .of_sessions_eq (·.congr rfl rfl rfl) rfl rfl (List.prefix_append ..)

theorem setListener (i : Nat) {l : Listener} (hl : l.reaction.IsAdmissible) :
    Abides s (s.setListener i l) :=
  .of_sessions_eq (·.setListener i hl) rfl rfl List.prefix_rfl

theorem addListener {l : Listener} (hl : l.reaction.IsAdmissible) : Abides s (s.addListener l) :=
  .of_sessions_eq (·.addListener hl) rfl rfl List.prefix_rfl

theorem assign (performer : Nat) {values : Assignment} (hvalues : ∀ x ∈ values.volume, 0 ≤ x ∧ x ≤ 1) :
    Abides s (s.assign performer values) :=
  .of_sessions_eq (·.assign performer hvalues) rfl rfl List.prefix_rfl

theorem setCursor (i : Nat) (event : Option Nat) : Abides s (s.setCursor i event) :=
  .of_sessions_eq (·.setCursor i event) rfl rfl List.prefix_rfl

theorem after (delay : Binary64) (task : Task) : Abides s (s.after delay id task) :=
  .of_sessions_eq (·.congr rfl rfl rfl) rfl rfl List.prefix_rfl

theorem clock (clock : Clock Task) : Abides s { s with clock } :=
  .of_sessions_eq (·.congr rfl rfl rfl) rfl rfl List.prefix_rfl

theorem update {f : Session → Session} (hphase : ∀ session, (f session).phase = session.phase)
    (hresult : ∀ session, (f session).result = session.result) : Abides s (s.update id f) where
  admissible h := h.congr rfl rfl rfl
  current := rfl
  phase _ := phase?_update_of_eq hphase
  result _ := result?_update_of_eq hresult
  log := List.prefix_rfl

theorem foldl {α : Type} {f : Playback → α → Playback} (h : ∀ s a, Abides s (f s a)) (as : List α)
    (s : Playback) : Abides s (as.foldl f s) := by
  induction as generalizing s with
  | nil => exact refl s
  | cons a as ih => exact (h s a).trans (ih (f s a))

theorem release (id : Nat) (part : Part) : Abides s (release id part s) := by
  simp only [Playback.release]
  split
  · exact refl s
  · refine trans ?_ (through _)
    exact update (fun _ => rfl) fun _ => rfl

theorem sound (id : Nat) (part : Part) (event : Nat) (note : Midi.Data) (seconds : Binary64) :
    Abides s (sound id part event note seconds s) := by
  refine trans ?_ (after ..)
  refine trans ?_ (update (fun _ => rfl) fun _ => rfl)
  exact (setCursor ..).trans (through _)

theorem releaseEvent (id : Nat) (part : Part) (event : Nat) :
    Abides s (releaseEvent id part event s) := by
  rcases releaseEvent_eq_or id part event s with heq | heq
  · rw [heq]
    exact release id part
  · rw [heq]
    exact refl s

theorem enter (plan : Plan) : Abides s (enter id plan s) := by
  have hstrike (s : Playback) (p : Binary64 × Nat) :
      Abides s (s.after p.1 id (.strike plan.part p.2)) := after ..
  refine trans (trans ?_ (foldl hstrike plan.strikes _)) (after ..)
  refine trans ?_ (through _)
  exact update (fun _ => rfl) fun _ => rfl

/-- Where all voices can be heard, every performer of a cast can enter. -/
theorem enterAll {speed : Number} (hspeed : speed.IsSpeed) (id : Nat) (cast : List (Nat × Nat))
    (hs : s.Admissible) : ∃ s', enterAll id speed cast s = (.ok (), s') ∧ Abides s s' := by
  induction cast generalizing s with
  | nil => exact ⟨s, rfl, refl s⟩
  | cons place rest ih =>
    obtain ⟨index, performer⟩ := place
    simp only [Playback.enterAll]
    split
    · exact ih hs
    · next p hp =>
      have haudible := hs.audible p (List.mem_of_getElem? hp)
      obtain ⟨plan, hplan, -⟩ := planOf_ok hspeed haudible index performer
      have henter : Abides s (s.enter id plan) := enter plan
      obtain ⟨s', heq, hs'⟩ := ih (henter.admissible hs)
      rw [hplan]
      exact ⟨s', heq, henter.trans hs'⟩

end Abides

theorem Spares.of_abides {s₁ s₂ s₃ : Playback} (h : Abides s₁ s₂) (h' : Spares s₂ s₃) :
    Spares s₁ s₃ where
  admissible := h'.admissible ∘ h.admissible
  solitary := h'.solitary ∘ h.spares.solitary
  phase id := h.phase id ▸ h'.phase id
  ended id how := by rw [h'.ended, h.phase]
  log := h.log.trans h'.log

/-- An unfinished session goes on without ending. -/
theorem Spares.turn {s : Playback} {id : Nat} {p q : Phase} (hid : s.phase? id = some p)
    (hmay : Phase.MayBecome (some p) (some q)) (hp : ∀ how, p ≠ .ended how)
    (hq : ∀ how, q ≠ .ended how) {f : Session → Session} (hphase : ∀ session, (f session).phase = q) :
    Spares s (s.update id f) := by
  have hself : (s.update id f).phase? id = some q := by
    obtain ⟨session, hsession, -⟩ := Option.map_eq_some_iff.mp hid
    rw [phase?_update, if_pos rfl, hsession, Option.map_some, hphase]
  have hother {j : Nat} (hne : id ≠ j) : (s.update id f).phase? j = s.phase? j := by
    rw [phase?_update, if_neg hne]
  -- only the phase of this one session changes, and it has ended neither before nor after
  exact {
    admissible := (·.congr rfl rfl rfl)
    solitary := fun hs j => by
      rw [update_current, hs j]
      by_cases hne : id = j
      · subst hne
        exact ⟨fun _ => ⟨q, hself, hq⟩, fun _ => ⟨p, hid, hp⟩⟩
      · exact (isUnfinished_congr (hother hne)).symm
    phase := fun j => by
      by_cases hne : id = j
      · subst hne
        rwa [hid, hself]
      · exact hother hne ▸ .same _
    ended := fun j how => by
      by_cases hne : id = j
      · subst hne
        rw [hid, hself]
        simp [hp how, hq how]
      · rw [hother hne]
    log := List.prefix_rfl }

theorem phase?_begin {s : Playback} (speed : Number) (j : Nat) :
    (s.begin speed).phase? j = if j = s.sessions.length then some .idle else s.phase? j := by
  rw [phase?, phase?, begin]
  rcases Nat.lt_trichotomy j s.sessions.length with hlt | rfl | hgt
  · rw [List.getElem?_append_left hlt, if_neg (Nat.ne_of_lt hlt)]
  · rw [List.getElem?_concat_length, if_pos rfl]
    rfl
  · rw [if_neg (Nat.ne_of_gt hgt), List.getElem?_eq_none (by simpa using Nat.succ_le_of_lt hgt),
      List.getElem?_eq_none (Nat.le_of_lt hgt)]

theorem result?_begin {s : Playback} (speed : Number) (j : Nat) :
    (s.begin speed).result? j = s.result? j := by
  rw [result?, result?, begin]
  rcases Nat.lt_trichotomy j s.sessions.length with hlt | rfl | hgt
  · rw [List.getElem?_append_left hlt]
  · rw [List.getElem?_concat_length, List.getElem?_eq_none (Nat.le_refl _)]
    rfl
  · rw [List.getElem?_eq_none (by simpa using Nat.succ_le_of_lt hgt),
      List.getElem?_eq_none (Nat.le_of_lt hgt)]

/-- A session begins where none is active. -/
theorem Spares.begin {s : Playback} (hidle : s.current = none) (speed : Number) :
    Spares s (s.begin speed) := by
  have hnew : s.phase? s.sessions.length = none := by
    rw [phase?, List.getElem?_eq_none (Nat.le_refl _)]
    rfl
  -- the new session is the one place where anything differs, and there was none
  exact {
    admissible := (·.congr rfl rfl rfl)
    solitary := fun hs j => by
      have hnone : ¬ s.IsUnfinished j := fun hj => by
        rw [← hs j, hidle] at hj
        cases hj
      rw [IsUnfinished, phase?_begin]
      split
      · next heq =>
        subst heq
        exact ⟨fun _ => ⟨.idle, rfl, by simp⟩, fun _ => rfl⟩
      · next hne =>
        exact ⟨fun hj => absurd (Option.some.inj hj).symm hne, fun hj => absurd hj hnone⟩
    phase := fun j => by
      rw [phase?_begin]
      split
      · next heq =>
        rw [heq, hnew]
        exact .build
      · exact .same _
    ended := fun j how => by
      rw [phase?_begin]
      split
      · next heq => simp [heq, hnew]
      · rfl
    log := List.prefix_rfl }

theorem phase?_launch {s : Playback} {id : Nat} (hid : s.phase? id ≠ none) (j : Nat) :
    (s.launch id).phase? j = if id = j then some .scheduled else s.phase? j := by
  cases hsession : s.sessions[id]? with
  | none => simp [phase?, hsession] at hid
  | some session =>
    rw [launch, hsession]
    refine (phase?_update (s := s.after session.lastEnd id .complete)).trans ?_
    split
    · next heq =>
      subst heq
      rw [after_sessions, hsession]
      rfl
    · rfl

theorem result?_launch {s : Playback} {id : Nat} (j : Nat) :
    (s.launch id).result? j = s.result? j := by
  rw [launch]
  split
  · rfl
  · exact result?_update_of_eq (s := s.after _ id .complete) fun _ => rfl

/-- A session that is built is scheduled. -/
theorem Spares.launch {s : Playback} {id : Nat} (hid : s.phase? id = some .idle) :
    Spares s (s.launch id) := by
  obtain ⟨session, hsession, -⟩ := Option.map_eq_some_iff.mp hid
  have hafter : Abides s (s.after session.lastEnd id .complete) := .after ..
  rw [Playback.launch, hsession]
  refine .of_abides hafter ?_
  exact .turn ((hafter.phase id).trans hid) .schedule (by simp) (by simp) fun _ => rfl

/-- An unfinished session that has been built plays. -/
theorem Spares.play {s : Playback} {id : Nat} (hid : s.IsUnfinished id)
    (hbuilt : s.phase? id ≠ some .idle) :
    Spares s (s.update id fun session => { session with phase := .playing }) := by
  obtain ⟨p, hp, hlive⟩ := hid
  have hmay : Phase.MayBecome (some p) (some .playing) := by
    cases p with
    | idle => exact absurd hp hbuilt
    | scheduled => exact .play
    | playing => exact .same _
    | ended how => exact absurd rfl (hlive how)
  exact .turn hp hmay hlive (by simp) fun _ => rfl

/-! ## Deeds -/

/-- Signals, and reports of what the parts of a session do. -/
def Entry.IsAct : Entry → Prop
  | .signal _ => True
  | .report r => r.topic ∈ [.note, .cursor, .voiceEnd]
  | .reaction _ => False

/-- The entry of the log that a deed is. -/
def Deed.entry? : Deed → Option Entry
  | .entry _ e => some e
  | _ => none

/-- The session whose result playback tells. -/
def Deed.told? : Deed → Option Nat
  | .told id => some id
  | _ => none

/-- When the end of a session has returned, nothing is sent on account of it any more, and no note,
cursor or end of a part is reported. -/
def IsSilent (deeds : List Deed) : Prop :=
  deeds.Pairwise fun d d' => ∀ id e, d = .returned id → d' = .entry (some id) e → ¬ e.IsAct

/-- The phases of all sessions change as they may. -/
def IsCourse (states : List Playback) : Prop :=
  states.IsChain fun s s' => ∀ id, Phase.MayBecome (s.phase? id) (s'.phase? id)

namespace Chronicle

variable {c : Chronicle} {s : Playback} {session : Option Nat} {id : Nat} {d : Deed}

/-- The timer that completes a session has fired while the session was active. -/
def HasCompleted (c : Chronicle) (id : Nat) : Prop :=
  ∃ t, .fired t ∈ c.deeds ∧ t.owner = id ∧ t.task = .complete

/-- Some entries may be made on account of a session: its end has not returned, or they are no
acts. -/
def Permits (c : Chronicle) (session : Option Nat) (es : List Entry) : Prop :=
  ∀ id ∈ session, .returned id ∈ c.deeds → ∀ e ∈ es, ¬ e.IsAct

theorem permits_none (es : List Entry) : c.Permits none es := fun _ h => by cases h

theorem permits_of_not_mem (h : .returned id ∉ c.deeds) (es : List Entry) : c.Permits id es := by
  intro j hj hreturned
  obtain rfl : id = j := Option.some.inj hj
  exact absurd hreturned h

theorem permits_of_not_isAct {es : List Entry} (h : ∀ e ∈ es, ¬ e.IsAct) : c.Permits session es :=
  fun _ _ _ => h

/-- The entries that a change of the state makes. -/
def entriesOf (c : Chronicle) (s : Playback) : List Entry := s.log.drop c.state.log.length

theorem entriesOf_record (e : Entry) : c.entriesOf (c.state.record e) = [e] := List.drop_left

theorem deeds_become : (c.become session s).deeds = c.deeds ++ (c.entriesOf s).map (.entry session) :=
  rfl

theorem mem_deeds_become (hd : d.entry? = none) : d ∈ (c.become session s).deeds ↔ d ∈ c.deeds := by
  rw [deeds_become, List.mem_append, List.mem_map]
  refine or_iff_left ?_
  rintro ⟨e, -, rfl⟩
  exact Option.some_ne_none e hd

theorem mem_deeds_add {d' : Deed} : d ∈ (c.add d').deeds ↔ d ∈ c.deeds ∨ d = d' := by
  rw [add, List.mem_append, List.mem_singleton]

theorem permits_become {session' : Option Nat} {es : List Entry} :
    (c.become session s).Permits session' es ↔ c.Permits session' es := by
  simp only [Permits, mem_deeds_become (d := .returned _) rfl]

theorem hasCompleted_become : (c.become session s).HasCompleted id ↔ c.HasCompleted id :=
  exists_congr fun _ => and_congr_left fun _ => mem_deeds_become rfl

theorem told?_become :
    (c.become session s).deeds.filterMap Deed.told? = c.deeds.filterMap Deed.told? := by
  have hentries : ((c.entriesOf s).map (Deed.entry session)).filterMap Deed.told? = [] := by
    rw [List.filterMap_map]
    exact List.filterMap_eq_nil_iff.mpr fun _ _ => rfl
  rw [deeds_become, List.filterMap_append, hentries, List.append_nil]

theorem entry?_become (hlog : c.state.log <+: s.log)
    (h : c.deeds.filterMap Deed.entry? = c.state.log) :
    (c.become session s).deeds.filterMap Deed.entry? = s.log := by
  have hentries : ((c.entriesOf s).map (Deed.entry session)).filterMap Deed.entry? =
      c.entriesOf s := by
    rw [List.filterMap_map]
    exact List.filterMap_some
  rw [deeds_become, List.filterMap_append, hentries, h]
  exact List.prefix_iff_eq_append.mp hlog

theorem isSilent_become (h : IsSilent c.deeds) (hpermits : c.Permits session (c.entriesOf s)) :
    IsSilent (c.become session s).deeds := by
  rw [deeds_become, IsSilent, List.pairwise_append]
  refine ⟨h, List.pairwise_map.mpr (List.pairwise_of_forall fun e e' => ?_), ?_⟩
  · intro id e'' hreturned
    cases hreturned
  · intro d hd d' hd' id e hreturned hentry
    subst hreturned hentry
    obtain ⟨e', he', heq⟩ := List.mem_map.mp hd'
    obtain ⟨rfl, rfl⟩ := Deed.entry.inj heq
    exact hpermits id rfl hd e' he'

theorem isSilent_add (h : IsSilent c.deeds) (hd : d.entry? = none) : IsSilent (c.add d).deeds := by
  refine List.pairwise_append.mpr ⟨h, List.pairwise_singleton _ _, ?_⟩
  rintro d' - d'' hd'' id e - rfl
  rw [← List.mem_singleton.mp hd''] at hd
  exact absurd hd (Option.some_ne_none e)

theorem isCourse_become (h : IsCourse (c.past ++ [c.state]))
    (hphase : ∀ id, Phase.MayBecome (c.state.phase? id) (s.phase? id)) :
    IsCourse ((c.become session s).past ++ [(c.become session s).state]) := by
  have hpast : (c.become session s).past ++ [(c.become session s).state] =
      c.past ++ [c.state, s] := by
    simp [become]
  rw [hpast]
  exact List.isChain_append_cons_cons.mpr ⟨h, hphase, List.isChain_singleton s⟩

end Chronicle

/-! ## The invariant -/

/-- What holds of the phases all the time. The sessions that are leaving have ended in a certain way,
but the call that ended them has not returned. -/
structure Lawful (leaving : Nat → Ending → Prop) (c : Chronicle) : Prop where
  admissible : c.state.Admissible
  solitary : c.state.IsSolitary
  course : IsCourse (c.past ++ [c.state])
  log : c.deeds.filterMap Deed.entry? = c.state.log
  completed : ∀ id, c.state.phase? id = some (.ended .completed) ↔ c.HasCompleted id
  ended : ∀ id how, c.state.phase? id = some (.ended how) → leaving id how ∨ .returned id ∈ c.deeds
  left : ∀ id how, leaving id how →
    c.state.phase? id = some (.ended how) ∧ .returned id ∉ c.deeds
  returned : ∀ id, .returned id ∈ c.deeds → ∃ how, c.state.phase? id = some (.ended how)
  silent : IsSilent c.deeds

/-- What holds of the results all the time. A result is told once, by playback or from outside. -/
structure Announced (c : Chronicle) : Prop where
  once : (c.deeds.filterMap Deed.told?).Nodup
  untold : ∀ id, c.state.result? id = none →
    .told id ∉ c.deeds ∧ .toldOutside id ∉ c.deeds ∧ .returned id ∉ c.deeds
  told : ∀ id how, c.state.result? id = some how →
    c.state.phase? id = some (.ended how) ∧ .told id ∈ c.deeds ∧ .toldOutside id ∉ c.deeds ∨
      how = .cancelled ∧ .toldOutside id ∈ c.deeds ∧ .told id ∉ c.deeds

/-- Phases and results are in order, and no session is being built. -/
structure Sound (leaving : Nat → Ending → Prop) (c : Chronicle) : Prop
    extends Lawful leaving c, Announced c where
  built : ∀ id, c.state.phase? id ≠ some .idle

section Changes

variable {leaving : Nat → Ending → Prop} {c : Chronicle} {s : Playback} {session : Option Nat}
  {id : Nat} {how : Ending} {d : Deed}

open Chronicle

/-! ### Changes of the state -/

/-- The end of an unfinished session has not returned. -/
theorem Lawful.returned_not_mem (h : Lawful leaving c) (hid : c.state.IsUnfinished id) :
    .returned id ∉ c.deeds := by
  intro hreturned
  obtain ⟨how, hended⟩ := h.returned id hreturned
  exact hid.phase?_ne hended

theorem Lawful.become (h : Lawful leaving c) (session : Option Nat) (hs : Spares c.state s)
    (hpermits : c.Permits session (c.entriesOf s)) : Lawful leaving (c.become session s) where
  admissible := hs.admissible h.admissible
  solitary := hs.solitary h.solitary
  course := isCourse_become h.course hs.phase
  log := entry?_become hs.log h.log
  completed id := by
    rw [state_become, hs.ended, hasCompleted_become]
    exact h.completed id
  ended id how hended := by
    rw [state_become, hs.ended] at hended
    rw [mem_deeds_become rfl]
    exact h.ended id how hended
  left id how hleaving := by
    rw [state_become, hs.ended, mem_deeds_become rfl]
    exact h.left id how hleaving
  returned id hreturned := by
    rw [mem_deeds_become rfl] at hreturned
    simp only [state_become, hs.ended]
    exact h.returned id hreturned
  silent := isSilent_become h.silent hpermits

theorem Announced.become (h : Announced c) (session : Option Nat) (hs : Spares c.state s)
    (hresult : ∀ id, s.result? id = c.state.result? id) : Announced (c.become session s) where
  once := by
    rw [told?_become]
    exact h.once
  untold id := by
    rw [state_become, hresult, mem_deeds_become rfl, mem_deeds_become rfl, mem_deeds_become rfl]
    exact h.untold id
  told id how := by
    rw [state_become, hresult, hs.ended, mem_deeds_become rfl, mem_deeds_become rfl]
    exact h.told id how

/-- A change that touches no phase. -/
theorem Sound.abide (h : Sound leaving c) (session : Option Nat) (hs : Abides c.state s)
    (hpermits : c.Permits session (c.entriesOf s)) : Sound leaving (c.become session s) where
  toLawful := h.toLawful.become session hs.spares hpermits
  toAnnounced := h.toAnnounced.become session hs.spares hs.result
  built id := by
    rw [state_become, hs.phase]
    exact h.built id

/-! ### Deeds -/

/-- A deed that neither completes a session nor returns from its end. -/
theorem Lawful.add (h : Lawful leaving c) (hentry : d.entry? = none)
    (hfired : ∀ t, d = .fired t → t.task ≠ .complete) (hreturned : ∀ id, d ≠ .returned id) :
    Lawful leaving (c.add d) := by
  have hmem (id : Nat) : .returned id ∈ (c.add d).deeds ↔ .returned id ∈ c.deeds :=
    mem_deeds_add.trans (or_iff_left fun heq => hreturned id heq.symm)
  -- all that the laws look for in the deeds are completions, returns and entries
  exact { h with
    log := by
      rw [Chronicle.add, List.filterMap_append, h.log, List.filterMap_cons_none hentry]
      exact List.append_nil _
    completed := fun id => by
      rw [state_add, h.completed]
      refine exists_congr fun t => ?_
      rw [mem_deeds_add, or_and_right, or_iff_left]
      rintro ⟨heq, -, htask⟩
      exact hfired t heq.symm htask
    ended := fun id how hended => (h.ended id how hended).imp_right (hmem id).mpr
    left := fun id how hleaving => by
      rw [hmem]
      exact h.left id how hleaving
    returned := fun id hid => h.returned id ((hmem id).mp hid)
    silent := isSilent_add h.silent hentry }

/-- A timer fires that does not complete its session. -/
theorem Sound.add_fired (h : Sound leaving c) {t : Timer Task} (ht : t.task ≠ .complete) :
    Sound leaving (c.add (.fired t)) where
  toLawful := h.toLawful.add rfl (fun _ heq => Deed.fired.inj heq ▸ ht) (by simp)
  once := by
    rw [add, List.filterMap_append]
    exact (List.append_nil _).symm ▸ h.once
  untold id := by
    simpa [mem_deeds_add] using h.untold id
  told id how := by
    simpa [mem_deeds_add] using h.told id how
  built := h.built

/-! ### Results -/

/-- The result of an ended session is told by playback, or that of any session from outside, where it
was not told before. -/
theorem Announced.resolve (h : Announced c) (hthere : id < c.state.sessions.length)
    (hopen : c.state.result? id = none)
    (hd : d = .told id ∧ c.state.phase? id = some (.ended how) ∨
      d = .toldOutside id ∧ how = .cancelled) :
    Announced ((c.become session (c.state.update id (·.resolve how))).add d) := by
  obtain ⟨huntold, hunresolved, hnot⟩ := h.untold id hopen
  have hphase (j : Nat) : (c.state.update id (·.resolve how)).phase? j = c.state.phase? j :=
    phase?_update_of_eq fun _ => rfl
  have hself := result?_resolve_self how hthere hopen
  have hmem {d' : Deed} (hd' : d'.entry? = none) :
      d' ∈ ((c.become session (c.state.update id (·.resolve how))).add d).deeds ↔
        d' ∈ c.deeds ∨ d' = d := by
    rw [mem_deeds_add, mem_deeds_become hd']
  -- what is done about the other sessions is what was done before
  have hsame {j : Nat} (hne : id ≠ j) :
      Deed.told j ≠ d ∧ Deed.toldOutside j ≠ d ∧ Deed.returned j ≠ d := by
    rcases hd with ⟨rfl, -⟩ | ⟨rfl, -⟩ <;> simp [hne.symm]
  exact {
    once := by
      rw [add, List.filterMap_append, told?_become]
      rcases hd with ⟨rfl, -⟩ | ⟨rfl, -⟩
      · refine List.nodup_append_comm.mp (List.nodup_cons.mpr ⟨fun hid => ?_, h.once⟩)
        obtain ⟨d, hd, hid⟩ := List.mem_filterMap.mp hid
        cases d <;> cases hid
        exact huntold hd
      · exact (List.append_nil _).symm ▸ h.once
    untold := fun j hj => by
      rw [state_add, state_become] at hj
      have hne : id ≠ j := by
        rintro rfl
        rw [hself] at hj
        cases hj
      obtain ⟨htold, houtside, hreturned⟩ := hsame hne
      rw [hmem rfl, hmem rfl, hmem rfl, or_iff_left htold, or_iff_left houtside,
        or_iff_left hreturned]
      exact h.untold j (result?_resolve_of_ne how hne ▸ hj)
    told := fun j how' hj => by
      rw [state_add, state_become] at hj ⊢
      rw [hphase, hmem rfl, hmem rfl]
      by_cases hne : id = j
      · subst hne
        obtain rfl := Option.some.inj (hself.symm.trans hj)
        rcases hd with ⟨rfl, hended⟩ | ⟨rfl, rfl⟩
        · exact .inl ⟨hended, .inr rfl, by simpa using hunresolved⟩
        · exact .inr ⟨rfl, .inr rfl, by simpa using huntold⟩
      · obtain ⟨htold, houtside, -⟩ := hsame hne
        rw [or_iff_left htold, or_iff_left houtside]
        exact h.told j how' (result?_resolve_of_ne how hne ▸ hj) }

theorem Sound.resolve (h : Sound leaving c) (hthere : id < c.state.sessions.length)
    (hopen : c.state.result? id = none)
    (hd : d = .told id ∧ c.state.phase? id = some (.ended how) ∨
      d = .toldOutside id ∧ how = .cancelled) :
    Sound leaving ((c.become session (c.state.update id (·.resolve how))).add d) := by
  have hphase (j : Nat) : (c.state.update id (·.resolve how)).phase? j = c.state.phase? j :=
    phase?_update_of_eq fun _ => rfl
  have hspares : Spares c.state (c.state.update id (·.resolve how)) := {
    admissible := (·.congr rfl rfl rfl)
    solitary := fun hs j => (hs j).trans (isUnfinished_congr (hphase j)).symm
    phase := fun j => hphase j ▸ .same _
    ended := fun j how' => by rw [hphase]
    log := List.prefix_rfl }
  have hquiet : c.Permits session (c.entriesOf (c.state.update id (·.resolve how))) := by
    have hnone : c.entriesOf (c.state.update id (·.resolve how)) = [] := List.drop_length
    simp [Permits, hnone]
  refine ⟨(h.toLawful.become session hspares hquiet).add ?_ ?_ ?_, h.toAnnounced.resolve hthere hopen hd,
    fun j => (hphase j).symm ▸ h.built j⟩
  all_goals rcases hd with ⟨rfl, -⟩ | ⟨rfl, -⟩ <;> simp [Deed.entry?]

/-- Playback tells the result of a session that has ended. -/
theorem Sound.tellResult (h : Sound leaving c) (hid : c.state.phase? id = some (.ended how)) :
    Sound leaving (tellResult id how c) ∧ (tellResult id how c).state.result? id ≠ none := by
  obtain ⟨session, hsession, -⟩ := Option.map_eq_some_iff.mp hid
  have hthere := (List.getElem?_eq_some_iff.mp hsession).1
  have htold : (c.state.update id (·.resolve how)).result? id ≠ none := by
    rw [result?_update, if_pos rfl, hsession, Option.bind_some, Session.resolve]
    cases session.result <;> simp
  refine ⟨?_, state_tellResult how ▸ htold⟩
  rw [Chronicle.tellResult]
  split
  · next hopen => exact h.resolve hthere hopen (.inl ⟨rfl, hid⟩)
  · next hopen =>
    -- the result that was told before stays as it is
    have hsame : Abides c.state (c.state.update id (·.resolve how)) := {
      admissible := (·.congr rfl rfl rfl)
      current := rfl
      phase := fun _ => phase?_update_of_eq fun _ => rfl
      result := fun j => by
        rw [result?_update]
        split
        · next heq =>
          subst heq
          rw [result?, hsession, Option.bind_some] at hopen ⊢
          rw [Option.bind_some, Session.resolve]
          cases hresult : session.result with
          | none => exact absurd hresult hopen
          | some how => rfl
        · rfl
      log := List.prefix_rfl }
    have hnone : c.entriesOf (c.state.update id (·.resolve how)) = [] := List.drop_length
    exact h.abide id hsame (by simp [Permits, hnone])

/-- The result of a session is told from outside, unless it was told before. -/
theorem Sound.resolveFrom (h : Sound leaving c) : Sound leaving (Chronicle.resolveFrom id c).2 := by
  rw [Chronicle.resolveFrom]
  split
  · next hid => exact h.resolve hid.1 hid.2 (.inr ⟨rfl, rfl⟩)
  · exact h

/-! ### Ends -/

section Conclude

variable {ds : List Deed} (hfired : ∀ d ∈ ds, ∃ t, d = .fired t)

theorem phase?_conclude_self (hid : c.state.IsUnfinished id) :
    (c.state.conclude id how).phase? id = some (.ended how) := by
  obtain ⟨p, hp, -⟩ := hid
  obtain ⟨session, hsession, -⟩ := Option.map_eq_some_iff.mp hp
  refine (phase?_update (s := c.state)).trans ?_
  rw [if_pos rfl, hsession, Option.map_some]

theorem phase?_conclude_of_ne {j : Nat} (hne : id ≠ j) :
    (c.state.conclude id how).phase? j = c.state.phase? j :=
  (phase?_update (s := c.state)).trans (if_neg hne)

/-- The sessions that have ended are those that had, and the one that ends. -/
theorem ended_conclude_iff (hid : c.state.IsUnfinished id) {j : Nat} {how' : Ending} :
    (c.state.conclude id how).phase? j = some (.ended how') ↔
      c.state.phase? j = some (.ended how') ∨ j = id ∧ how' = how := by
  by_cases hne : id = j
  · subst hne
    rw [phase?_conclude_self hid, or_iff_right hid.phase?_ne]
    simp [eq_comm]
  · rw [phase?_conclude_of_ne hne, or_iff_left fun heq => hne heq.1.symm]

/-- A session that has been built may end, and no other one changes. -/
theorem mayBecome_conclude (hid : c.state.IsUnfinished id) (hbuilt : c.state.phase? id ≠ some .idle)
    (j : Nat) : Phase.MayBecome (c.state.phase? j) ((c.state.conclude id how).phase? j) := by
  by_cases hne : id = j
  · subst hne
    rw [phase?_conclude_self hid]
    obtain ⟨p, hp, hlive⟩ := hid
    rw [hp] at hbuilt ⊢
    cases p with
    | idle => exact absurd rfl hbuilt
    | scheduled => exact .cutShort how
    | playing => exact .finish how
    | ended how' => exact absurd rfl (hlive how')
  · exact phase?_conclude_of_ne hne ▸ .same _

/-- When the active session ends, no session is unfinished. -/
theorem isSolitary_conclude (h : c.state.IsSolitary) (hid : c.state.IsUnfinished id) :
    (c.state.conclude id how).IsSolitary := by
  have hcurrent := (h id).mpr hid
  have hnone : (c.state.conclude id how).current = none := if_pos hcurrent
  intro j
  rw [hnone]
  refine iff_of_false (fun hj => by cases hj) fun hj => ?_
  by_cases hne : id = j
  · subst hne
    exact hj.phase?_ne (phase?_conclude_self hid)
  · rw [isUnfinished_congr (phase?_conclude_of_ne hne), ← h, hcurrent] at hj
    exact hne (Option.some.inj hj)

/-- The end of a session enters nothing in the log. -/
theorem deeds_conclude : (Chronicle.become session (c.state.conclude id how)
    { c with deeds := c.deeds ++ ds }).deeds = c.deeds ++ ds := by
  have hnone : entriesOf { c with deeds := c.deeds ++ ds } (c.state.conclude id how) = [] :=
    List.drop_length
  rw [deeds_become, hnone]
  exact List.append_nil _

include hfired

theorem mem_append_fired (hd : ∀ t, d ≠ .fired t) : d ∈ c.deeds ++ ds ↔ d ∈ c.deeds :=
  List.mem_append.trans <| or_iff_left fun hin => by
    obtain ⟨t, rfl⟩ := hfired d hin
    exact hd t rfl

theorem filterMap_append_fired {β : Type} {f : Deed → Option β} (hf : ∀ t, f (.fired t) = none) :
    (c.deeds ++ ds).filterMap f = c.deeds.filterMap f := by
  have hnone : ds.filterMap f = [] := List.filterMap_eq_nil_iff.mpr fun d hd => by
    obtain ⟨t, rfl⟩ := hfired d hd
    exact hf t
  rw [List.filterMap_append, hnone, List.append_nil]

/-- An unfinished session ends, and no result is told yet. -/
theorem Announced.conclude (h : Announced c) (session : Option Nat) (hid : c.state.IsUnfinished id)
    (how : Ending) :
    Announced (Chronicle.become session (c.state.conclude id how)
      { c with deeds := c.deeds ++ ds }) := by
  have hresult (j : Nat) : (c.state.conclude id how).result? j = c.state.result? j :=
    result?_update_of_eq (s := c.state) fun _ => rfl
  refine ⟨?_, fun j hj => ?_, fun j how' hj => ?_⟩
  · rw [deeds_conclude, filterMap_append_fired hfired fun _ => rfl]
    exact h.once
  · rw [state_become, hresult] at hj
    rw [deeds_conclude, mem_append_fired hfired (by simp), mem_append_fired hfired (by simp),
      mem_append_fired hfired (by simp)]
    exact h.untold j hj
  · rw [state_become, hresult] at hj
    rw [state_become, deeds_conclude, mem_append_fired hfired (by simp),
      mem_append_fired hfired (by simp)]
    exact (h.told j how' hj).imp_left (.imp_left fun hended => (ended_conclude_iff hid).mpr (.inl hended))

/-- An unfinished session ends. If it is complete, the timer that completes it has just fired. -/
theorem Sound.conclude (h : Sound leaving c) (session : Option Nat) (hid : c.state.IsUnfinished id)
    (how : Ending)
    (hcompletes : ∀ j, (∃ t, .fired t ∈ ds ∧ t.owner = j ∧ t.task = .complete) ↔
      j = id ∧ how = .completed) :
    Sound (fun j how' => leaving j how' ∨ j = id ∧ how' = how)
      (Chronicle.become session (c.state.conclude id how) { c with deeds := c.deeds ++ ds }) := by
  have hmem (j : Nat) : .returned j ∈ (Chronicle.become session (c.state.conclude id how)
      { c with deeds := c.deeds ++ ds }).deeds ↔ .returned j ∈ c.deeds := by
    rw [deeds_conclude]
    exact mem_append_fired hfired (by simp)
  exact { h.toAnnounced.conclude hfired session hid how with
    admissible := h.admissible.congr rfl rfl rfl
    solitary := isSolitary_conclude h.solitary hid
    course := isCourse_become (c := { c with deeds := c.deeds ++ ds }) h.course
      (mayBecome_conclude hid (h.built id))
    log := by
      rw [deeds_conclude, filterMap_append_fired hfired fun _ => rfl]
      exact h.log
    completed := fun j => by
      have hor : HasCompleted (Chronicle.become session (c.state.conclude id how)
          { c with deeds := c.deeds ++ ds }) j ↔ c.HasCompleted j ∨ j = id ∧ how = .completed := by
        rw [HasCompleted, deeds_conclude, HasCompleted, ← hcompletes]
        simp only [List.mem_append, or_and_right, exists_or]
      rw [hor, ← h.completed, state_become, ended_conclude_iff hid, eq_comm (a := how)]
    ended := fun j how' hended => by
      rw [hmem]
      -- a session that has ended did so before or just now
      rcases (ended_conclude_iff hid).mp hended with hended | hnew
      · exact (h.ended j how' hended).imp_left .inl
      · exact .inl (.inr hnew)
    left := fun j how' hleaving => by
      rw [state_become, hmem, ended_conclude_iff hid]
      rcases hleaving with hleaving | hnew
      · exact (h.left j how' hleaving).imp_left .inl
      · exact ⟨.inr hnew, hnew.1 ▸ h.returned_not_mem hid⟩
    returned := fun j hj => by
      obtain ⟨how', hended⟩ := h.returned j ((hmem j).mp hj)
      exact ⟨how', (ended_conclude_iff hid).mpr (.inl hended)⟩
    silent := by
      rw [deeds_conclude]
      refine List.pairwise_append.mpr ⟨h.silent, List.pairwise_of_forall_mem_list ?_, ?_⟩
      all_goals
        intro d _ d' hd' j e _ hentry
        obtain ⟨t, rfl⟩ := hfired d' hd'
        cases hentry
    built := fun j => by
      rw [state_become]
      by_cases hne : id = j
      · subst hne
        simp [phase?_conclude_self hid]
      · rw [phase?_conclude_of_ne hne]
        exact h.built j }

end Conclude

/-- The call that ended a session returns. -/
theorem Sound.return (h : Sound (fun j how' => leaving j how' ∨ j = id ∧ how' = how) c)
    (hnot : ∀ how, ¬ leaving id how) (htold : c.state.result? id ≠ none) :
    Sound leaving (c.add (.returned id)) := by
  -- what it leaves is that no session is leaving but those that were before
  have hended := (h.left id how (.inr ⟨rfl, rfl⟩)).1
  exact { h with
    log := by
      rw [Chronicle.add, List.filterMap_append, h.log]
      exact List.append_nil _
    completed := fun j => by
      rw [state_add, h.completed]
      simp [HasCompleted, mem_deeds_add]
    ended := fun j how' hj => by
      rw [mem_deeds_add]
      rcases h.ended j how' hj with (hleaving | ⟨rfl, -⟩) | hreturned
      · exact .inl hleaving
      · exact .inr (.inr rfl)
      · exact .inr (.inl hreturned)
    left := fun j how' hleaving => by
      have hne : j ≠ id := fun heq => hnot how' (heq ▸ hleaving)
      rw [mem_deeds_add, or_iff_left (by simpa using hne)]
      exact h.left j how' (.inl hleaving)
    returned := fun j hj => by
      rcases mem_deeds_add.mp hj with hj | hj
      · exact h.returned j hj
      · exact ⟨how, Deed.returned.inj hj ▸ hended⟩
    silent := isSilent_add h.silent rfl
    once := by
      rw [Chronicle.add, List.filterMap_append]
      exact (List.append_nil _).symm ▸ h.once
    untold := fun j hj => by
      have hne : j ≠ id := fun heq => htold (heq ▸ hj)
      simpa [mem_deeds_add, hne] using h.untold j hj
    told := fun j how' => by
      simpa [mem_deeds_add] using h.told j how' }

end Changes

end Monody.Playback
