import Monody.Proofs.Output
import Monody.Proofs.Playback.Admissible
import Monody.Proofs.Playback.State

/-!
# What belongs to the active session

Timers, notes and cursors belong to the session that is active. While another session ends, some of
its notes and cursors are still about, and listeners may start a session in the middle of that; so
the invariant names the notes and the performers that are left over, and every step keeps it whatever
they are.

## Main definitions

* `Settled` — timers, notes and cursors belong to the active session or are left over
* `Timed` — the active session has a timer that completes it
* `Steady` — both

## Main results

* `Settled.release` — a part releases its note
* `Settled.sound` — a part strikes a note
* `Settled.join`, `Settled.schedule`, `Settled.enter` — a performer enters the active session
-/

namespace Monody.Playback

variable {s s' : Playback} {id : Nat} {session : Session} {part : Part}

/-! ## The active session -/

/-- The channel and the note that a held note sounds on. -/
def Held.key (h : Held) : Int × Int := ((Midi.Channel.ofVoice h.part).val, h.note.val)

/-- The part that a timer is for. -/
def Task.part? : Task → Option Part
  | .strike part _ | .release part _ | .endPart part => some part
  | .complete => none

/-- The parts of the active session. -/
def parts (s : Playback) : List Part := (s.currentSession?.map (·.parts)).getD []

/-- The notes that the parts of the active session hold. -/
def held (s : Playback) : List Held := (s.currentSession?.map (·.held)).getD []

theorem parts_eq (h : s.currentSession? = some session) : s.parts = session.parts := by
  rw [parts, h]
  rfl

theorem held_eq (h : s.currentSession? = some session) : s.held = session.held := by
  rw [held, h]
  rfl

theorem currentSession?_eq (h : s.current = some id) : s.currentSession? = s.sessions[id]? := by
  rw [currentSession?, h]
  rfl

theorem currentSession?_update_of_ne {f : Session → Session} (h : s.current ≠ some id) :
    (s.update id f).currentSession? = s.currentSession? := by
  cases hcurrent : s.current with
  | none => rw [currentSession?, currentSession?, update_current, hcurrent]; rfl
  | some j =>
    have hne : id ≠ j := fun heq => h (heq ▸ hcurrent)
    rw [currentSession?_eq hcurrent, ← sessions_update_of_ne hne]
    exact currentSession?_eq hcurrent

theorem currentSession?_update_self {f : Session → Session} (h : s.current = some id)
    (hsession : s.currentSession? = some session) :
    (s.update id f).currentSession? = some (f session) := by
  have hcurrent : (s.update id f).current = some id := h
  rw [currentSession?_eq h] at hsession
  rw [currentSession?_eq hcurrent]
  exact sessions_update_self hsession

/-- What an update leaves of every session it leaves of the active one. -/
theorem map_currentSession?_update {β : Type} {f : Session → Session} {g : Session → β}
    (hf : ∀ session, g (f session) = g session) :
    (s.update id f).currentSession?.map g = s.currentSession?.map g := by
  by_cases hcurrent : s.current = some id
  · rw [currentSession?_eq hcurrent, currentSession?_eq (s := s.update id f) hcurrent]
    cases hsession : s.sessions[id]? <;> simp [hsession, hf]
  · rw [currentSession?_update_of_ne hcurrent]

theorem parts_update {f : Session → Session}
    (hf : ∀ session, (f session).parts = session.parts) : (s.update id f).parts = s.parts := by
  rw [parts, map_currentSession?_update hf, parts]

theorem held_update {f : Session → Session} (hf : ∀ session, (f session).held = session.held) :
    (s.update id f).held = s.held := by
  rw [held, map_currentSession?_update hf, held]

/-! ## The invariant -/

/-- Timers, notes and cursors belong to the active session, but for the notes and the performers
that are left over. -/
structure Settled (leftNotes : Int × Int → Prop) (leftPerformers : Nat → Prop) (s : Playback) :
    Prop where
  admissible : s.Admissible
  cancels : s.clock.cancels = true
  live : s.current ≠ none → ∃ session, s.currentSession? = some session ∧ session.hasEnded = false
  channels : ∀ p ∈ s.parts, p.channel = .ofVoice p.index
  holders : ∀ h ∈ s.held, ∃ p ∈ s.parts, p.index = h.part
  /-- A part holds at most one note. -/
  alone : s.held.Pairwise (·.part ≠ ·.part)
  timers : ∀ t ∈ s.clock.timers, s.current = some t.owner ∧ ∀ p ∈ t.task.part?, p ∈ s.parts
  nodup : s.output.active.Nodup
  active : ∀ k ∈ s.output.active, leftNotes k ∨ ∃ h ∈ s.held, h.key = k
  cursors : ∀ i, (s.cursor? i).isSome → leftPerformers i ∨ ∃ p ∈ s.parts, p.performer = i

/-- The active session has a timer that completes it. -/
def Timed (s : Playback) : Prop := s.current ≠ none → ∃ t ∈ s.clock.timers, t.task = .complete

/-- Nothing is amiss between two steps. -/
structure Steady (leftNotes : Int × Int → Prop) (leftPerformers : Nat → Prop) (s : Playback) :
    Prop extends Settled leftNotes leftPerformers s where
  timed : s.Timed

variable {leftNotes : Int × Int → Prop} {leftPerformers : Nat → Prop}

namespace Settled

/-- What has to be shown again after an update of the sessions that concerns neither the parts of
the active session nor the notes that they hold. -/
theorem congr (hs : Settled leftNotes leftPerformers s) (hadmissible : s'.Admissible)
    (hclock : s'.clock = s.clock) (hcurrent : s'.current = s.current)
    (houtput : s'.output = s.output) (hperformers : s'.performers = s.performers)
    (hlive : s'.current ≠ none →
      ∃ session, s'.currentSession? = some session ∧ session.hasEnded = false)
    (hparts : s'.parts = s.parts) (hheld : s'.held = s.held) :
    Settled leftNotes leftPerformers s' where
  admissible := hadmissible
  cancels := hclock ▸ hs.cancels
  live := hlive
  channels := hparts ▸ hs.channels
  holders := hparts ▸ hheld ▸ hs.holders
  alone := hheld ▸ hs.alone
  timers := by
    rw [hclock, hcurrent, hparts]
    exact hs.timers
  nodup := houtput ▸ hs.nodup
  active := by
    rw [houtput, hheld]
    exact hs.active
  cursors := by
    simp only [cursor?, hperformers, hparts]
    exact hs.cursors

theorem record (hs : Settled leftNotes leftPerformers s) (e : Entry) :
    Settled leftNotes leftPerformers (s.record e) := { hs with
  admissible := hs.admissible.congr rfl rfl rfl }

theorem setListener (hs : Settled leftNotes leftPerformers s) (i : Nat) {l : Listener}
    (hl : l.reaction.IsAdmissible) : Settled leftNotes leftPerformers (s.setListener i l) := { hs with
  admissible := hs.admissible.setListener i hl }

theorem addListener (hs : Settled leftNotes leftPerformers s) (l : Listener)
    (hl : l.reaction.IsAdmissible) : Settled leftNotes leftPerformers (s.addListener l) := { hs with
  admissible := hs.admissible.addListener hl }

theorem assign (hs : Settled leftNotes leftPerformers s) (performer : Nat) {values : Assignment}
    (hvalues : ∀ x ∈ values.volume, 0 ≤ x ∧ x ≤ 1) :
    Settled leftNotes leftPerformers (s.assign performer values) := { hs with
  admissible := hs.admissible.assign performer hvalues
  cursors := fun i hi => hs.cursors i (cursor?_assign performer values i ▸ hi) }

/-- A call that starts no note. -/
theorem lessen (hs : Settled leftNotes leftPerformers s) {call : Output → Output.Effect}
    (hcall : Output.Lessens call) : Settled leftNotes leftPerformers (s.through call) := { hs with
  admissible := hs.admissible.congr rfl rfl rfl
  nodup := (hcall s.output).nodup hs.nodup
  active := fun k hk => hs.active k ((hcall s.output).subset hk) }

/-- An update of a session that touches neither its parts nor the notes that they hold, and does not
end it. -/
theorem update (hs : Settled leftNotes leftPerformers s) (id : Nat) {f : Session → Session}
    (hparts : ∀ session, (f session).parts = session.parts)
    (hheld : ∀ session, (f session).held = session.held)
    (hended : ∀ session, session.hasEnded = false → (f session).hasEnded = false) :
    Settled leftNotes leftPerformers (s.update id f) := by
  refine hs.congr (hs.admissible.congr rfl rfl rfl) rfl rfl rfl rfl (fun hcurrent => ?_)
    (parts_update hparts) (held_update hheld)
  obtain ⟨session, hsession, hlive⟩ := hs.live hcurrent
  by_cases hid : s.current = some id
  · exact ⟨f session, currentSession?_update_self hid hsession, hended session hlive⟩
  · exact ⟨session, (currentSession?_update_of_ne hid).trans hsession, hlive⟩

/-- An update of a session that has ended. -/
theorem update_of_ended (hs : Settled leftNotes leftPerformers s)
    (hsession : s.sessions[id]? = some session) (hended : session.hasEnded = true)
    (f : Session → Session) : Settled leftNotes leftPerformers (s.update id f) := by
  have hcurrent : s.current ≠ some id := by
    intro hcurrent
    obtain ⟨other, hother, hlive⟩ := hs.live (by simp [hcurrent])
    rw [currentSession?_eq hcurrent, hsession, Option.some.injEq] at hother
    rw [← hother, hended] at hlive
    exact Bool.noConfusion hlive
  have hsame := currentSession?_update_of_ne (f := f) hcurrent
  refine hs.congr (hs.admissible.congr rfl rfl rfl) rfl rfl rfl rfl ?_ ?_ ?_
  · rw [hsame]
    exact hs.live
  · rw [parts, hsame, parts]
  · rw [held, hsame, held]

/-- What is left over need only be told of the notes that sound and the performers with a cursor. -/
theorem relax (hs : Settled leftNotes leftPerformers s) {leftNotes' : Int × Int → Prop}
    {leftPerformers' : Nat → Prop}
    (hnotes : ∀ k ∈ s.output.active, leftNotes k → leftNotes' k)
    (hperformers : ∀ i, (s.cursor? i).isSome → leftPerformers i → leftPerformers' i) :
    Settled leftNotes' leftPerformers' s := { hs with
  active := fun k hk => (hs.active k hk).imp_left (hnotes k hk)
  cursors := fun i hi => (hs.cursors i hi).imp_left (hperformers i hi) }

/-- A performer of the active session comes to an event, or any performer leaves his place. -/
theorem setCursor (hs : Settled leftNotes leftPerformers s) (i : Nat) (event : Option Nat)
    (hi : event.isSome → ∃ p ∈ s.parts, p.performer = i) :
    Settled leftNotes leftPerformers (s.setCursor i event) := { hs with
  admissible := hs.admissible.setCursor i event
  cursors := fun j hj => by
    rcases isSome_cursor?_setCursor hj with ⟨rfl, hevent⟩ | ⟨-, hj⟩
    · exact .inr (hi hevent)
    · exact hs.cursors j hj }

/-- A new timer of the active session. -/
theorem after (hs : Settled leftNotes leftPerformers s) (hid : s.current = some id)
    (delay : Binary64) (task : Task) (htask : ∀ p ∈ task.part?, p ∈ s.parts) :
    Settled leftNotes leftPerformers (s.after delay id task) := { hs with
  admissible := hs.admissible.congr rfl rfl rfl
  timers := fun t ht => by
    rcases Clock.mem_timers_after.mp ht with rfl | ht
    · exact ⟨hid, htask⟩
    · exact hs.timers t ht }

end Settled

theorem Steady.relax (hs : Steady leftNotes leftPerformers s) {leftNotes' : Int × Int → Prop}
    {leftPerformers' : Nat → Prop}
    (hnotes : ∀ k ∈ s.output.active, leftNotes k → leftNotes' k)
    (hperformers : ∀ i, (s.cursor? i).isSome → leftPerformers i → leftPerformers' i) :
    Steady leftNotes' leftPerformers' s :=
  ⟨hs.toSettled.relax hnotes hperformers, hs.timed⟩

/-- What is told of a session makes no difference. -/
theorem Steady.resolve (hs : Steady leftNotes leftPerformers s) (id : Nat) (how : Ending) :
    Steady leftNotes leftPerformers (s.update id (·.resolve how)) :=
  ⟨hs.update id (fun _ => rfl) (fun _ => rfl) fun _ h => h, hs.timed⟩

/-! ## Notes -/

/-- Where every part holds one note only, the part tells which. -/
theorem eq_of_part_eq {hs : List Held} (halone : hs.Pairwise (·.part ≠ ·.part)) {h h' : Held}
    (hh : h ∈ hs) (hh' : h' ∈ hs) (heq : h.part = h'.part) : h = h' :=
  List.inj_on_of_nodup_map (List.pairwise_map.mpr halone) hh hh' heq

/-- The call that a part releases its note with. Where it holds none, nothing is called. -/
theorem release_eq (hsession : s.sessions[id]? = some session)
    (hchannel : part.channel = .ofVoice part.index)
    (halone : session.held.Pairwise (·.part ≠ ·.part)) (hnodup : s.output.active.Nodup) :
    ∃ call, Output.Lessens call ∧
      release id part s = (s.update id (·.drop part.index)).through call ∧
      ∀ k ∈ (call s.output).output.active, ∀ h ∈ session.held, h.part = part.index → h.key ≠ k := by
  have hbind : (s.sessions[id]?).bind (·.held? part.index) = session.held? part.index := by
    rw [hsession]
    rfl
  cases hheld : session.held? part.index with
  | none =>
    have hnot : ∀ h ∈ session.held, h.part ≠ part.index := by
      simpa [Session.held?] using hheld
    have hdrop : session.drop part.index = session := by
      have hall : session.held.filter (·.part ≠ part.index) = session.held :=
        List.filter_eq_self.mpr (by simpa using hnot)
      rw [Session.drop, hall]
    have hupdate : s.sessions.modify id (·.drop part.index) = s.sessions := by
      refine List.ext_getElem? fun j => ?_
      by_cases hj : id = j
      · subst hj
        simp [hsession, hdrop]
      · simp [hj]
    refine ⟨(·.unchanged), fun o => .refl _, ?_, fun k _ h hh heq => absurd heq (hnot h hh)⟩
    rw [release, hbind, hheld]
    simp only [through, Playback.update, hupdate, Output.unchanged, List.map_nil, List.append_nil]
  | some held =>
    have hmem : held ∈ session.held := List.mem_of_find?_eq_some hheld
    have hpart : held.part = part.index := by simpa using List.find?_some hheld
    have hkey : held.key = ((part.channel.val : Int), (held.note.val : Int)) := by
      rw [Held.key, hpart, hchannel]
    refine ⟨(·.noteOff part.channel.val held.note.val), fun o => ?_, ?_, ?_⟩
    · rw [Output.active_noteOff]
      exact List.erase_sublist
    · rw [release, hbind, hheld]
    · intro k hk h hh heq hsame
      rw [Output.active_noteOff, hnodup.mem_erase_iff] at hk
      -- a part holds one note only, and that one is silent now
      have hsole := eq_of_part_eq halone hh hmem (heq.trans hpart.symm)
      exact hk.1 (by rw [← hsame, hsole, hkey])

/-- A part of the active session releases its note. -/
theorem Settled.release (hs : Settled leftNotes leftPerformers s) (hid : s.current = some id)
    (hpart : part ∈ s.parts) :
    Settled leftNotes leftPerformers (release id part s) ∧
      (release id part s).current = some id ∧ (release id part s).parts = s.parts ∧
      ∀ h ∈ (release id part s).held, h.part ≠ part.index := by
  obtain ⟨session, hsession, hlive⟩ := hs.live (by simp [hid])
  have hparts := parts_eq hsession
  have hheld := held_eq hsession
  obtain ⟨call, hcall, heq, hsilent⟩ := release_eq (currentSession?_eq hid ▸ hsession)
    (hs.channels part hpart) (hheld ▸ hs.alone) hs.nodup
  have hnew : (Playback.release id part s).currentSession? = some (session.drop part.index) := by
    rw [heq]
    exact currentSession?_update_self hid hsession
  have hparts' : (Playback.release id part s).parts = s.parts := by
    rw [parts_eq hnew, hparts]
    rfl
  have hheld' : (Playback.release id part s).held = s.held.filter (·.part ≠ part.index) := by
    rw [held_eq hnew, hheld]
    rfl
  have hkept : ∀ h, h ∈ (Playback.release id part s).held ↔ h ∈ s.held ∧ h.part ≠ part.index := by
    simp [hheld', List.mem_filter]
  refine ⟨?_, by rw [heq]; exact hid, hparts', fun h hh => ((hkept h).mp hh).2⟩
  have hcurrent : (Playback.release id part s).current = s.current := by rw [heq]; rfl
  have hclock : (Playback.release id part s).clock = s.clock := by rw [heq]; rfl
  have houtput : (Playback.release id part s).output = (call s.output).output := by rw [heq]; rfl
  have hperformers : (Playback.release id part s).performers = s.performers := by rw [heq]; rfl
  exact {
    admissible := by rw [heq]; exact hs.admissible.congr rfl rfl rfl
    cancels := hclock ▸ hs.cancels
    live := fun _ => ⟨_, hnew, hlive⟩
    channels := hparts'.symm ▸ hs.channels
    holders := fun h hh => hparts'.symm ▸ hs.holders h ((hkept h).mp hh).1
    alone := hheld' ▸ hs.alone.filter _
    timers := by
      rw [hclock, hcurrent, hparts']
      exact hs.timers
    nodup := houtput ▸ (hcall s.output).nodup hs.nodup
    active := fun k hk => by
      rw [houtput] at hk
      refine (hs.active k ((hcall s.output).subset hk)).imp_right ?_
      -- what still sounds was held by another part, as this one held one note only
      rintro ⟨h, hh, rfl⟩
      have hother : h.part ≠ part.index := fun hsame => hsilent _ hk h (hheld ▸ hh) hsame rfl
      exact ⟨h, (hkept h).mpr ⟨hh, hother⟩, rfl⟩
    cursors := by
      simp only [cursor?, hperformers, hparts']
      exact hs.cursors }

/-- A note that is started is left over until a part holds it. -/
theorem Settled.noteOn (hs : Settled leftNotes leftPerformers s) (channel note velocity : Int) :
    Settled (fun k => leftNotes k ∨ k = (channel, note)) leftPerformers
      (s.through (·.noteOn channel note velocity)) := { hs with
  admissible := hs.admissible.congr rfl rfl rfl
  nodup := Output.nodup_active_noteOn _ _ _ hs.nodup
  active := fun k hk => by
    rcases Output.active_noteOn hk with hnew | hk
    · exact .inl (.inr hnew)
    · exact (hs.active k hk).imp_left .inl }

theorem parts_hold (id : Nat) (h : Held) : (s.update id (·.hold h)).parts = s.parts :=
  parts_update fun _ => rfl

/-- A part of the active session that holds no note comes to hold one. -/
theorem Settled.hold {h : Held} (hs : Settled (fun k => leftNotes k ∨ k = h.key) leftPerformers s)
    (hid : s.current = some id) (hpart : ∃ p ∈ s.parts, p.index = h.part)
    (hfree : ∀ h' ∈ s.held, h'.part ≠ h.part) :
    Settled leftNotes leftPerformers (s.update id (·.hold h)) := by
  obtain ⟨session, hsession, hlive⟩ := hs.live (by simp [hid])
  have hnew := currentSession?_update_self (f := (·.hold h)) hid hsession
  have hparts := parts_hold (s := s) id h
  -- nothing is dropped for the new note, as the part holds none
  have hheld : (s.update id (·.hold h)).held = h :: s.held := by
    have hall : session.held.filter (·.part ≠ h.part) = session.held :=
      List.filter_eq_self.mpr fun h' hh' => by simpa using hfree h' (held_eq hsession ▸ hh')
    rw [held_eq hnew, held_eq hsession]
    exact congrArg (h :: ·) hall
  exact {
    admissible := hs.admissible.congr rfl rfl rfl
    cancels := hs.cancels
    live := fun _ => ⟨_, hnew, hlive⟩
    channels := hparts.symm ▸ hs.channels
    holders := fun h' hh' => by
      rw [hparts]
      rcases List.mem_cons.mp (hheld ▸ hh') with rfl | hh'
      · exact hpart
      · exact hs.holders h' hh'
    alone := by
      rw [hheld]
      exact .cons (fun h' hh' => (hfree h' hh').symm) hs.alone
    timers := by
      rw [hparts]
      exact hs.timers
    nodup := hs.nodup
    active := fun k hk => by
      rw [hheld]
      rcases hs.active k hk with (hk | rfl) | ⟨h', hh', rfl⟩
      · exact .inl hk
      · exact .inr ⟨h, List.mem_cons_self, rfl⟩
      · exact .inr ⟨h', List.mem_cons_of_mem _ hh', rfl⟩
    cursors := by
      rw [hparts]
      exact hs.cursors }

/-- A part of the active session that holds no note strikes one. -/
theorem Settled.sound (hs : Settled leftNotes leftPerformers s) (hid : s.current = some id)
    (hpart : part ∈ s.parts) (hfree : ∀ h ∈ s.held, h.part ≠ part.index) (event : Nat)
    (note : Midi.Data) (seconds : Binary64) :
    Settled leftNotes leftPerformers (sound id part event note seconds s) := by
  have hcursor := hs.setCursor part.performer (some event) fun _ => ⟨part, hpart, rfl⟩
  have hstarted := hcursor.noteOn part.channel.val note.val part.velocity.val
  have hkey : ((part.channel.val : Int), (note.val : Int)) =
      Held.key ⟨part.index, event, note⟩ := by
    rw [Held.key, hs.channels part hpart]
  rw [hkey] at hstarted
  have hheld := hstarted.hold hid ⟨part, hpart, rfl⟩ hfree
  refine hheld.after hid seconds _ fun p hp => ?_
  obtain rfl := Option.mem_some.mp hp
  rw [parts_hold]
  exact hpart

/-! ## Sessions -/

/-- When the active session ends, nothing is active; its notes and performers are left over. -/
theorem Settled.conclude (hs : Settled leftNotes leftPerformers s) (hid : s.current = some id)
    (hsession : s.sessions[id]? = some session) (how : Ending) :
    Steady (fun k => leftNotes k ∨ ∃ h ∈ session.held, h.key = k)
      (fun i => leftPerformers i ∨ ∃ p ∈ session.parts, p.performer = i) (s.conclude id how) := by
  have hcurrentSession : s.currentSession? = some session := currentSession?_eq hid ▸ hsession
  have hidle : (s.conclude id how).current = none := if_pos hid
  have hnone : (s.conclude id how).currentSession? = none := by
    rw [currentSession?, hidle]
    rfl
  have hparts : (s.conclude id how).parts = [] := by rw [parts, hnone]; rfl
  have hheld : (s.conclude id how).held = [] := by rw [held, hnone]; rfl
  have hcancels : (s.clock.cancel id).cancels = true := by
    rw [Clock.cancel]
    split <;> exact hs.cancels
  -- all timers belong to the active session, so they are all cancelled
  have htimers : (s.clock.cancel id).timers = [] := by
    refine Clock.timers_cancel hs.cancels fun t ht => ?_
    exact (Option.some.inj (hid ▸ (hs.timers t ht).1)).symm
  exact {
    admissible := hs.admissible.congr rfl rfl rfl
    cancels := hcancels
    live := fun h => absurd hidle h
    channels := by simp [hparts]
    holders := by simp [hheld]
    alone := hheld ▸ .nil
    timers := fun t ht => absurd (htimers ▸ ht : t ∈ []) List.not_mem_nil
    nodup := hs.nodup
    active := fun k hk => by
      refine .inl ((hs.active k hk).imp_right ?_)
      rw [held_eq hcurrentSession]
      exact fun h => h
    cursors := fun i hi => by
      refine .inl ((hs.cursors i hi).imp_right ?_)
      rw [parts_eq hcurrentSession]
      exact fun h => h
    timed := fun h => absurd hidle h }

/-- Where no session is active, a new one has nothing yet. -/
theorem Settled.begin (hs : Settled leftNotes leftPerformers s) (hidle : s.current = none)
    (speed : Number) : Settled leftNotes leftPerformers (s.begin speed) := by
  have hnone : s.currentSession? = none := by rw [currentSession?, hidle]; rfl
  have hheld : s.held = [] := by rw [held, hnone]; rfl
  have hparts : s.parts = [] := by rw [parts, hnone]; rfl
  -- like the lack of a session, a new one has no parts and holds nothing
  have hnew : (s.begin speed).currentSession? = some (.new speed) := by
    rw [currentSession?_eq (s := s.begin speed) rfl]
    exact List.getElem?_concat_length
  have hheld' : (s.begin speed).held = [] := held_eq hnew
  have hparts' : (s.begin speed).parts = [] := parts_eq hnew
  exact {
    admissible := hs.admissible.congr rfl rfl rfl
    cancels := hs.cancels
    live := fun _ => ⟨_, hnew, rfl⟩
    channels := by simp [hparts']
    holders := by simp [hheld']
    alone := hheld' ▸ .nil
    timers := fun t ht => by
      have howner := (hs.timers t ht).1
      rw [hidle] at howner
      cases howner
    nodup := hs.nodup
    active := by
      rw [hheld', ← hheld]
      exact hs.active
    cursors := by
      rw [hparts', ← hparts]
      exact hs.cursors }

theorem current_enter (plan : Plan) : (enter id plan s).current = s.current := by
  have hstrike (s : Playback) (p : Binary64 × Nat) :
      (s.after p.1 id (.strike plan.part p.2)).current = s.current := after_current ..
  simp only [enter, after_current]
  rw [foldl_keeps (g := Playback.current) hstrike, through_current, update_current]

/-- A part joins the active session. -/
theorem Settled.join (hs : Settled leftNotes leftPerformers s) (hid : s.current = some id)
    (hchannel : part.channel = .ofVoice part.index) :
    Settled leftNotes leftPerformers
        (s.update id fun session => { session with parts := session.parts ++ [part] }) ∧
      part ∈ (s.update id fun session => { session with parts := session.parts ++ [part] }).parts := by
  obtain ⟨session, hsession, hlive⟩ := hs.live (by simp [hid])
  let join (session : Session) : Session := { session with parts := session.parts ++ [part] }
  have hnew := currentSession?_update_self (f := join) hid hsession
  have hheld : (s.update id join).held = s.held := held_update fun _ => rfl
  have hparts : (s.update id join).parts = s.parts ++ [part] := by
    rw [parts_eq hnew, parts_eq hsession]
  -- all that refers to a part of the session refers to one that is still there
  have hpart : ∀ p ∈ s.parts, p ∈ (s.update id join).parts := by simp +contextual [hparts]
  refine ⟨?_, by simp [join, hparts]⟩
  exact {
    admissible := hs.admissible.congr rfl rfl rfl
    cancels := hs.cancels
    live := fun _ => ⟨_, hnew, hlive⟩
    channels := fun p hp => by
      rw [hparts, List.mem_append, List.mem_singleton] at hp
      rcases hp with hp | rfl
      · exact hs.channels p hp
      · exact hchannel
    holders := fun h hh => by
      obtain ⟨p, hp, hindex⟩ := hs.holders h (hheld ▸ hh)
      exact ⟨p, hpart p hp, hindex⟩
    alone := hheld ▸ hs.alone
    timers := fun t ht => ⟨(hs.timers t ht).1, fun p hp => hpart p ((hs.timers t ht).2 p hp)⟩
    nodup := hs.nodup
    active := by
      rw [hheld]
      exact hs.active
    cursors := fun i hi => by
      refine (hs.cursors i hi).imp_right ?_
      rintro ⟨p, hp, rfl⟩
      exact ⟨p, hpart p hp, rfl⟩ }

/-- The timers of a part of the active session are set: for its notes, and then for its end. -/
theorem Settled.schedule (hs : Settled leftNotes leftPerformers s) (hid : s.current = some id)
    (hmem : part ∈ s.parts) (strikes : List (Binary64 × Nat)) :
    Settled leftNotes leftPerformers
      ((strikes.foldl (fun s p => s.after p.1 id (.strike part p.2)) s).after part.ends id
        (.endPart part)) := by
  have hpart {task : Task} (htask : task.part? = some part) : ∀ p ∈ task.part?, p ∈ s.parts :=
    fun p hp => Option.some.inj (htask.symm.trans hp) ▸ hmem
  induction strikes generalizing s with
  | nil => exact hs.after hid _ _ (hpart rfl)
  | cons strike strikes ih => exact ih (hs.after hid _ _ (hpart rfl)) hid hmem hpart

/-- A performer enters the active session. -/
theorem Settled.enter (hs : Settled leftNotes leftPerformers s) (hid : s.current = some id)
    (plan : Plan) (hchannel : plan.part.channel = .ofVoice plan.part.index) :
    Settled leftNotes leftPerformers (enter id plan s) := by
  obtain ⟨hjoined, hmem⟩ := hs.join hid hchannel
  have hlessens : Output.Lessens (·.programChange plan.part.channel.val plan.program.val) := by
    intro o
    rw [Output.programChange_output]
  exact (hjoined.lessen hlessens).schedule hid hmem plan.strikes

/-- A session that is launched has a timer that completes it. -/
theorem Settled.launch (hs : Settled leftNotes leftPerformers s) (hid : s.current = some id) :
    Steady leftNotes leftPerformers (launch id s) := by
  obtain ⟨session, hsession, hlive⟩ := hs.live (by simp [hid])
  rw [currentSession?_eq hid] at hsession
  have hafter := hs.after hid session.lastEnd .complete (by simp [Task.part?])
  rw [Playback.launch, hsession]
  refine ⟨hafter.update id (fun _ => rfl) (fun _ => rfl) fun _ _ => rfl, fun _ => ?_⟩
  exact ⟨_, Clock.mem_timers_after.mpr (.inl rfl), rfl⟩

end Monody.Playback
