import Monody.Proofs.Playback.Programme

/-!
# Sessions that are played through

A session that nobody disturbs plays all it is to play. When the commands have reached its end, the log
shows every voice with its program and then each of its notes, struck and released, in the order of the
melody; the notes of all voices stand in the order in which they were due, and the report that the
session is complete comes once, and last.

## Main definitions

* `noteDue` — when a note that has been reported was due
* `Renders` — a log that shows a voice played
* `IsPlaythrough` — a log that shows all voices played

## Main results

* `exists_strokes` — what a part is to play when the session starts
* `noteDue_of_pending` — the notes that are to be reported, with their times
* `play_through` — sessions that are not disturbed are played through
-/

namespace Monody.Playback

open Binary64 Clock Melody

variable {s : Playback} {plan : Plan} {plans : List Plan} {speed : Number} {r : Binary64}
  {voices : List Voice} {v : Voice} {log : List Entry}

/-! ## What the log shows -/

/-- The voice that a report tells of: that its note sounds, or that it has ended. -/
def Report.voice? : Report → Option Nat
  | .note part .. => some part
  | .voiceEnd part => some part
  | _ => none

/-- When a note that is reported was due in a session that was started at a time. -/
def noteDue (now : Binary64) (speed : Number) (voices : List Voice) : Report → Option Binary64
  | .note i event _ _ => do
    let v ← voices[i]?
    let e ← v.melody.events[event]?
    let seconds ← (secondsAt speed e.start).toOption
    return now + Binary64.max 0 seconds
  | _ => none

/-- A log that shows a voice played: on its channel its program is selected and then each of its notes
is struck and released, and what is told of it is each of its notes and then its end. -/
structure Renders (speed : Number) (i : Nat) (v : Voice) (velocity : Midi.Data)
    (strokes : List Stroke) (log : List Entry) : Prop where
  velocity_eq : v.velocity = .ok velocity
  struck : List.Forall₂ (Stroke.IsOf speed v) v.melody.placedNotes strokes
  messages : messagesOn (.ofVoice i) log = .program (.ofVoice i) v.instrument.program ::
    strokes.flatMap fun k => [.noteOn (.ofVoice i) k.note velocity, .noteOff (.ofVoice i) k.note .zero]
  reports : (reportsIn log).filter (·.voice? = some i) =
    strokes.map (fun k => .note i k.event k.note k.seconds) ++ [.voiceEnd i]

/-- A log that shows all voices played that play: nothing is told of any other voice, the notes of all
voices are told of in the order in which they were due, and at the very end the session is complete. -/
structure IsPlaythrough (now : Binary64) (speed : Number) (voices : List Voice) (log : List Entry) :
    Prop where
  voice : ∀ i ∈ eligible voices, ∀ v ∈ voices[i]?, ∃ velocity strokes,
    Renders speed i v velocity strokes log
  others : ∀ report ∈ reportsIn log, report.topic ≠ .cursor →
    report = .complete ∨ ∃ i ∈ eligible voices, report.voice? = some i
  timed : ∀ report ∈ reportsIn log, report.topic = .note → (noteDue now speed voices report).isSome
  ordered : ((reportsIn log).filterMap (noteDue now speed voices)).Pairwise (· ≤ ·)
  ending : ∃ before, reportsIn log = before ++ [.complete] ∧ Report.complete ∉ before

/-! ## What is foretold -/

/-- A report that is to come is that the session is complete, or it tells of a voice that plays; if it
tells of a note, then when the timer is due. -/
theorem noteDue_of_pending (htimers : s.clock.timers = []) (hforms : Forms s r voices plans)
    (hr : speed.toReal = .ok r) (hpos : 0 < r) {u : Timer Task} {report : Report}
    (hu : u ∈ (s.opening speed plans).clock.timers)
    (hreport : report ∈ u.task.reports ((s.opening speed plans).stroke? s.sessions.length)) :
    (report = .complete ∨ ∃ i ∈ eligible voices, report.voice? = some i) ∧
      noteDue s.clock.now speed voices report = if report.topic = .note then some u.due else none := by
  rcases mem_agenda.mp ((mem_timers_opening htimers).mp hu) with ⟨plan, hplan, hu⟩ | rfl
  · obtain ⟨v, hv, hfor⟩ := hforms.plan plan hplan
    have hindex : plan.part.index ∈ eligible voices := hforms.indices ▸ List.mem_map_of_mem hplan
    rcases hfor.mem_timers.mp hu with ⟨p, hp, rfl⟩ | rfl
    · obtain ⟨k, -, rfl⟩ := List.mem_map.mp hreport
      refine ⟨.inr ⟨_, hindex, rfl⟩, ?_⟩
      rw [noteDue, hv, Option.bind_eq_bind, Option.bind_some, (mem_placedNotes.mp hp).1,
        Option.bind_eq_bind, Option.bind_some, secondsAt_eq hr hpos]
      rfl
    · obtain rfl := List.mem_singleton.mp hreport
      exact ⟨.inr ⟨_, hindex, rfl⟩, rfl⟩
  · obtain rfl := List.mem_singleton.mp hreport
    exact ⟨.inl rfl, rfl⟩

/-- The programs that are selected when a session starts are no reports. -/
theorem reportsIn_selections (plans : List Plan) : reportsIn (plans.map (·.selection)) = [] :=
  List.filterMap_eq_nil_iff.mpr fun e he => by
    obtain ⟨plan, -, rfl⟩ := List.mem_map.mp he
    rfl

/-- On the channel of a part, just its own program is selected. -/
theorem messagesOn_selections (hforms : Forms s r voices plans) (hcount : voices.length ≤ 15)
    (hplan : plan ∈ plans) : messagesOn plan.part.channel (plans.map (·.selection)) =
      [.program plan.part.channel plan.program] := by
  obtain ⟨before, after, rfl⟩ := List.append_of_mem hplan
  obtain ⟨hbefore, hafter⟩ := Plan.ne_of_append hforms.nodup_indices
  have hnone {qs : List Plan} (hqs : ∀ q ∈ qs, q ∈ before ++ plan :: after ∧ q ≠ plan) :
      messagesOn plan.part.channel (qs.map (·.selection)) = [] := by
    induction qs with
    | nil => rfl
    | cons q qs ih =>
      obtain ⟨⟨hq, hne⟩, hqs⟩ := List.forall_mem_cons.mp hqs
      have hchannel : q.part.channel ≠ plan.part.channel := fun h =>
        hne (hforms.eq_of_channel hcount hq hplan h)
      rw [List.map_cons, ← List.singleton_append, messagesOn_append, ih hqs, List.append_nil]
      exact messagesOn_of_channel_ne _ hchannel
  have hsilent := hnone fun q hq => ⟨List.mem_append_left _ hq, hbefore q hq⟩
  have hsilent' := hnone fun q hq =>
    ⟨List.mem_append_right _ (List.mem_cons_of_mem plan hq), hafter q hq⟩
  rw [List.map_append, List.map_cons, messagesOn_append, hsilent, ← List.singleton_append,
    messagesOn_append, hsilent', List.nil_append, List.append_nil]
  exact messagesOn_of_channel plan.part.channel (m := .program plan.part.channel plan.program) rfl

/-- A timer of one part brings about no message of another. -/
theorem messages_eq_nil_of_ne {stroke : Part → Nat → Option (Midi.Data × Binary64)} {task : Task}
    {part q : Part} (htask : task.part? = some q) (hne : q ≠ part) : task.messages stroke part = [] := by
  cases task with
  | strike p event =>
    obtain rfl := Option.some.inj htask
    exact if_neg hne.symm
  | _ => rfl

/-- A timer of one part brings about no report of another. -/
theorem reports_eq_nil_of_ne {stroke : Part → Nat → Option (Midi.Data × Binary64)} {task : Task}
    {q : Part} {i : Nat} (htask : task.part? = some q) (hne : q.index ≠ i) :
    (task.reports stroke).filter (·.voice? = some i) = [] := by
  cases task with
  | strike p event =>
    obtain rfl := Option.some.inj htask
    refine List.filter_eq_nil_iff.mpr fun report hreport => ?_
    obtain ⟨k, -, rfl⟩ := List.mem_map.mp hreport
    simpa [Report.voice?] using hne
  | release => rfl
  | endPart p =>
    obtain rfl := Option.some.inj htask
    exact List.filter_cons_of_neg (by simpa [Report.voice?] using hne)
  | complete => cases htask

/-- A part is to play the strokes of its voice. -/
theorem exists_strokes (hs : s.IsReady) (hforms : Forms s r voices plans) (hfinite : r.isFinite)
    (hpos : 0 < r) (hr : speed.toReal = .ok r) (hnow : s.clock.now.isFinite) (hplan : plan ∈ plans)
    (hfor : plan.IsFor s r v) :
    ∃ strokes : List Stroke, List.Forall₂ (Stroke.IsOf speed v) v.melody.placedNotes strokes ∧
      foretold (·.messages ((s.opening speed plans).stroke? s.sessions.length) plan.part)
          (s.opening speed plans).clock.queue =
        strokes.flatMap (fun k => plan.part.messages k.note) ∧
      (foretold (·.reports ((s.opening speed plans).stroke? s.sessions.length))
          (s.opening speed plans).clock.queue).filter (·.voice? = some plan.part.index) =
        strokes.map (fun k => .note plan.part.index k.event k.note k.seconds) ++
          [.voiceEnd plan.part.index] := by
  obtain ⟨strokes, hall⟩ := exists_forall₂ fun p (hp : p ∈ v.melody.placedNotes) =>
    exists_stroke plans hr hpos hfor hp
  generalize (s.opening speed plans).stroke? s.sessions.length = stroke at hall
  have hindex : ∀ q ∈ plans, q ≠ plan → q.part.index ≠ plan.part.index := fun q hq hne h =>
    hne (hforms.eq_of_index hq hplan h)
  -- what the timers of the part bring about is read off its strokes
  have hforetold {β : Type} (f : Task → List β) (g : Stroke → List β)
      (hcomplete : f .complete = [])
      (hothers : ∀ q ∈ plans, q ≠ plan → ∀ task, task.part? = some q.part → f task = [])
      (hfg : ∀ p k, k.IsOf speed v p → stroke plan.part p.2 = some (k.note, k.seconds) →
        f (.strike plan.part p.2) = g k) :
      foretold f (s.opening speed plans).clock.queue =
        strokes.flatMap g ++ f (.endPart plan.part) := by
    rw [foretold_opening hs hforms hfinite hpos hnow hplan hcomplete hothers, hfor.strikes_eq,
      List.flatMap_map, List.flatMap_def, List.flatMap_def]
    exact congrArg (·.flatten ++ _) (map_eq_map_of_forall₂ hall fun p k h => hfg p k h.1 h.2)
  refine ⟨strokes, hall.imp fun _ _ h => h.1, ?_, ?_⟩
  · refine (hforetold (·.messages stroke plan.part) (fun k => plan.part.messages k.note) rfl
      (fun q hq hne task htask => ?_) fun p k _ hstroke => ?_).trans (List.append_nil _)
    · exact messages_eq_nil_of_ne htask fun h => hindex q hq hne (congrArg Part.index h)
    · simp only [Task.messages, hstroke, if_true, Option.toList_some, List.flatMap_singleton]
  · rw [← foretold_filter, List.map_eq_flatMap]
    refine (hforetold (fun task => (task.reports stroke).filter (·.voice? = some plan.part.index))
      (fun k => [.note plan.part.index k.event k.note k.seconds]) rfl
      (fun q hq hne task htask => ?_) fun p k hk hstroke => ?_).trans ?_
    · exact reports_eq_nil_of_ne htask (hindex q hq hne)
    · simp [Task.reports, hstroke, Report.voice?, hk.event]
    · simp [Task.reports, Report.voice?]

/-- The notes that are to be reported are in the order in which they are due. -/
theorem pairwise_noteDue (hs : s.IsReady) (hforms : Forms s r voices plans) (hpos : 0 < r)
    (hr : speed.toReal = .ok r) (hdue : ∀ t ∈ (s.opening speed plans).clock.timers, t.due.isFinite) :
    ((foretold (·.reports ((s.opening speed plans).stroke? s.sessions.length))
      (s.opening speed plans).clock.queue).filterMap (noteDue s.clock.now speed voices)).Pairwise
        (· ≤ ·) := by
  rw [← foretold_filterMap]
  refine pairwise_foretold (inTurn_insertAll _ (inTurn_of_timers hs.timers)) fun u hu hlive x hx => ?_
  have hpending := mem_timers_iff.mpr ⟨hu, hlive⟩
  obtain ⟨report, hreport, hx⟩ := List.mem_filterMap.mp hx
  rw [(noteDue_of_pending hs.timers hforms hr hpos hpending hreport).2] at hx
  split at hx
  · obtain rfl := Option.some.inj hx
    exact ⟨rfl, ne_nan_of_isFinite (hdue u hpending)⟩
  · cases hx

/-! ## What the log shows in the end -/

section Over

variable {final : Playback} {entries : List Entry} (hlog : final.log = s.log ++ entries)
  (hover : IsOver s.sessions.length (plans.map (·.part)) final)
  (hkeeps : Keeps s.sessions.length (plans.map (·.part))
    ((s.opening speed plans).stroke? s.sessions.length) (s.opening speed plans) final)
include hlog hover hkeeps

/-- No timer is pending any more and no note is held, so all messages that were foretold are in the
log. -/
theorem messagesOn_of_isOver (hforms : Forms s r voices plans) (hcount : voices.length ≤ 15)
    (hplan : plan ∈ plans) : messagesOn plan.part.channel entries =
      .program plan.part.channel plan.program ::
        foretold (·.messages ((s.opening speed plans).stroke? s.sessions.length) plan.part)
          (s.opening speed plans).clock.queue := by
  have hopening : (s.opening speed plans).log = s.log ++ plans.map (·.selection) := rfl
  have hmem : plan.part ∈ plans.map (·.part) := List.mem_map_of_mem hplan
  have haccount := hkeeps.account plan.part hmem
  rw [account, account, foretold_eq_nil_of_timers hover.timers, rendered, rendered,
    hover.silent plan.part hmem, heldBy_opening, hlog, hopening, messagesOn_append, messagesOn_append,
    messagesOn_selections hforms hcount hplan] at haccount
  simpa [Part.owed] using haccount

/-- All reports that were foretold are in the log. -/
theorem reportsIn_of_isOver : (reportsIn entries).filter (·.topic ≠ .cursor) =
    foretold (·.reports ((s.opening speed plans).stroke? s.sessions.length))
      (s.opening speed plans).clock.queue := by
  have hopening : (s.opening speed plans).log = s.log ++ plans.map (·.selection) := rfl
  have hprogramme := hkeeps.programme
  rw [programme, programme, foretold_eq_nil_of_timers hover.timers, announced, announced, hlog,
    hopening, reportsIn_append, reportsIn_append, reportsIn_selections] at hprogramme
  simpa using hprogramme

/-- The last report is that the session is complete, which comes once. -/
theorem ending_of_isOver (hs : s.IsReady) (hforms : Forms s r voices plans) (hfinite : r.isFinite)
    (hpos : 0 < r) (hnow : s.clock.now.isFinite) :
    ∃ before, reportsIn entries = before ++ [.complete] ∧ Report.complete ∉ before := by
  obtain ⟨foretold, hforetold, hnot⟩ := ending_opening hs hforms hfinite hpos hnow
    ((s.opening speed plans).stroke? s.sessions.length)
  rw [← reportsIn_of_isOver hlog hover hkeeps] at hforetold
  have hne : reportsIn entries ≠ [] := by
    intro hnil
    rw [hnil] at hforetold
    simp at hforetold
  have hlast := hover.last
  rw [hlog, reportsIn_append, List.getLast?_append_of_ne_nil _ hne] at hlast
  obtain ⟨before, hbefore⟩ := List.getLast?_eq_some_iff.mp hlast
  refine ⟨before, hbefore, fun hmem => hnot ?_⟩
  -- an earlier one would have been foretold before the last
  rw [hbefore, List.filter_append] at hforetold
  rw [← List.append_inj_left' hforetold rfl]
  exact List.mem_filter.mpr ⟨hmem, rfl⟩

/-- Whatever has been reported, but for cursors, some timer was to report. -/
theorem exists_timer_of_mem_reportsIn {report : Report} (hreport : report ∈ reportsIn entries)
    (htopic : report.topic ≠ .cursor) :
    ∃ u ∈ (s.opening speed plans).clock.timers,
      report ∈ u.task.reports ((s.opening speed plans).stroke? s.sessions.length) := by
  have hmem : report ∈ (reportsIn entries).filter (·.topic ≠ .cursor) :=
    List.mem_filter.mpr ⟨hreport, decide_eq_true htopic⟩
  rw [reportsIn_of_isOver hlog hover hkeeps] at hmem
  obtain ⟨u, hu, hlive, hmem⟩ := mem_foretold.mp hmem
  exact ⟨u, mem_timers_iff.mpr ⟨hu, hlive⟩, hmem⟩

/-- When a session is over, the log shows each voice that plays. -/
theorem renders_of_isOver (hs : s.IsReady) (hforms : Forms s r voices plans) (hfinite : r.isFinite)
    (hpos : 0 < r) (hr : speed.toReal = .ok r) (hcount : voices.length ≤ 15)
    (hnow : s.clock.now.isFinite) {i : Nat} (hi : i ∈ eligible voices) (hv : v ∈ voices[i]?) :
    ∃ velocity strokes, Renders speed i v velocity strokes entries := by
  rw [← hforms.indices] at hi
  obtain ⟨plan, hplan, rfl⟩ := List.mem_map.mp hi
  obtain ⟨v', hv', hfor⟩ := hforms.plan plan hplan
  obtain rfl := Option.some.inj (hv.symm.trans hv')
  obtain ⟨strokes, hstruck, hmessages, hvoice⟩ :=
    exists_strokes hs hforms hfinite hpos hr hnow hplan hfor
  refine ⟨plan.part.velocity, strokes, hfor.velocity, hstruck, ?_, ?_⟩
  · have hprogram : plan.program = v.instrument.program := congrArg Plan.program hfor.eq
    rw [← hforms.channel_eq hplan, messagesOn_of_isOver hlog hover hkeeps hforms hcount hplan,
      hmessages, hprogram]
    rfl
  · -- no report of a cursor tells of a voice
    rw [← hvoice, ← reportsIn_of_isOver hlog hover hkeeps, List.filter_filter]
    refine List.filter_congr fun report _ => ?_
    cases report <;> simp [Report.voice?, Report.topic]

/-- When a session is over, the notes have been reported in the order in which they were due. -/
theorem pairwise_noteDue_of_isOver (hs : s.IsReady) (hforms : Forms s r voices plans) (hpos : 0 < r)
    (hr : speed.toReal = .ok r) (hdue : ∀ t ∈ (s.opening speed plans).clock.timers, t.due.isFinite) :
    ((reportsIn entries).filterMap (noteDue s.clock.now speed voices)).Pairwise (· ≤ ·) := by
  -- no report of a cursor is due at a time
  have hsame : (reportsIn entries).filterMap (noteDue s.clock.now speed voices) =
      ((reportsIn entries).filter (·.topic ≠ .cursor)).filterMap
        (noteDue s.clock.now speed voices) := by
    rw [List.filterMap_filter]
    refine List.filterMap_congr fun report _ => ?_
    cases report <;> rfl
  rw [hsame, reportsIn_of_isOver hlog hover hkeeps]
  exact pairwise_noteDue hs hforms hpos hr hdue

/-- When a session is over, the log shows all voices played. -/
theorem isPlaythrough_of_isOver (hs : s.IsReady) (hforms : Forms s r voices plans)
    (hfinite : r.isFinite) (hpos : 0 < r) (hr : speed.toReal = .ok r) (hcount : voices.length ≤ 15)
    (hdue : ∀ t ∈ (s.opening speed plans).clock.timers, t.due.isFinite) :
    IsPlaythrough s.clock.now speed voices entries where
  voice _ hi _ hv := renders_of_isOver hlog hover hkeeps hs hforms hfinite hpos hr hcount
    (isFinite_now hs.timers hdue) hi hv
  others report hreport htopic := by
    obtain ⟨u, hu, hmem⟩ := exists_timer_of_mem_reportsIn hlog hover hkeeps hreport htopic
    exact (noteDue_of_pending hs.timers hforms hr hpos hu hmem).1
  timed report hreport htopic := by
    obtain ⟨u, hu, hmem⟩ :=
      exists_timer_of_mem_reportsIn hlog hover hkeeps hreport (by rw [htopic]; decide)
    rw [(noteDue_of_pending hs.timers hforms hr hpos hu hmem).2, if_pos htopic]
    rfl
  ordered := pairwise_noteDue_of_isOver hlog hover hkeeps hs hforms hpos hr hdue
  ending := ending_of_isOver hlog hover hkeeps hs hforms hfinite hpos (isFinite_now hs.timers hdue)

end Over

/-! ## Playing through -/

/-- **Sessions that are not disturbed are played through.** Whoever starts one where playback is ready,
with at most fifteen voices of which those that play are performable, and then just lets time pass and
gives voices new settings until the last timer has been reached, finds every voice played in the log,
the session completed and no timer pending. -/
theorem play_through (hs : s.IsReady) {performers : List Nat} {given : Option Number}
    {reply : Except Refusal Reply} {started : Playback} {cs : List Command}
    (hperformers : ∀ i ∈ performers, i < s.performers.length) (hcount : performers.length ≤ 15)
    (heligible : eligible (s.voicesOf performers) ≠ [])
    (hvoices : ∀ i ∈ eligible (s.voicesOf performers), ∀ v ∈ (s.voicesOf performers)[i]?,
      v.IsPerformable)
    (hspeed : (given.getD s.defaultSpeed).IsSpeed)
    (hplay : perform (.play performers given) s = (reply, started))
    (hdue : ∀ t ∈ started.clock.timers, t.due.isFinite)
    (hcs : ∀ c ∈ cs, c.IsUndisturbing)
    (hreaches : ∀ t ∈ started.clock.timers, Reaches t.due cs started) :
    reply = .ok (.session s.sessions.length) ∧
      (∃ entries, (performAll cs started).log = s.log ++ entries ∧
        IsPlaythrough s.clock.now (given.getD s.defaultSpeed) (s.voicesOf performers) entries) ∧
      ((performAll cs started).sessions[s.sessions.length]?).bind (·.result) = some .completed ∧
      (performAll cs started).clock.timers = [] := by
  obtain ⟨r, hr, hfinite, hpos⟩ := hspeed
  obtain ⟨plans, hforms, hall⟩ := exists_forms hperformers hvoices hr hpos
  have hcount' : (s.voicesOf performers).length ≤ 15 := (voicesOf_eq hperformers).1.symm ▸ hcount
  have hcast : s.castOf performers ≠ [] := by
    intro hnil
    have hindices := castOf_fst hperformers
    rw [hnil] at hindices
    exact heligible hindices.symm
  have hplayed := play_eq hs.idle hs.connected (Number.IsSpeed.not_le_zero ⟨r, hr, hfinite, hpos⟩)
    hcast hall Playback.emit
  rw [perform, hplayed] at hplay
  obtain ⟨rfl, rfl⟩ := Prod.mk.inj hplay
  have hensemble := hforms.isEnsemble hcount'
  have hunderway := underway_opening hs hforms hfinite hpos hr hdue
  obtain ⟨hover, hkeeps⟩ := hunderway.performAll hensemble hcs
    (hreaches _ ((mem_timers_opening hs.timers).mpr (mem_agenda.mpr (.inr rfl))))
  -- the log has grown by the programs that were selected at first and what came later
  obtain ⟨later, hlater⟩ := hkeeps.log
  have hlog : (performAll cs (s.opening (given.getD s.defaultSpeed) plans)).log =
      s.log ++ (plans.map (·.selection) ++ later) := by
    rw [← hlater, ← List.append_assoc]
    rfl
  obtain ⟨session, hsession, hresult⟩ := hover.result
  refine ⟨rfl, ⟨_, hlog, ?_⟩, ?_, hover.timers⟩
  · exact isPlaythrough_of_isOver hlog hover hkeeps hs hforms hfinite hpos hr hcount' hdue
  · exact (congrArg (·.bind Session.result) hsession).trans hresult

/-- A note that is struck again without a gap, beside a shorter one; a third voice is muted, and while
the notes sound the first one is muted too and given another instrument. -/
theorem play_through_duet :
    ∃ m m', Melody.parse "c(500) c p".toList = .ok m ∧
      Melody.parse "//low// e2(750)".toList = .ok m' ∧
      let voices : List Voice := [⟨m, .organ, .real 1, false, false, []⟩,
        ⟨m', .bass, .real Number.half, false, false, []⟩, ⟨m, .piano, .real 1, true, false, []⟩]
      let s := start (.ofConnection (some ⟨false⟩) none) voices [⟨.note, 0, 1, .log⟩] (.real 1) true
      let started := (perform (.play [0, 1, 2] (some 2)) s).2
      let cs : List Command := [.advance (.real Number.half),
        .assign 0 ⟨some true, none, none, some 0, some .flute⟩, .runAll]
      eligible voices = [0, 1] ∧
        (∃ entries, (performAll cs started).log = s.log ++ entries ∧
          IsPlaythrough 0 2 voices entries) ∧
        ((performAll cs started).sessions[0]?).bind (·.result) = some .completed ∧
        (performAll cs started).clock.timers = [] := by
  refine ⟨⟨_, _⟩, ⟨_, _⟩, rfl, rfl, ?_⟩
  intro voices s started cs
  have heligible : eligible (s.voicesOf [0, 1, 2]) = [0, 1] := by decide +kernel +zetaReduce
  have hspeed : ((some 2 : Option Number).getD s.defaultSpeed).IsSpeed :=
    ⟨.ofInt 2, by decide +kernel, by decide +kernel, by decide +kernel⟩
  have hready : s.IsReady :=
    isReady_start voices (.real 1) rfl fun l hl => List.mem_singleton.mp hl ▸ rfl
  have hvoices : ∀ i ∈ eligible (s.voicesOf [0, 1, 2]), ∀ v ∈ (s.voicesOf [0, 1, 2])[i]?,
      v.IsPerformable := by
    rw [heligible]
    refine List.forall_mem_cons.mpr ⟨fun v hv => ?_, List.forall_mem_singleton.mpr fun v hv => ?_⟩
    · obtain rfl := Option.some.inj hv
      exact ⟨⟨"c(500) c p".toList, rfl⟩, by decide +kernel, by decide +kernel⟩
    · obtain rfl := Option.some.inj hv
      exact ⟨⟨"//low// e2(750)".toList, rfl⟩, by decide +kernel, by decide +kernel⟩
  refine ⟨heligible, (play_through hready (by decide +kernel +zetaReduce) (by decide)
    (heligible ▸ List.cons_ne_nil 0 [1]) hvoices hspeed (Prod.eta _).symm
    (by decide +kernel +zetaReduce) (by simp [cs, Command.IsUndisturbing])
    (by decide +kernel +zetaReduce)).2⟩
end Monody.Playback
