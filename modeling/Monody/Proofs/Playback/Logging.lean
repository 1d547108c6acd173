import Monody.Proofs.Playback.State

/-!
# Listeners that only log

A listener may do no more than log what he is told. Where all listeners are such, a report leaves its
entries in the log and uses up reactions, and nothing else comes of it. So what is sent and what is
told can be read off the log.

## Main definitions

* `Playback.IsLogging` — all listeners only log
* `Playback.Told` — nothing has changed but the log and the listeners
* `messagesOn`, `reportsIn` — the messages on a channel and the reports in a log

## Main results

* `emit_eq` — a report to listeners that only log
-/

namespace Monody.Playback

variable {s : Playback} {act : Reaction → Playback → Playback}

/-- All listeners only log what they are told. -/
def IsLogging (s : Playback) : Prop := ∀ l ∈ s.listeners, l.reaction = .log

theorem IsLogging.congr {s' : Playback} (h : s.IsLogging) (hlisteners : s'.listeners = s.listeners) :
    s'.IsLogging := by
  rw [IsLogging, hlisteners]
  exact h

/-- Something has been told, and nothing has changed but the log and what listeners will do. -/
structure Told (s s' : Playback) : Prop where
  clock : s'.clock = s.clock
  sessions : s'.sessions = s.sessions
  current : s'.current = s.current
  output : s'.output = s.output
  performers : s'.performers = s.performers

/-! ## Reports -/

/-- A listener that only logs adds entries of his own, if any, to the log. -/
theorem react_eq (hact : ∀ s, act .log s = s) (h : s.IsLogging) (i : Nat) :
    ∃ (k : Nat) (ls : List Listener), (∀ l ∈ ls, l.reaction = .log) ∧
      react act s i =
        { s with listeners := ls, log := s.log ++ List.replicate k (.reaction .log) } := by
  have hset (l : Listener) (hl : l.reaction = .log) :
      ∀ l' ∈ s.listeners.set i l, l'.reaction = .log := by
    intro l' hl'
    rcases List.mem_or_eq_of_mem_set hl' with hl' | rfl
    · exact h l' hl'
    · exact hl
  -- nobody reacts, and at most one listener is changed
  have hsilent (ls : List Listener) : { s with listeners := ls } =
      { s with listeners := ls, log := s.log ++ List.replicate 0 (.reaction .log) } := by
    rw [List.replicate_zero, List.append_nil]
  rw [react]
  split
  · exact ⟨0, s.listeners, h, hsilent _⟩
  next l hl =>
  have hlog := h l (List.mem_of_getElem? hl)
  split
  · next skip _ => exact ⟨0, _, hset { l with skip } hlog, hsilent _⟩
  · next times _ _ =>
    refine ⟨1, _, hset { l with times } hlog, ?_⟩
    rw [hlog, hact]
    rfl
  · exact ⟨0, s.listeners, h, hsilent _⟩

theorem foldl_react_eq (hact : ∀ s, act .log s = s) (is : List Nat) (h : s.IsLogging) :
    ∃ (k : Nat) (ls : List Listener), (∀ l ∈ ls, l.reaction = .log) ∧
      is.foldl (react act) s =
        { s with listeners := ls, log := s.log ++ List.replicate k (.reaction .log) } := by
  induction is generalizing s with
  | nil => exact ⟨0, s.listeners, h, by rw [List.replicate_zero, List.append_nil]; rfl⟩
  | cons i is ih =>
    obtain ⟨k, ls, hls, heq⟩ := react_eq hact h i
    obtain ⟨k', ls', hls', heq'⟩ := ih (s := { s with
      listeners := ls, log := s.log ++ List.replicate k (.reaction .log) }) hls
    refine ⟨k + k', ls', hls', ?_⟩
    rw [List.foldl_cons, heq, heq', List.append_assoc, List.replicate_append_replicate]

/-- A report to listeners that only log leaves its entries in the log, and nothing else comes of
it. -/
theorem emit_eq (h : s.IsLogging) (r : Report) :
    ∃ (k : Nat) (ls : List Listener), (∀ l ∈ ls, l.reaction = .log) ∧
      Playback.emit r s =
        { s with listeners := ls, log := s.log ++ .report r :: List.replicate k (.reaction .log) } := by
  have hwith {act : Reaction → Playback → Playback} (hact : ∀ s, act .log s = s) :
      ∃ (k : Nat) (ls : List Listener), (∀ l ∈ ls, l.reaction = .log) ∧ emitWith act r s =
        { s with listeners := ls, log := s.log ++ .report r :: List.replicate k (.reaction .log) } := by
    obtain ⟨k, ls, hls, heq⟩ := foldl_react_eq hact (s.listening r.topic) (s := s.record (.report r)) h
    refine ⟨k, ls, hls, heq.trans ?_⟩
    rw [record, List.append_assoc]
    rfl
  rw [Playback.emit]
  cases s.reactionsLeft with
  | zero => exact hwith fun _ => rfl
  | succ depth => exact hwith fun _ => rfl

section Emit

variable (h : s.IsLogging) (r : Report)
include h

theorem emit_clock : (Playback.emit r s).clock = s.clock := by
  obtain ⟨k, ls, -, heq⟩ := emit_eq h r
  rw [heq]

theorem emit_sessions : (Playback.emit r s).sessions = s.sessions := by
  obtain ⟨k, ls, -, heq⟩ := emit_eq h r
  rw [heq]

theorem emit_current : (Playback.emit r s).current = s.current := by
  obtain ⟨k, ls, -, heq⟩ := emit_eq h r
  rw [heq]

theorem emit_output : (Playback.emit r s).output = s.output := by
  obtain ⟨k, ls, -, heq⟩ := emit_eq h r
  rw [heq]

theorem isLogging_emit : (Playback.emit r s).IsLogging := by
  obtain ⟨k, ls, hls, heq⟩ := emit_eq h r
  rw [heq]
  exact hls

end Emit

/-! ## Logs -/

/-- The message that an entry is about. -/
def Entry.message? : Entry → Option Midi.Message
  | .signal (.message m) => some m
  | _ => none

/-- The report that an entry is about. -/
def Entry.report? : Entry → Option Report
  | .report r => some r
  | _ => none

/-- The messages on a channel in a log, in order. -/
def messagesOn (channel : Midi.Channel) (log : List Entry) : List Midi.Message :=
  (log.filterMap (·.message?)).filter (·.channel = channel)

/-- The reports in a log, in order. -/
def reportsIn (log : List Entry) : List Report := log.filterMap (·.report?)

variable (channel : Midi.Channel) (log log' : List Entry)

theorem messagesOn_append :
    messagesOn channel (log ++ log') = messagesOn channel log ++ messagesOn channel log' := by
  rw [messagesOn, List.filterMap_append, List.filter_append]
  rfl

theorem reportsIn_append : reportsIn (log ++ log') = reportsIn log ++ reportsIn log' :=
  List.filterMap_append

theorem messagesOn_of_channel {m : Midi.Message} (hm : m.channel = channel) :
    messagesOn channel [.signal (.message m)] = [m] :=
  List.filter_cons_of_pos (by simpa using hm)

theorem messagesOn_of_channel_ne {m : Midi.Message} (hm : m.channel ≠ channel) :
    messagesOn channel [.signal (.message m)] = [] :=
  List.filter_cons_of_neg (by simpa using hm)

theorem messagesOn_emit (h : s.IsLogging) (r : Report) :
    messagesOn channel (Playback.emit r s).log = messagesOn channel s.log := by
  obtain ⟨k, ls, -, heq⟩ := emit_eq h r
  have hnone : (.report r :: List.replicate k (.reaction .log)).filterMap Entry.message? = [] := by
    refine List.filterMap_eq_nil_iff.mpr fun e he => ?_
    rcases List.mem_cons.mp he with rfl | he
    · rfl
    · rw [List.eq_of_mem_replicate he]
      rfl
  rw [heq, messagesOn_append]
  exact (congrArg (messagesOn channel s.log ++ List.filter _ ·) hnone).trans (List.append_nil _)

theorem reportsIn_emit (h : s.IsLogging) (r : Report) :
    reportsIn (Playback.emit r s).log = reportsIn s.log ++ [r] := by
  obtain ⟨k, ls, -, heq⟩ := emit_eq h r
  have hnone : (List.replicate k (Entry.reaction .log)).filterMap Entry.report? = [] :=
    List.filterMap_eq_nil_iff.mpr fun e he => by
      rw [List.eq_of_mem_replicate he]
      rfl
  rw [heq, reportsIn_append]
  exact congrArg (reportsIn s.log ++ r :: ·) hnone

theorem log_prefix_emit (h : s.IsLogging) (r : Report) : s.log <+: (Playback.emit r s).log := by
  obtain ⟨k, ls, -, heq⟩ := emit_eq h r
  rw [heq]
  exact List.prefix_append ..

end Monody.Playback
