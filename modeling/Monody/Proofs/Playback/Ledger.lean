import Monody.Proofs.Output
import Monody.Proofs.Playback.Logging

/-!
# What a session has rendered

A part has sent what the log shows on its channel, and it owes the release of the note that it holds.
The two together are what it has rendered: releasing a note changes nothing in it, whether the time
for it has come, another note is struck, or the part ends. Only striking a note adds to it, and then
the note is added with its release.

## Main definitions

* `IsEnsemble` — parts that can be told apart by their channels and by their indices
* `Sounding` — the notes that the parts of a session hold sound
* `rendered`, `announced` — what a part has sent and owes, and what listeners have been told
* `Adds` — a step that adds some messages and reports

## Main results

* `Sounding.release` — a part that releases its note adds nothing
* `Sounding.sound` — a part that strikes a note adds it with its release
-/

namespace Monody.Playback

variable {s s' : Playback} {id : Nat} {session : Session} {part q : Part} {parts : List Part} {h : Held}

/-! ## Held notes -/

namespace Session

theorem held?_drop_self (session : Session) (i : Nat) : (session.drop i).held? i = none := by
  simp [held?, drop]

theorem held?_drop_of_ne {i j : Nat} (hij : j ≠ i) : (session.drop i).held? j = session.held? j := by
  rw [held?, held?, drop, List.find?_filter]
  congr 1
  funext h
  by_cases hj : h.part = j <;> simp [hj, hij]

theorem held?_hold_self (session : Session) (h : Held) : (session.hold h).held? h.part = some h := by
  simp [held?, hold]

theorem held?_hold_of_ne {j : Nat} (hj : j ≠ h.part) : (session.hold h).held? j = session.held? j := by
  have hne : (h.part == j) = false := beq_false_of_ne hj.symm
  rw [held?, hold, List.find?_cons, hne]
  exact held?_drop_of_ne hj

end Session

/-- The note that a part holds in a session. -/
def heldBy (s : Playback) (id : Nat) (part : Part) : Option Held :=
  (s.sessions[id]?).bind (·.held? part.index)

theorem heldBy_eq (hs : s.sessions[id]? = some session) (part : Part) :
    s.heldBy id part = session.held? part.index := by
  rw [heldBy, hs]
  rfl

/-- What a part holds depends on the notes of the sessions alone. -/
theorem heldBy_congr (hs : (s'.sessions[id]?).map (·.held) = (s.sessions[id]?).map (·.held)) :
    s'.heldBy id part = s.heldBy id part := by
  have heq (s : Playback) : s.heldBy id part =
      ((s.sessions[id]?).map (·.held)).bind (·.find? (·.part == part.index)) := by
    rw [heldBy, Option.bind_map]
    rfl
  rw [heq, heq, hs]

/-! ## The parts of a session -/

/-- Parts that can be told apart by their channels and by their indices, and whose notes are heard. -/
structure IsEnsemble (parts : List Part) : Prop where
  eq_of_channel : ∀ p ∈ parts, ∀ q ∈ parts, p.channel = q.channel → p = q
  eq_of_index : ∀ p ∈ parts, ∀ q ∈ parts, p.index = q.index → p = q
  audible : ∀ p ∈ parts, p.velocity ≠ .zero

/-- What does not change while a session is played: its speed, its parts, whether it has ended and with
which result, the melodies of all performers, and whether there is a connection. -/
structure Frames (id : Nat) (s s' : Playback) : Prop where
  current : s'.current = s.current
  session : (s'.sessions[id]?).map (fun session =>
      (session.speed, session.parts, session.result, session.hasEnded)) =
    (s.sessions[id]?).map fun session =>
      (session.speed, session.parts, session.result, session.hasEnded)
  melodies : s'.performers.map (·.voice.melody) = s.performers.map (·.voice.melody)
  connected : s'.output.isOpen = s.output.isOpen

/-- What a change of one element keeps of it is kept of all. -/
theorem map_modify_of_eq {α β : Type} {as : List α} {f : α → α} {g : α → β} (h : ∀ a, g (f a) = g a)
    (i : Nat) : (as.modify i f).map g = as.map g := by
  refine List.ext_getElem? fun j => ?_
  rw [List.getElem?_map, List.getElem?_map, List.getElem?_modify]
  cases as[j]? with
  | none => rfl
  | some a => by_cases hij : i = j <;> simp [hij, h]

namespace Frames

theorem refl (s : Playback) : Frames id s s := ⟨rfl, rfl, rfl, rfl⟩

theorem trans {s₁ s₂ s₃ : Playback} (h : Frames id s₁ s₂) (h' : Frames id s₂ s₃) : Frames id s₁ s₃ :=
  ⟨h'.current.trans h.current, h'.session.trans h.session, h'.melodies.trans h.melodies,
    h'.connected.trans h.connected⟩

/-- An update of a session that concerns neither its speed nor its parts nor its end. -/
theorem update {f : Session → Session} (hf : ∀ session ∈ s.sessions[id]?,
    ((f session).speed, (f session).parts, (f session).result, (f session).hasEnded) =
      (session.speed, session.parts, session.result, session.hasEnded)) :
    Frames id s (s.update id f) := by
  refine ⟨rfl, ?_, rfl, rfl⟩
  cases hs : s.sessions[id]? with
  | none => rw [update_sessions, List.getElem?_modify_eq, hs]; rfl
  | some session => rw [sessions_update_self hs]; exact congrArg some (hf session hs)

theorem setCursor (i : Nat) (event : Option Nat) : Frames id s (s.setCursor i event) :=
  ⟨rfl, rfl, map_modify_of_eq (f := fun p : Performer => { p with cursor := event }) (fun _ => rfl) i,
    rfl⟩

theorem emit (hs : s.IsLogging) (r : Report) : Frames id s (Playback.emit r s) := by
  obtain ⟨k, ls, -, heq⟩ := emit_eq hs r
  rw [heq]
  exact ⟨rfl, rfl, rfl, rfl⟩

theorem isCurrent (h : Frames id s s') (hs : s.IsCurrent id) : s'.IsCurrent id := by
  obtain ⟨hcurrent, session, hsession, hlive⟩ := hs
  have hmap := h.session
  rw [Option.mem_def.mp hsession] at hmap
  obtain ⟨session', hsession', heq⟩ := Option.map_eq_some_iff.mp hmap
  refine ⟨h.current.trans hcurrent, session', hsession', ?_⟩
  rw [← hlive]
  exact congrArg (·.2.2.2) heq

end Frames

/-- The session is there with its parts and has no result yet, and the notes that they hold sound. -/
structure Sounding (id : Nat) (parts : List Part) (s : Playback) : Prop where
  logging : s.IsLogging
  connected : s.output.isOpen = true
  session : ∃ session, s.sessions[id]? = some session ∧ session.parts = parts ∧
    session.result = none
  held : ∀ part ∈ parts, ∀ h ∈ s.heldBy id part,
    ((part.channel.val : Int), (h.note.val : Int)) ∈ s.output.active

/-- What has to be shown again after a step. -/
theorem Sounding.of_frames (hs : Sounding id parts s) (hframes : Frames id s s')
    (hlogging : s'.IsLogging) (hheld : ∀ part ∈ parts, ∀ h ∈ s'.heldBy id part,
      ((part.channel.val : Int), (h.note.val : Int)) ∈ s'.output.active) :
    Sounding id parts s' where
  logging := hlogging
  connected := hframes.connected.trans hs.connected
  session := by
    obtain ⟨session, hsession, hparts, hresult⟩ := hs.session
    have hmap := hframes.session
    rw [hsession] at hmap
    obtain ⟨session', hsession', heq⟩ := Option.map_eq_some_iff.mp hmap
    refine ⟨session', hsession', ?_, ?_⟩
    · rw [← hparts]
      exact congrArg (·.2.1) heq
    · rw [← hresult]
      exact congrArg (·.2.2.1) heq
  held := hheld

/-! ## What is added -/

/-- The messages that strike a note and release it. -/
def Part.messages (part : Part) (note : Midi.Data) : List Midi.Message :=
  [.noteOn part.channel note part.velocity, .noteOff part.channel note .zero]

/-- The release of the note that a part holds. -/
def Part.owed (part : Part) (held : Option Held) : List Midi.Message :=
  (held.map fun h => .noteOff part.channel h.note .zero).toList

/-- What a part has sent, with the release of the note that it holds. -/
def rendered (s : Playback) (id : Nat) (part : Part) : List Midi.Message :=
  messagesOn part.channel s.log ++ part.owed (s.heldBy id part)

/-- What listeners have been told, but for where the parts are in their melodies. -/
def announced (s : Playback) : List Report := (reportsIn s.log).filter (·.topic ≠ .cursor)

/-- A step that adds some messages of the parts and some reports. -/
structure Adds (id : Nat) (parts : List Part) (messages : Part → List Midi.Message)
    (reports : List Report) (s s' : Playback) : Prop where
  log : s.log <+: s'.log
  rendered : ∀ q ∈ parts, s'.rendered id q = s.rendered id q ++ messages q
  announced : s'.announced = s.announced ++ reports

namespace Adds

variable {messages messages' : Part → List Midi.Message} {reports reports' : List Report}

theorem trans {s₁ s₂ s₃ : Playback} (h : Adds id parts messages reports s₁ s₂)
    (h' : Adds id parts messages' reports' s₂ s₃) :
    Adds id parts (fun q => messages q ++ messages' q) (reports ++ reports') s₁ s₃ where
  log := h.log.trans h'.log
  rendered q hq := by rw [h'.rendered q hq, h.rendered q hq, List.append_assoc]
  announced := by rw [h'.announced, h.announced, List.append_assoc]

/-- A step that touches neither the log nor the notes that are held. -/
theorem of_eq (hlog : s'.log = s.log)
    (hheld : (s'.sessions[id]?).map (·.held) = (s.sessions[id]?).map (·.held)) :
    Adds id parts (fun _ => []) [] s s' where
  log := hlog ▸ List.prefix_refl _
  rendered q _ := by rw [Playback.rendered, Playback.rendered, hlog, heldBy_congr hheld, List.append_nil]
  announced := by rw [Playback.announced, Playback.announced, hlog, List.append_nil]

theorem refl (s : Playback) : Adds id parts (fun _ => []) [] s s := of_eq rfl rfl

theorem emit (hs : s.IsLogging) (r : Report) :
    Adds id parts (fun _ => []) ([r].filter fun r => r.topic ≠ .cursor) s (Playback.emit r s) where
  log := log_prefix_emit hs r
  rendered q _ := by
    have hheld : (Playback.emit r s).heldBy id q = s.heldBy id q :=
      heldBy_congr (congrArg (fun sessions => (sessions[id]?).map (·.held)) (emit_sessions hs r))
    rw [Playback.rendered, Playback.rendered, messagesOn_emit _ hs, hheld, List.append_nil]
  announced := by rw [Playback.announced, Playback.announced, reportsIn_emit hs, List.filter_append]

end Adds

/-- A step of a session that goes on, which adds some messages and reports. -/
structure Proceeds (id : Nat) (parts : List Part) (messages : Part → List Midi.Message)
    (reports : List Report) (s s' : Playback) : Prop extends Adds id parts messages reports s s' where
  frames : Frames id s s'
  sounding : Sounding id parts s'

theorem Proceeds.trans {messages messages' : Part → List Midi.Message} {reports reports' : List Report}
    {s₁ s₂ s₃ : Playback} (h : Proceeds id parts messages reports s₁ s₂)
    (h' : Proceeds id parts messages' reports' s₂ s₃) :
    Proceeds id parts (fun q => messages q ++ messages' q) (reports ++ reports') s₁ s₃ :=
  ⟨h.toAdds.trans h'.toAdds, h.frames.trans h'.frames, h'.sounding⟩

namespace Sounding

variable (hs : Sounding id parts s)
include hs

theorem refl : Proceeds id parts (fun _ => []) [] s s := ⟨.refl s, .refl s, hs⟩

/-- A step that touches neither the log nor the notes that are held. -/
theorem of_eq (hframes : Frames id s s') (hlog : s'.log = s.log)
    (hlisteners : s'.listeners = s.listeners) (hactive : s'.output.active = s.output.active)
    (hheld : (s'.sessions[id]?).map (·.held) = (s.sessions[id]?).map (·.held)) :
    Proceeds id parts (fun _ => []) [] s s' := by
  refine ⟨.of_eq hlog hheld, hframes, hs.of_frames hframes (hs.logging.congr hlisteners) ?_⟩
  intro part hpart h hh
  rw [hactive]
  exact hs.held part hpart h (heldBy_congr hheld ▸ hh)

theorem setCursor (i : Nat) (event : Option Nat) :
    Proceeds id parts (fun _ => []) [] s (s.setCursor i event) :=
  hs.of_eq (.setCursor i event) rfl rfl rfl rfl

theorem emit_filter (r : Report) : Proceeds id parts (fun _ => [])
    ([r].filter fun r => r.topic ≠ .cursor) s (Playback.emit r s) := by
  refine ⟨.emit hs.logging r, .emit hs.logging r,
    hs.of_frames (.emit hs.logging r) (isLogging_emit hs.logging r) ?_⟩
  intro part hpart h hh
  rw [emit_output hs.logging]
  refine hs.held part hpart h ?_
  rwa [heldBy, emit_sessions hs.logging] at hh

theorem emit {r : Report} (hr : r.topic ≠ .cursor) :
    Proceeds id parts (fun _ => []) [r] s (Playback.emit r s) := by
  have hemit := hs.emit_filter r
  rwa [List.filter_cons_of_pos (by simpa using hr), List.filter_nil] at hemit

theorem emit_cursor (i : Nat) (event : Option Nat) :
    Proceeds id parts (fun _ => []) [] s (Playback.emit (.cursor i event) s) :=
  hs.emit_filter (.cursor i event)

end Sounding

/-! ## Releasing and striking notes -/

theorem release_of_heldBy_none (hnone : s.heldBy id part = none) : release id part s = s := by
  have hbind : (s.sessions[id]?).bind (·.held? part.index) = none := hnone
  rw [release, hbind]

/-- A part that holds a note which sounds releases it. -/
theorem release_of_heldBy (hheld : s.heldBy id part = some h) (hopen : s.output.isOpen = true)
    (hactive : ((part.channel.val : Int), (h.note.val : Int)) ∈ s.output.active) :
    release id part s =
      { s.update id (·.drop part.index) with
        output := { s.output with
          active := s.output.active.erase ((part.channel.val : Int), (h.note.val : Int)) }
        log := s.log ++ [.signal (.message (.noteOff part.channel h.note .zero))] } := by
  have hbind : (s.sessions[id]?).bind (·.held? part.index) = some h := hheld
  simp only [release, hbind, through, update_output, Output.noteOff_eq hopen _ _ hactive]
  rfl

namespace Sounding

variable (hs : Sounding id parts s) (hparts : IsEnsemble parts) (hpart : part ∈ parts)
include hs hparts hpart

/-- A part sends a message and holds another note, or none. What it has rendered after this is what it
had rendered before and some messages, if the message settles what it owed. -/
theorem of_message (messages : List Midi.Message) {session' : Session} {m : Midi.Message}
    (hframes : Frames id s s') (hlisteners : s'.listeners = s.listeners)
    (hsession : s.sessions[id]? = some session) (hsession' : s'.sessions[id]? = some session')
    (hothers : ∀ i ≠ part.index, session'.held? i = session.held? i)
    (hheld : ∀ h ∈ session'.held? part.index,
      ((part.channel.val : Int), (h.note.val : Int)) ∈ s'.output.active)
    (hactive : ∀ k ∈ s.output.active, k.1 ≠ part.channel.val → k ∈ s'.output.active)
    (hlog : s'.log = s.log ++ [.signal (.message m)]) (hm : m.channel = part.channel)
    (hsettled : m :: part.owed (session'.held? part.index) =
      part.owed (session.held? part.index) ++ messages) :
    Proceeds id parts (fun q => if q = part then messages else []) [] s s' := by
  have hself : s'.heldBy id part = session'.held? part.index := heldBy_eq hsession' part
  -- every other part still holds its note, on a channel of its own
  have hother {q : Part} (hq : q ∈ parts) (hne : q ≠ part) :
      s'.heldBy id q = s.heldBy id q ∧ q.channel ≠ part.channel := by
    refine ⟨?_, fun hchannel => hne (hparts.eq_of_channel q hq part hpart hchannel)⟩
    rw [heldBy_eq hsession', heldBy_eq hsession]
    exact hothers _ fun hindex => hne (hparts.eq_of_index q hq part hpart hindex)
  refine ⟨⟨hlog ▸ List.prefix_append .., fun q hq => ?_, ?_⟩, hframes,
    hs.of_frames hframes (hs.logging.congr hlisteners) fun q hq h' hh' => ?_⟩
  · rw [rendered, rendered, hlog, messagesOn_append]
    by_cases hne : q = part
    · subst hne
      rw [if_pos rfl, messagesOn_of_channel _ hm, hself, heldBy_eq hsession, List.append_assoc,
        List.append_assoc, ← hsettled]
      rfl
    · obtain ⟨hsame, hchannel⟩ := hother hq hne
      rw [if_neg hne, hsame, messagesOn_of_channel_ne _ (hm ▸ hchannel.symm), List.append_nil,
        List.append_nil]
  · rw [announced, announced, hlog, reportsIn_append, List.append_nil]
    exact congrArg (List.filter _) (List.append_nil _)
  · by_cases hne : q = part
    · subst hne
      exact hheld h' (hself ▸ hh')
    · obtain ⟨hsame, hchannel⟩ := hother hq hne
      refine hactive _ (hs.held q hq h' (hsame ▸ hh')) fun hkey => hchannel ?_
      exact Fin.ext (Int.ofNat_inj.mp hkey)

/-- A part that releases its note adds nothing to what it has rendered, and holds none any more. -/
theorem release : Proceeds id parts (fun _ => []) [] s (release id part s) ∧
    (Playback.release id part s).heldBy id part = none := by
  obtain ⟨session, hsession, -⟩ := hs.session
  cases hheld : s.heldBy id part with
  | none =>
    rw [release_of_heldBy_none hheld]
    exact ⟨hs.refl, hheld⟩
  | some h =>
    rw [release_of_heldBy hheld hs.connected (hs.held part hpart h hheld)]
    have hupdate : Frames id s (s.update id (·.drop part.index)) := .update fun _ _ => rfl
    -- what the part still owes is this one release, which is now sent
    have hmine : session.held? part.index = some h := heldBy_eq hsession part ▸ hheld
    have hnone : (session.drop part.index).held? part.index = none := session.held?_drop_self _
    have hframes : Frames id s { s.update id (·.drop part.index) with
        output := { s.output with
          active := s.output.active.erase ((part.channel.val : Int), (h.note.val : Int)) }
        log := s.log ++ [.signal (.message (.noteOff part.channel h.note .zero))] } :=
      ⟨rfl, hupdate.session, rfl, rfl⟩
    have hproceeds := hs.of_message hparts hpart [] hframes rfl hsession
      (sessions_update_self hsession) (fun i hi => Session.held?_drop_of_ne hi)
      (fun h' hh' => by rw [hnone] at hh'; cases hh')
      (fun k hk hne => (List.mem_erase_of_ne fun hkey => hne (congrArg Prod.fst hkey)).mpr hk)
      rfl rfl (by rw [hmine, hnone]; rfl)
    simp only [ite_self] at hproceeds
    exact ⟨hproceeds, (heldBy_eq (sessions_update_self hsession) part).trans hnone⟩

/-- A part that holds no note strikes one and sets the timer that releases it. -/
theorem sound (hnone : s.heldBy id part = none) (event : Nat) (note : Midi.Data)
    (seconds : Binary64) :
    Proceeds id parts (fun q => if q = part then part.messages note else []) [] s
      (sound id part event note seconds s) := by
  obtain ⟨session, hsession, -⟩ := hs.session
  have hon := Output.noteOn_eq hs.connected part.channel note part.velocity (hparts.audible part hpart)
  have hcursor : Frames id s (s.setCursor part.performer (some event)) := .setCursor ..
  have hupdate : Frames id s (s.update id (·.hold ⟨part.index, event, note⟩)) := .update fun _ _ => rfl
  have hframes : Frames id s (Playback.sound id part event note seconds s) := by
    refine ⟨rfl, hupdate.session, hcursor.melodies, ?_⟩
    simp only [Playback.sound, after_output, update_output, through_output, setCursor_output, hon]
    rfl
  have hmine : session.held? part.index = none := heldBy_eq hsession part ▸ hnone
  have hhold : (session.hold ⟨part.index, event, note⟩).held? part.index =
      some ⟨part.index, event, note⟩ := session.held?_hold_self ⟨part.index, event, note⟩
  -- its cursor is set first, then the note sounds and is held
  have hactive : (Playback.sound id part event note seconds s).output.active =
      s.output.active.insert ((part.channel.val : Int), (note.val : Int)) := by
    simp only [Playback.sound, after_output, update_output, through_output, setCursor_output, hon]
  have hlog : (Playback.sound id part event note seconds s).log =
      s.log ++ [.signal (.message (.noteOn part.channel note part.velocity))] := by
    simp only [Playback.sound, after, update, through, setCursor_output, hon]
    rfl
  refine hs.of_message hparts hpart _ hframes rfl hsession (sessions_update_self hsession)
    (fun i hi => Session.held?_hold_of_ne hi) (fun h' hh' => ?_) (fun k hk _ => ?_) hlog rfl ?_
  · rw [hhold] at hh'
    obtain rfl := Option.mem_some.mp hh'
    exact hactive ▸ List.mem_insert_self
  · exact hactive ▸ List.mem_insert_of_mem hk
  · rw [hmine, hhold]
    rfl

end Sounding

end Monody.Playback
