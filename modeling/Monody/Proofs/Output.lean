import Mathlib.Data.List.Nodup
import Monody.Output
import Monody.Proofs.Midi.Library

/-!
# The notes that an output remembers

An output remembers a note from the call that starts it to the call that releases it. No other call
adds to what it remembers, whether or not the connection works and whatever has a fault.

## Main definitions

* `Output.Lessens` — a call that starts no note

## Main results

* `sequence_cons` — a sequence of calls is its first call and then the others
* `active_noteOn`, `nodup_active_noteOn` — a note on adds at most its own note, and that once
* `active_noteOff` — a note off takes away its own note
* `programChange_eq`, `noteOn_eq`, `noteOff_eq` — what is sent over a connection
* `lessens_panic`, `lessens_close` — panic and closing start nothing
-/

namespace Monody

/-! ## Channels and velocities -/

namespace Midi

theorem Data.clamp_val (d : Data) : Data.clamp (d.val : Int) = d := by
  refine Fin.ext ?_
  simp only [Data.clamp, Int.toNat_natCast]
  omega

/-- The first fifteen voices have a channel each. -/
theorem Channel.ofVoice_inj {i j : Nat} (hi : i < 15) (hj : j < 15)
    (h : Channel.ofVoice i = Channel.ofVoice j) : i = j := by
  have hval {k : Nat} (hk : k < 15) : (Channel.ofVoice k).val = if k < 9 then k else k + 1 := by
    simp only [Channel.ofVoice, Channel.melodicCount, Channel.percussion, Nat.mod_eq_of_lt hk]
    split <;> rfl
  have heq := congrArg Fin.val h
  rw [hval hi, hval hj] at heq
  split at heq <;> split at heq <;> omega

end Midi

namespace Output

variable {o : Output} {f g : Output → Effect}

@[simp] theorem send_output (message : Except Midi.Message.Fault Midi.Message) :
    (o.send message).output = o := by
  cases message <;> rfl

@[simp] theorem programChange_output (channel program : Int) :
    (o.programChange channel program).output = o :=
  send_output _

/-! ## Calls one after another -/

@[simp] theorem andThen_mk (signals : List Signal) :
    (Effect.mk o signals none).andThen f =
      ⟨(f o).output, signals ++ (f o).signals, (f o).fault⟩ := rfl

theorem andThen_assoc (e : Effect) :
    (e.andThen f).andThen g = e.andThen fun o => (f o).andThen g := by
  obtain ⟨o, signals, _ | fault⟩ := e
  · simp only [andThen_mk]
    obtain ⟨o', signals', _ | fault'⟩ := f o
    · simp only [andThen_mk, List.append_assoc]
    · rfl
  · rfl

theorem foldl_andThen (e : Effect) (calls : List (Output → Effect)) :
    calls.foldl Effect.andThen e = e.andThen (·.sequence calls) := by
  induction calls generalizing e with
  | nil =>
    obtain ⟨o, signals, _ | fault⟩ := e
    · simp only [List.foldl_nil, andThen_mk, sequence, unchanged, List.append_nil]
    · rfl
  | cons f calls ih =>
    have hfirst (o : Output) : o.sequence (f :: calls) = (f o).andThen (·.sequence calls) := by
      rw [sequence, List.foldl_cons, ih]
      rfl
    rw [List.foldl_cons, ih, andThen_assoc]
    simp only [hfirst]

theorem sequence_cons (calls : List (Output → Effect)) :
    o.sequence (f :: calls) = (f o).andThen (·.sequence calls) := by
  rw [sequence, List.foldl_cons, foldl_andThen]
  rfl

/-! ## Single notes -/

/-- A note on adds at most its own note. -/
theorem active_noteOn {channel note velocity : Int} {k : Int × Int}
    (hk : k ∈ (o.noteOn channel note velocity).output.active) :
    k = (channel, note) ∨ k ∈ o.active := by
  simp only [noteOn] at hk
  split at hk
  · exact .inr hk
  · rw [send_output] at hk
    exact List.mem_insert_iff.mp hk

theorem nodup_active_noteOn (channel note velocity : Int) (h : o.active.Nodup) :
    (o.noteOn channel note velocity).output.active.Nodup := by
  simp only [noteOn]
  split
  · exact h
  · rw [send_output]
    exact h.insert

/-- A note off takes away its own note and no other. -/
theorem active_noteOff (channel note : Int) :
    (o.noteOff channel note).output.active = o.active.erase (channel, note) := by
  simp only [noteOff]
  split
  · rw [send_output]
  · next h => exact (List.erase_of_not_mem h).symm

/-! ## What is sent -/

section Connected

open Midi

variable (hopen : o.isOpen = true) (channel : Channel) (note velocity : Data)
include hopen

theorem send_eq (m : Message) : o.send (.ok m) = ⟨o, [.message m], none⟩ := by
  rw [send, if_pos hopen]

theorem programChange_eq (program : Data) :
    o.programChange channel.val program.val = ⟨o, [.message (.program channel program)], none⟩ := by
  rw [programChange, Message.ofProgram_val, send_eq hopen]

/-- A note is started and remembered, unless its velocity is zero. -/
theorem noteOn_eq (hvelocity : velocity ≠ .zero) :
    o.noteOn channel.val note.val velocity.val =
      ⟨{ o with active := o.active.insert ((channel.val : Int), (note.val : Int)) },
        [.message (.noteOn channel note velocity)], none⟩ := by
  rw [noteOn, Data.clamp_val, if_neg hvelocity, Message.ofNoteOn_val]
  exact send_eq (o := { o with active := o.active.insert _ }) hopen _

/-- A note that sounds is released and forgotten. -/
theorem noteOff_eq (hactive : ((channel.val : Int), (note.val : Int)) ∈ o.active) :
    o.noteOff channel.val note.val =
      ⟨{ o with active := o.active.erase ((channel.val : Int), (note.val : Int)) },
        [.message (.noteOff channel note .zero)], none⟩ := by
  rw [noteOff, if_pos hactive, Message.ofNoteOff_val]
  exact send_eq (o := { o with active := o.active.erase _ }) hopen _

end Connected

/-- Whether or not there is a connection, a note off sends nothing else. -/
theorem eq_of_mem_signals_noteOff {channel : Midi.Channel} {note : Midi.Data} {x : Signal}
    (hx : x ∈ (o.noteOff channel.val note.val).signals) : x = .message (.noteOff channel note .zero) := by
  rw [noteOff, Midi.Message.ofNoteOff_val] at hx
  split at hx
  · rw [send] at hx
    dsimp only at hx
    split at hx
    · exact List.mem_singleton.mp hx
    · exact absurd hx List.not_mem_nil
  · exact absurd hx List.not_mem_nil

/-! ## Calls that start nothing -/

/-- A call that starts no note. -/
def Lessens (f : Output → Effect) : Prop := ∀ o, (f o).output.active.Sublist o.active

theorem lessens_send (message : Except Midi.Message.Fault Midi.Message) :
    Lessens (·.send message) := by
  intro o
  rw [send_output]

theorem Lessens.andThen (hf : Lessens f) (hg : Lessens g) : Lessens fun o => (f o).andThen g := by
  intro o
  simp only [Effect.andThen]
  split
  · exact hf o
  · exact (hg _).trans (hf o)

/-- Calls one after another start nothing if each of them does not. -/
theorem lessens_sequence {calls : List (Output → Effect)} (h : ∀ f ∈ calls, Lessens f) :
    Lessens (·.sequence calls) := by
  induction calls with
  | nil => exact fun o => .refl _
  | cons f calls ih =>
    obtain ⟨hf, hrest⟩ := List.forall_mem_cons.mp h
    simp only [sequence_cons]
    exact hf.andThen (ih hrest)

theorem lessens_releaseAll : Lessens releaseAll := by
  have hsends : Lessens fun o =>
      o.sequence (o.sounding.map fun p o => o.send (Midi.Message.ofNoteOff p.1 p.2)) := by
    intro o
    refine lessens_sequence (fun f hf => ?_) o
    obtain ⟨p, -, rfl⟩ := List.mem_map.mp hf
    exact lessens_send _
  exact hsends.andThen fun o => List.nil_sublist _

theorem lessens_silence : Lessens silence := by
  refine lessens_sequence fun f hf => ?_
  obtain ⟨channel, -, hf⟩ := List.mem_flatMap.mp hf
  obtain ⟨controller, -, rfl⟩ := List.mem_map.mp hf
  exact lessens_send _

theorem lessens_panic : Lessens panic := lessens_releaseAll.andThen lessens_silence

theorem lessens_close : Lessens close := by
  intro o
  simp only [close]
  split
  · exact lessens_panic.andThen (fun _ => .refl _) o
  · exact .refl _

end Output

end Monody
