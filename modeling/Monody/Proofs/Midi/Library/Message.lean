import Monody.Midi.Library
import Monody.Outcome

/-!
# Messages of integers

A message is built where its integers are in range, and is the message of the channel and the value that
these integers are. Out of range, the fault is that of the channel if the channel is, and that of the
value otherwise.

## Main results

* `Message.ofInts_val` — integers in range
* `Message.ofInts_of_not_channel`, `Message.ofInts_of_not_data` — integers out of range
-/

namespace Monody.Midi

variable {n : Int} {d : Data}

/-! ## Channels and values -/

theorem Channel.ofInt_val (c : Channel) : Channel.ofInt (c.val : Int) = .ok c := by
  have hrange : 0 ≤ (c.val : Int) ∧ (c.val : Int) < 16 := by omega
  rw [Channel.ofInt, dif_pos hrange]
  rfl

theorem Data.ofInt_val (d : Data) : Data.ofInt (d.val : Int) = .ok d := by
  have hrange : 0 ≤ (d.val : Int) ∧ (d.val : Int) < 128 := by omega
  rw [Data.ofInt, dif_pos hrange]
  rfl

/-- The value of an integer is that integer. -/
theorem Data.val_of_ofInt (h : Data.ofInt n = .ok d) : (d.val : Int) = n := by
  rw [Data.ofInt] at h
  split at h
  · next hrange =>
    obtain rfl := Except.ok.inj h
    exact Int.toNat_of_nonneg hrange.1
  · cases h

theorem Data.exists_ofInt (h : 0 ≤ n ∧ n < 128) : ∃ d : Data, Data.ofInt n = .ok d := ⟨_, dif_pos h⟩

/-! ## Messages -/

namespace Message

variable {channel value : Int} (build : Channel → Data → Message)

theorem ofInts_val (c : Channel) (d : Data) : ofInts build c.val d.val = .ok (build c d) := by
  rw [ofInts, Channel.ofInt_val, ok_bind, Data.ofInt_val]
  rfl

theorem ofInts_of_not_channel (h : ¬ (0 ≤ channel ∧ channel < 16)) :
    ofInts build channel value = .error .channel := by
  rw [ofInts, Channel.ofInt, dif_neg h]
  rfl

theorem ofInts_of_not_data (hchannel : 0 ≤ channel ∧ channel < 16)
    (h : ¬ (0 ≤ value ∧ value < 128)) : ofInts build channel value = .error .data := by
  rw [ofInts, Channel.ofInt, dif_pos hchannel, ok_bind, Data.ofInt, dif_neg h]
  rfl

theorem ofNoteOn_val (channel : Channel) (note velocity : Data) :
    ofNoteOn channel.val note.val velocity = .ok (.noteOn channel note velocity) :=
  ofInts_val _ channel note

theorem ofNoteOff_val (channel : Channel) (note : Data) :
    ofNoteOff channel.val note.val = .ok (.noteOff channel note .zero) :=
  ofInts_val _ channel note

theorem ofProgram_val (channel : Channel) (number : Data) :
    ofProgram channel.val number.val = .ok (.program channel number) :=
  ofInts_val _ channel number

end Message

end Monody.Midi
