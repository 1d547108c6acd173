import Monody.Proofs.Midi.Library
import Monody.Proofs.Midi.Strokes

/-!
# The sizes of tracks

The data of a track is as long as its name, up to a number of bytes for each of its notes. So all but
very long scores fit in a chunk.

## Main results

* `length_le_of_writeEvents_strokeTrack` — the data of the track of a voice, from its strokes
* `length_le_of_writeEvents_inTurn` — a closer bound for many strokes, from the tick that they end at
-/

namespace Monody.Midi

variable {body : List UInt8} {written : Option UInt8}
variable {s tempo : ℕ} {ss : List Stroke} {c : Channel} {program velocity : Data} {stated : Bool}
  {name : List Char}

theorem InTurn.size_lt (h : InTurn greatestTime s ss) :
    ∀ e ∈ eventsFrom s (ss.flatMap (Stroke.messages c velocity)),
      e.delta < 2 ^ 31 ∧ e.event.size < 2 ^ 31 := by
  induction h with
  | nil => exact fun e he => absurd he List.not_mem_nil
  | @cons t s ss hstart hstop htime _ ih =>
    rw [greatestTime] at htime
    have hmessage {m : Message} : (TrackEvent.message m).size < 2 ^ 31 := (by decide : 6 < 2 ^ 31)
    refine List.forall_mem_cons.mpr ⟨⟨?_, hmessage⟩, List.forall_mem_cons.mpr ⟨⟨?_, hmessage⟩, ih⟩⟩
    · dsimp only
      omega
    · dsimp only
      omega

theorem sum_size_eventsFrom (placed : List PlacedMessage) (last : ℤ) :
    ((eventsFrom last placed).map fun e => e.event.size + 5).sum = 11 * placed.length := by
  induction placed generalizing last with
  | nil => rfl
  | cons p placed ih =>
    rw [eventsFrom, List.map_cons, List.sum_cons, ih, TrackEvent.size_message, List.length_cons]
    omega

theorem length_messages (ss : List Stroke) :
    (ss.flatMap (Stroke.messages c velocity)).length = 2 * ss.length := by
  rw [List.length_flatMap]
  simp [Stroke.messages, Nat.mul_comm]

/-- The data of a track has at most 22 bytes for each stroke, its name, and what it says once. -/
theorem length_le_of_writeEvents_strokeTrack (hss : InTurn greatestTime 0 ss) (hname : name.length < 2 ^ 31 - 7)
    (h : writeEvents written (strokeTrack tempo name c program velocity stated ss) = .ok body) :
    body.length ≤ name.length + 22 * ss.length + 38 := by
  have hsize : ∀ e ∈ strokeTrack tempo name c program velocity stated ss,
      e.delta < 2 ^ 31 ∧ e.event.size < 2 ^ 31 := by
    have hzero : (0 : ℤ) < 2 ^ 31 := by decide
    have hsmall : 6 < 2 ^ 31 := by decide
    intro e he
    rcases List.mem_append.mp he with he | he
    · rcases List.mem_cons.mp he with rfl | he
      · exact ⟨hzero, by rw [TrackEvent.size_name]; omega⟩
      · cases stated with
        | false => exact absurd he List.not_mem_nil
        | true =>
          obtain rfl := List.mem_singleton.mp he
          exact ⟨hzero, hsmall⟩
    · rcases List.mem_cons.mp he with rfl | he
      · exact ⟨hzero, hsmall⟩
      · exact hss.size_lt e he
  -- what is said once: the name, the program, the tempo and the end of the track
  have hle := length_le_of_writeEvents hsize h
  have hevents := sum_size_eventsFrom (ss.flatMap (Stroke.messages c velocity)) 0
  rw [length_messages] at hevents
  cases stated <;>
    simp only [strokeTrack, List.cons_append, List.nil_append, List.map_cons, List.sum_cons,
      TrackEvent.size_name, TrackEvent.size_message, TrackEvent.size_tempo, hevents, if_true,
      Bool.false_eq_true, if_false] at hle <;>
    omega

/-! ## Long scores -/

variable {limit : ℕ}

/-- Strokes take eight bytes each, and one more for each 128 ticks until the last of them ends. -/
theorem length_le_of_writeEvents_eventsFrom (hss : InTurn limit s ss) (hs : s ≤ limit)
    (h : writeEvents written (eventsFrom s (ss.flatMap (Stroke.messages c velocity))) = .ok body) :
    128 * body.length + s ≤ limit + 1024 * ss.length + 512 := by
  induction hss generalizing written body with
  | nil =>
    rw [length_of_writeEvents_nil h]
    omega
  | @cons s stroke ss hstart hstop htime _ ih =>
    obtain ⟨written₁, rest₁, hrest₁, hle₁⟩ := exists_of_writeEvents_message h
    obtain ⟨written₂, rest₂, hrest₂, hle₂⟩ := exists_of_writeEvents_message hrest₁
    have hle := ih htime hrest₂
    rw [List.length_cons]
    omega

/-- The data of a track with its strokes, its name, and what it says once. -/
theorem length_le_of_writeEvents_inTurn (hss : InTurn limit 0 ss) (hname : name.length < 2 ^ 31 - 7)
    (h : writeEvents written (strokeTrack tempo name c program velocity true ss) = .ok body) :
    128 * body.length ≤ limit + 1024 * ss.length + 128 * name.length + 3328 := by
  have htempo : (TrackEvent.tempo tempo).size < 2 ^ 31 := (by decide : 6 < 2 ^ 31)
  have hprogram : (TrackEvent.message (.program c program)).size < 2 ^ 31 := (by decide : 6 < 2 ^ 31)
  obtain ⟨written₁, rest₁, hrest₁, hle₁⟩ :=
    exists_of_writeEvents_zero (by rw [TrackEvent.size_name]; omega) h
  obtain ⟨written₂, rest₂, hrest₂, hle₂⟩ := exists_of_writeEvents_zero htempo hrest₁
  obtain ⟨written₃, rest₃, hrest₃, hle₃⟩ := exists_of_writeEvents_zero hprogram hrest₂
  have hle := length_le_of_writeEvents_eventsFrom hss (Nat.zero_le _) hrest₃
  rw [TrackEvent.size_name] at hle₁
  rw [TrackEvent.size_tempo] at hle₂
  rw [TrackEvent.size_message] at hle₃
  omega

/-- Strokes of some length, one after another, are not many. -/
theorem InTurn.length_le {d : ℕ} (h : InTurn limit s ss) (hs : s ≤ limit)
    (hlong : ∀ stroke ∈ ss, stroke.start + d ≤ stroke.stop) : s + d * ss.length ≤ limit := by
  induction h with
  | nil => exact hs
  | @cons s stroke ss hstart _ htime _ ih =>
    obtain ⟨hd, hlong⟩ := List.forall_mem_cons.mp hlong
    have hle := ih htime hlong
    rw [List.length_cons, Nat.mul_succ]
    omega

end Monody.Midi
