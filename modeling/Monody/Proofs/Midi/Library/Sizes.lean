import Monody.Proofs.Midi.Library.Bytes
import Monody.Proofs.Outcome

/-!
# The length of written tracks

The bytes of an event are few but for a name, and so are those of the ticks before it unless these are
very many.

## Main definitions

* `TrackEvent.size` — how many bytes the data of an event has at most

## Main results

* `length_le_of_writeEvents` — the data of a track is no longer than its events together
* `exists_of_writeEvents_message`, `exists_of_writeEvents_zero` — one event of a track
-/

namespace Monody.Midi

variable {n k : ℕ} {bytes body : List UInt8} {event : TrackEvent} {t : Track}
  {written written' : Option UInt8}

/-! ## Quantities -/

theorem length_leadingGroups_le (h : n < 128 ^ k) : (leadingGroups n).length ≤ k := by
  induction k generalizing n with
  | zero =>
    obtain rfl : n = 0 := by omega
    rw [leadingGroups, if_pos rfl, List.length_nil]
  | succ k ih =>
    rw [leadingGroups]
    by_cases hzero : n = 0
    · rw [if_pos hzero]
      exact Nat.zero_le _
    · have hrest := ih (Nat.div_lt_of_lt_mul (by rwa [pow_succ'] at h) : n / 128 < 128 ^ k)
      rw [if_neg hzero, List.length_append, List.length_singleton]
      omega

/-- A number of fewer than 31 bits takes at most five bytes. -/
theorem length_writeQuantity_le (h : n < 2 ^ 31) : (writeQuantity n).length ≤ 5 := by
  have hgroups : (leadingGroups (n / 128)).length ≤ 4 := length_leadingGroups_le (by omega)
  rw [writeQuantity, List.length_append, List.length_singleton]
  omega

theorem length_leadingGroups_le_self (n : ℕ) : (leadingGroups n).length ≤ n := by
  induction n using Nat.strongRecOn with
  | ind n ih =>
    rw [leadingGroups]
    by_cases hzero : n = 0
    · rw [if_pos hzero]
      exact Nat.zero_le _
    · have hrest := ih (n / 128) (by omega)
      rw [if_neg hzero, List.length_append, List.length_singleton]
      omega

/-- A number takes one byte, and at most one more for each 128 that it counts. -/
theorem length_writeQuantity_le_div (n : ℕ) : (writeQuantity n).length ≤ n / 128 + 1 := by
  have hgroups := length_leadingGroups_le_self (n / 128)
  rw [writeQuantity, List.length_append, List.length_singleton]
  omega

/-! ## Events -/

/-- How many bytes the data of an event has at most, if it is not longer than a chunk may be. -/
def TrackEvent.size : TrackEvent → ℕ
  | .name text => text.length + 7
  | _ => 6

@[simp] theorem TrackEvent.size_name (text : List Char) : (name text).size = text.length + 7 := rfl

@[simp] theorem TrackEvent.size_message (m : Message) : (message m).size = 6 := rfl

@[simp] theorem TrackEvent.size_tempo (n : ℕ) : (tempo n).size = 6 := rfl

@[simp] theorem TrackEvent.size_other : other.size = 6 := rfl

theorem length_metaBytes_le {kind : UInt8} {data : List UInt8} (h : data.length < 2 ^ 31) :
    (metaBytes kind data).length ≤ data.length + 7 := by
  have hquantity := length_writeQuantity_le h
  simp only [metaBytes, List.length_cons, List.length_append]
  omega

theorem length_data_le (m : Message) : m.data.length ≤ 2 := by
  cases m <;> simp [Message.data]

theorem length_le_of_eventBytes (hsize : event.size < 2 ^ 31)
    (h : eventBytes written event = .ok (bytes, written')) : bytes.length ≤ event.size := by
  cases event with
  | message m =>
    obtain ⟨rfl, -⟩ := Prod.mk.inj (Except.ok.inj h)
    have hdata := length_data_le m
    rw [TrackEvent.size_message]
    split
    · omega
    · rw [Message.bytes, List.length_cons]
      omega
  | name text =>
    rw [TrackEvent.size_name] at hsize
    rw [eventBytes, nameBytes] at h
    split at h
    · obtain ⟨rfl, -⟩ := Prod.mk.inj (Except.ok.inj h)
      let data : List UInt8 := text.map fun c => .ofNat c.toNat
      have hlength : data.length = text.length := List.length_map _
      have hle : (metaBytes 0x03 data).length ≤ data.length + 7 := length_metaBytes_le (by omega)
      rwa [hlength] at hle
    · cases h
  | tempo microseconds =>
    obtain ⟨rfl, -⟩ := Prod.mk.inj (Except.ok.inj h)
    simp [metaBytes, writeQuantity, leadingGroups]
  | other =>
    obtain ⟨rfl, -⟩ := Prod.mk.inj (Except.ok.inj h)
    simp [metaBytes, writeQuantity, leadingGroups]

/-! ## Tracks -/

/-- The data of a track is that of its first event behind a quantity, and that of the rest. -/
theorem exists_of_writeEvents_cons {e : TimedEvent} (h : writeEvents written (e :: t) = .ok body) :
    ∃ bytes written' rest, eventBytes written e.event = .ok (bytes, written') ∧
      writeEvents written' t = .ok rest ∧
      body.length = (writeQuantity e.delta.toNat).length + bytes.length + rest.length := by
  obtain ⟨-, -, h⟩ := exists_of_bind_eq_ok h
  obtain ⟨⟨bytes, written'⟩, hbytes, h⟩ := exists_of_bind_eq_ok h
  obtain ⟨rest, hrest, h⟩ := exists_of_bind_eq_ok h
  obtain rfl := Except.ok.inj h
  exact ⟨bytes, written', rest, hbytes, hrest, by simp only [List.length_append]⟩

theorem length_of_writeEvents_nil (h : writeEvents written [] = .ok body) : body.length = 4 := by
  obtain rfl := Except.ok.inj h
  simp [endOfTrack, metaBytes, writeQuantity, leadingGroups]

/-- An event of a track takes at most five bytes more than its own. -/
theorem length_le_of_writeEvents (hsize : ∀ e ∈ t, e.delta < 2 ^ 31 ∧ e.event.size < 2 ^ 31)
    (h : writeEvents written t = .ok body) :
    body.length ≤ (t.map fun e => e.event.size + 5).sum + 4 := by
  induction t generalizing written body with
  | nil => exact (length_of_writeEvents_nil h).le
  | cons e t ih =>
    obtain ⟨⟨hdelta, hevent⟩, ht⟩ := List.forall_mem_cons.mp hsize
    obtain ⟨bytes, written', rest, hbytes, hrest, hlength⟩ := exists_of_writeEvents_cons h
    have hquantity := length_writeQuantity_le (by omega : e.delta.toNat < 2 ^ 31)
    have hle := length_le_of_eventBytes hevent hbytes
    have hrest' := ih ht hrest
    rw [hlength, List.map_cons, List.sum_cons]
    omega

/-- A message takes at most four bytes, and one more for each 128 ticks before it. -/
theorem exists_of_writeEvents_message {delta : ℤ} {m : Message}
    (h : writeEvents written (⟨delta, .message m⟩ :: t) = .ok body) :
    ∃ written' rest, writeEvents written' t = .ok rest ∧
      128 * body.length ≤ delta.toNat + 512 + 128 * rest.length := by
  obtain ⟨bytes, written', rest, hbytes, hrest, hlength⟩ := exists_of_writeEvents_cons h
  have hdata := length_data_le m
  have hquantity := length_writeQuantity_le_div delta.toNat
  have hbytes' : bytes.length ≤ 3 := by
    obtain ⟨rfl, -⟩ := Prod.mk.inj (Except.ok.inj hbytes)
    split
    · omega
    · rw [Message.bytes, List.length_cons]
      omega
  exact ⟨written', rest, hrest, by dsimp only at hlength; omega⟩

/-- An event at the beginning of a track takes one byte more than its own. -/
theorem exists_of_writeEvents_zero (hsize : event.size < 2 ^ 31)
    (h : writeEvents written (⟨0, event⟩ :: t) = .ok body) :
    ∃ written' rest, writeEvents written' t = .ok rest ∧
      body.length ≤ event.size + 1 + rest.length := by
  obtain ⟨bytes, written', rest, hbytes, hrest, hlength⟩ := exists_of_writeEvents_cons h
  have hle := length_le_of_eventBytes hsize hbytes
  have hquantity := length_writeQuantity_le_div 0
  refine ⟨written', rest, hrest, ?_⟩
  rw [hlength]
  exact Nat.add_le_add_right (by dsimp only [Int.toNat_zero]; omega) _

end Monody.Midi
