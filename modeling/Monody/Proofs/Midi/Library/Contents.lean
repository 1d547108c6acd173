import Monody.Midi.Library
import Monody.Proofs.Outcome

/-!
# What files state

Every byte of a name stands for one character, and data that are too long are not read. A name that
was read can therefore be written and read again. A tempo that was read has three bytes, and a
resolution two.

## Main definitions

* `TrackEvent.IsReadable` — what an event that was read can state

## Main results

* `isReadable_of_readFile` — what the tracks of a file state
* `natAbs_resolution_le` — the resolution of a file
-/

namespace Monody.Midi

variable {bytes data : List UInt8} {e : TrackEvent} {f : File}

/-- A name that can be written and read: its characters are narrow, and they are not too many. -/
structure IsName (text : List Char) : Prop where
  narrow : ∀ c ∈ text, isNarrow c
  short : text.length ≤ greatestLength

theorem isName_nil : IsName [] := ⟨fun _ hc => absurd hc List.not_mem_nil, Nat.zero_le _⟩

theorem isName_latinText (h : data.length ≤ greatestLength) : IsName (latinText data) := by
  refine ⟨fun c hc => ?_, by rwa [latinText, List.length_map]⟩
  obtain ⟨b, -, rfl⟩ := List.mem_map.mp hc
  have hb : b.toNat < 256 := b.toNat_lt
  have hvalid : b.toNat.isValidChar := .inl (by omega)
  refine decide_eq_true ?_
  rw [Char.ofNat, dif_pos hvalid]
  exact hb

/-- A name that an event states can be written and read, and a tempo is at most the greatest one. -/
def TrackEvent.IsReadable : TrackEvent → Prop
  | .name text => IsName text
  | .tempo microseconds => microseconds ≤ Tempo.greatest
  | .message _ | .other => True

theorem isReadable_other : TrackEvent.other.IsReadable := trivial

theorem length_le_of_readBlock_ok {p : List UInt8 × List UInt8} (h : readBlock bytes = .ok p) :
    p.1.length ≤ greatestLength := by
  rw [readBlock] at h
  split at h
  · cases h
  rw [readBytes] at h
  split at h
  · cases h
  split at h
  · cases h
  · next hshort _ =>
    obtain rfl := Except.ok.inj h
    rw [List.splitAt_eq, List.length_take]
    omega

theorem byteAt_le {i n : ℕ} (h : byteAt data i = .ok n) : n ≤ 255 := by
  rw [byteAt] at h
  split at h
  · next b _ =>
    obtain rfl := Except.ok.inj h
    exact Nat.le_of_lt_succ b.toNat_lt
  · cases h

theorem isReadable_metaEvent? {kind : UInt8} {outcome : Except MetaFault TrackEvent}
    (h : metaEvent? kind data = some outcome) (hdata : data.length ≤ greatestLength)
    (he : outcome = .ok e) : e.IsReadable := by
  have hchecked {check : Except MetaFault Unit}
      (h : some (check.map fun _ => TrackEvent.other) = some outcome) : e.IsReadable := by
    obtain rfl := Option.some.inj h
    cases check with
    | error => cases he
    | ok => exact (Except.ok.inj he) ▸ isReadable_other
  rw [metaEvent?] at h
  split at h
  case h_2 =>
    obtain rfl := Option.some.inj h
    obtain rfl := Except.ok.inj he
    exact isName_latinText hdata
  case h_14 =>
    -- a change of tempo
    obtain rfl := Option.some.inj h
    obtain ⟨high, hhigh, he⟩ := exists_of_bind_eq_ok he
    obtain ⟨middle, hmiddle, he⟩ := exists_of_bind_eq_ok he
    obtain ⟨low, hlow, he⟩ := exists_of_bind_eq_ok he
    obtain rfl := Except.ok.inj he
    have hhigh := byteAt_le hhigh
    have hmiddle := byteAt_le hmiddle
    have hlow := byteAt_le hlow
    simp only [TrackEvent.IsReadable, Tempo.greatest]
    omega
  case h_18 => cases h
  all_goals exact hchecked h

theorem isReadable_readMeta {delta : ℕ} {status : Option UInt8} {r : ReadEvent}
    (h : readMeta delta status bytes = .ok r) : r.event.event.IsReadable := by
  cases bytes with
  | nil => cases h
  | cons kind bytes =>
    obtain ⟨⟨data, rest⟩, hread, h⟩ := exists_of_bind_eq_ok h
    dsimp only at h
    split at h
    · obtain rfl := Except.ok.inj h
      exact isReadable_other
    · next outcome houtcome =>
      obtain ⟨e, he, h⟩ := exists_of_bind_eq_ok h
      obtain rfl := Except.ok.inj h
      exact isReadable_metaEvent? houtcome (length_le_of_readBlock_ok hread) (mapError_eq_ok_iff.mp he)

theorem isReadable_eventOfData (status : UInt8) (data : List UInt8) :
    (eventOfData status data).IsReadable := by
  simp only [eventOfData]
  split <;> trivial

theorem isReadable_readMessage {status : UInt8} {first : Option UInt8} {p : TrackEvent × List UInt8}
    (h : readMessage status first bytes = .ok p) : p.1.IsReadable := by
  obtain ⟨count, _, h⟩ := exists_of_bind_eq_ok h
  obtain ⟨_, _, h⟩ := exists_of_bind_eq_ok h
  obtain ⟨⟨data, rest⟩, _, h⟩ := exists_of_bind_eq_ok h
  obtain ⟨_, _, h⟩ := exists_of_bind_eq_ok h
  obtain rfl := Except.ok.inj h
  exact isReadable_eventOfData _ _

theorem isReadable_readBody {delta : ℕ} {status : UInt8} {first : Option UInt8} {r : ReadEvent}
    (h : readBody delta status first bytes = .ok r) : r.event.event.IsReadable := by
  rw [readBody] at h
  split at h
  · obtain ⟨⟨data, rest⟩, _, h⟩ := exists_of_bind_eq_ok h
    obtain ⟨_, _, h⟩ := exists_of_bind_eq_ok h
    obtain rfl := Except.ok.inj h
    exact isReadable_other
  · obtain ⟨⟨e, rest⟩, hread, h⟩ := exists_of_bind_eq_ok h
    obtain rfl := Except.ok.inj h
    exact isReadable_readMessage hread

theorem isReadable_readEvent {status : Option UInt8} {r : ReadEvent}
    (h : readEvent status bytes = .ok r) : r.event.event.IsReadable := by
  rw [readEvent] at h
  split at h
  · cases h
  · cases h
  split at h
  · exact isReadable_readMeta h
  split at h
  · exact isReadable_readBody h
  split at h
  · cases h
  · exact isReadable_readBody h

theorem isReadable_of_readEvents {stop : Int} {status : Option UInt8} {p : Track × List UInt8}
    (h : readEvents stop status bytes = .ok p) : ∀ e ∈ p.1, e.event.IsReadable := by
  induction bytes using (measure List.length).wf.induction generalizing status p with
  | _ bytes ih =>
    rw [readEvents] at h
    split at h
    · obtain rfl := Except.ok.inj h
      exact fun e he => absurd he List.not_mem_nil
    split at h
    · cases h
    · next r hr =>
      obtain ⟨⟨track, rest⟩, htrack, h⟩ := exists_of_bind_eq_ok h
      obtain rfl := Except.ok.inj h
      exact List.forall_mem_cons.mpr ⟨isReadable_readEvent hr, ih _ (length_lt_of_readEvent hr) htrack⟩

theorem isReadable_of_readTracks {count : ℕ} {ts : List Track} (h : readTracks count bytes = .ok ts) :
    ∀ t ∈ ts, ∀ e ∈ t, e.event.IsReadable := by
  induction count generalizing bytes ts with
  | zero =>
    obtain rfl := Except.ok.inj h
    exact fun t ht => absurd ht List.not_mem_nil
  | succ count ih =>
    obtain ⟨⟨track, rest⟩, htrack, h⟩ := exists_of_bind_eq_ok h
    obtain ⟨ts, hts, h⟩ := exists_of_bind_eq_ok h
    obtain rfl := Except.ok.inj h
    obtain ⟨⟨name, size, body⟩, _, htrack⟩ := exists_of_bind_eq_ok htrack
    obtain ⟨_, _, htrack⟩ := exists_of_bind_eq_ok htrack
    exact List.forall_mem_cons.mpr ⟨isReadable_of_readEvents htrack, ih hts⟩

/-- What the tracks of a file state can be read. -/
theorem isReadable_of_readFile (h : readFile bytes = .ok f) :
    ∀ t ∈ f.tracks, ∀ e ∈ t, e.event.IsReadable := by
  obtain ⟨⟨name, size, body⟩, _, h⟩ := exists_of_bind_eq_ok h
  obtain ⟨_, _, h⟩ := exists_of_bind_eq_ok h
  obtain ⟨_, _, h⟩ := exists_of_bind_eq_ok h
  obtain ⟨ts, hts, h⟩ := exists_of_bind_eq_ok h
  obtain rfl := Except.ok.inj h
  exact isReadable_of_readTracks hts

theorem natAbs_signed16_le (bytes : List UInt8) : (signed16 bytes).natAbs ≤ 32768 := by
  have hlow : -32768 ≤ signed16 bytes := Int.le_bmod (by decide)
  have hhigh : signed16 bytes < 32768 := Int.bmod_lt (by decide)
  omega

/-- The resolution of a file is a signed number of two bytes. -/
theorem natAbs_resolution_le (h : readFile bytes = .ok f) : f.resolution.natAbs ≤ 32768 := by
  obtain ⟨⟨name, size, body⟩, _, h⟩ := exists_of_bind_eq_ok h
  obtain ⟨_, _, h⟩ := exists_of_bind_eq_ok h
  obtain ⟨_, _, h⟩ := exists_of_bind_eq_ok h
  obtain ⟨ts, hts, h⟩ := exists_of_bind_eq_ok h
  obtain rfl := Except.ok.inj h
  dsimp only
  exact natAbs_signed16_le _

end Monody.Midi
