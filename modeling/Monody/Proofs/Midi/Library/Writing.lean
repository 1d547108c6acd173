import Monody.Proofs.Midi.Library.Bytes
import Monody.Proofs.Outcome

/-!
# Tracks that can be written

Tracks have a file exactly if no event comes before the one it follows, the characters of their names
are narrow, and the numbers of the headers fit their fields.

## Main definitions

* `TrackEvent.IsNarrow` — an event that has bytes
* `FitsChunk` — a track that is not too long for its chunk

## Main results

* `isOk_writeEvents_iff` — when the events of a track have bytes
* `isOk_writeFile_iff` — when tracks have a file
-/

namespace Monody.Midi

variable {t : Track} {ts : List Track} {n : ℤ} {text : List Char}

theorem isOk_nameBytes_iff : (nameBytes text).isOk ↔ ∀ c ∈ text, isNarrow c := by
  rw [nameBytes, ← List.dropWhile_eq_nil_iff]
  cases text.dropWhile isNarrow with
  | nil => exact iff_of_true rfl rfl
  | cons c rest => exact iff_of_false Bool.false_ne_true (List.cons_ne_nil _ _)

/-- An event that has bytes: the characters of a name are narrow. -/
def TrackEvent.IsNarrow : TrackEvent → Prop
  | .name text => ∀ c ∈ text, Midi.isNarrow c
  | _ => True

theorem isOk_eventBytes_iff (status : Option UInt8) {event : TrackEvent} :
    (eventBytes status event).isOk ↔ event.IsNarrow := by
  cases event with
  | name text =>
    rw [TrackEvent.IsNarrow, ← isOk_nameBytes_iff, eventBytes]
    cases nameBytes text <;> exact Iff.rfl
  | message | tempo | other => exact iff_of_true rfl trivial

/-- Events have bytes exactly if none comes before the one it follows and names are narrow. -/
theorem isOk_writeEvents_iff (status : Option UInt8) :
    (writeEvents status t).isOk ↔ ∀ e ∈ t, 0 ≤ e.delta ∧ e.event.IsNarrow := by
  induction t generalizing status with
  | nil => exact iff_of_true rfl fun e he => absurd he List.not_mem_nil
  | cons e t ih =>
    rw [List.forall_mem_cons, ← isOk_eventBytes_iff status, writeEvents, require]
    by_cases hdelta : 0 ≤ e.delta
    · rw [if_pos hdelta, ok_bind, and_iff_right hdelta]
      cases eventBytes status e.event with
      | error fault => exact iff_of_false Bool.false_ne_true fun h => Bool.false_ne_true h.1
      | ok p =>
        rw [and_iff_right (by rfl), ← ih p.2]
        simp only [ok_bind]
        cases writeEvents p.2 t <;> exact Iff.rfl
    · rw [if_neg hdelta]
      exact iff_of_false Bool.false_ne_true fun h => hdelta h.1.1

/-- The data of a track is not longer than its header can say. -/
def FitsChunk (t : Track) : Prop :=
  ∀ data, writeEvents none t = .ok data → data.length ≤ greatestChunk

theorem isOk_writeTrack_iff : (writeTrack t).isOk ↔ (writeEvents none t).isOk ∧ FitsChunk t := by
  rw [writeTrack, FitsChunk]
  cases writeEvents none t with
  | error fault => exact iff_of_false Bool.false_ne_true fun h => Bool.false_ne_true h.1
  | ok data =>
    rw [and_iff_right (by rfl), ok_bind, require]
    split
    · next hle => exact iff_of_true rfl fun _ h => Except.ok.inj h ▸ hle
    · next hlong => exact iff_of_false Bool.false_ne_true fun h => hlong (h data rfl)

theorem isOk_headerNumber_iff : (headerNumber (.whole n)).isOk ↔ -32768 ≤ n ∧ n ≤ 32767 := by
  rw [headerNumber]
  split
  · next h => exact iff_of_true rfl h
  · next h => split <;> exact iff_of_false Bool.false_ne_true h

/-- Tracks have a file exactly if their number and the resolution fit the header and each of them has
bytes that fit a chunk. -/
theorem isOk_writeFile_iff :
    (writeFile (.whole n) ts).isOk ↔ ts.length ≤ 32767 ∧ (-32768 ≤ n ∧ n ≤ 32767) ∧
      ∀ t ∈ ts, (writeEvents none t).isOk ∧ FitsChunk t := by
  have hcount : (headerNumber (.whole ts.length)).isOk ↔ ts.length ≤ 32767 := by
    rw [isOk_headerNumber_iff]
    omega
  have htracks : (ts.mapM writeTrack).isOk ↔ ∀ t ∈ ts, (writeEvents none t).isOk ∧ FitsChunk t := by
    rw [isOk_mapM_iff]
    exact forall₂_congr fun t _ => isOk_writeTrack_iff
  rw [writeFile, ← hcount, ← isOk_headerNumber_iff, ← htracks]
  cases headerNumber (.whole ts.length) with
  | error fault => exact iff_of_false Bool.false_ne_true fun h => Bool.false_ne_true h.1
  | ok count =>
    cases headerNumber (.whole n) with
    | error fault => exact iff_of_false Bool.false_ne_true fun h => Bool.false_ne_true h.2.1
    | ok resolution =>
      cases ts.mapM writeTrack with
      | error fault => exact iff_of_false Bool.false_ne_true fun h => Bool.false_ne_true h.2.2
      | ok chunks => exact iff_of_true rfl ⟨rfl, rfl, rfl⟩

/-- A file has a whole number of ticks in a beat. -/
theorem exists_whole_of_writeFile {resolution : Number} {bytes : List UInt8}
    (h : writeFile resolution ts = .ok bytes) : ∃ n, resolution = .whole n := by
  obtain ⟨_, -, h⟩ := exists_of_bind_eq_ok h
  obtain ⟨_, hresolution, -⟩ := exists_of_bind_eq_ok h
  cases resolution with
  | whole n => exact ⟨n, rfl⟩
  | real x => cases hresolution

end Monody.Midi
