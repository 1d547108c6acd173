import Monody.Proofs.Midi.Import
import Monody.Proofs.Midi.Names

/-!
# Bytes that are read or refused

A caller who reads bytes expects at least one voice, or to be told that the bytes are no file or have
no notes. Splitting the notes of a track into lines, writing a line and reading what was written
cannot fail, since a track whose times have no result has no voice at all. Only the tempo map of a
file can: its resolution may be zero, and two changes of tempo may be too far apart for a real to
hold the ticks between them.

## Main definitions

* `IsClosed` — an outcome that a caller expects
* `File.IsTimed` — a file whose times can be calculated

## Main results

* `exists_voicesOfTrack` — every track has voices, which may be none
* `exists_ofChanges_iff` — when there is a tempo map
* `isClosed_decode_iff` — reading ends as expected exactly for files whose times can be calculated
-/

namespace Monody.Midi

open Binary64 Performance

-- evaluated, the numbers of units are too long to be looked at
attribute [local irreducible] one bound

variable {m : TempoMap} {t : Track} {n : Note} {line : List Note} {index : ℕ} {f : File}
  {s : Segment} {resolution : ℤ} {changes : List (ℤ × ℤ)} {change first : ℤ × ℤ}

/-- An outcome of reading bytes that a caller expects: some voices, or one of the two faults that
bytes can have. -/
def IsClosed : Except ImportFault (List DecodedVoice) → Prop
  | .ok ds => ds ≠ []
  | .error (.unreadable _) | .error .noNotes => True
  | .error (.number _) | .error (.score _) => False

/-! ## Voices -/

theorem isFinite_of_isFinite_sub {x y : Binary64} (h : (y - x).isFinite) : x.isFinite := by
  cases x with
  | nan => cases y <;> cases h
  | infinite s =>
    cases y with
    | nan => cases h
    | infinite t => cases s <;> cases t <;> cases h
    | finite => cases h
  | finite => rfl

/-- A note that is read has finite times, since it has a length. -/
theorem IsRead.isFinite (h : IsRead n) : n.IsFinite := by
  obtain ⟨x, y, k, hstart, hstop, hlength, -⟩ := h.times
  obtain ⟨s, u, hu, hsum, -⟩ := Number.exists_of_floor hlength
  have hdifference : (y - x).isFinite := isFinite_of_isFinite_add (y := Number.half) (by rw [hsum]; rfl)
  exact ⟨x, y, hstart, hstop, isFinite_of_isFinite_sub hdifference⟩

/-- Every line has a voice, whose score says the notes of the line. -/
theorem exists_voiceOfLine (hread : ∀ n ∈ line, IsRead n) :
    ∃ d gs ws, voiceOfLine t index line = .ok d ∧ Scored line gs ws d.melody.events := by
  have hwritable : ∀ n ∈ line, n.IsWritable := fun n hn => (hread n hn).isUsable.isWritable
  obtain ⟨text, htext⟩ := exists_score hwritable fun n hn => (hread n hn).isFinite.isKnown
  obtain ⟨melody, gs, ws, hparse, -, -, -, hscored⟩ := exists_scored_of_score hwritable htext
  refine ⟨⟨melody, index, t.title, t.instrument, line⟩, gs, ws, ?_, hscored⟩
  rw [voiceOfLine, htext, mapError_ok, ok_bind, hparse]
  rfl

/-- **Every track has voices**, which may be none. -/
theorem exists_voicesOfTrack (m : TempoMap) (t : Track) (index : ℕ) :
    ∃ ds, voicesOfTrack m t index = .ok ds := by
  rw [voicesOfTrack]
  split
  · exact ⟨[], rfl⟩
  · next notes hnotes =>
    have hread := isRead_of_mem_performance hnotes
    have htimed : ∀ n ∈ notes, n.IsTimed := fun n hn => (hread n hn).isUsable.timed
    obtain ⟨ls, hls⟩ := exists_lines htimed
    have hvoices : ∀ line ∈ ls, ∃ d, voiceOfLine t index line = .ok d := by
      intro line hline
      obtain ⟨hmem, -⟩ := mem_lines hls htimed hline
      obtain ⟨d, -, -, hd, -⟩ := exists_voiceOfLine fun n hn => hread n (hmem n hn)
      exact ⟨d, hd⟩
    obtain ⟨ds, hds⟩ := exists_forall₂ hvoices
    rw [hls, mapError_ok, ok_bind]
    exact ⟨ds, mapM_eq_ok_iff.mpr hds⟩

/-- With a tempo map, a file ends as expected. -/
theorem isClosed_voicesOfFile
    (hm : TempoMap.ofChanges f.resolution (f.tracks.flatMap Track.tempi) = .ok m) :
    IsClosed (voicesOfFile f) := by
  have hvoice : ∀ p ∈ f.tracks.zipIdx, ∃ ds, voicesOfTrack m p.1 p.2 = .ok ds :=
    fun p _ => exists_voicesOfTrack m p.1 p.2
  obtain ⟨voices, hvoices⟩ := exists_forall₂ hvoice
  rw [voicesOfFile, hm, mapError_ok, ok_bind, mapM_eq_ok_iff.mpr hvoices, ok_bind]
  by_cases hne : voices.flatten ≠ []
  · rw [require_eq_ok_iff.mpr hne]
    exact hne
  · rw [require, if_neg hne]
    trivial

/-! ## Tempo maps -/

/-- A real can hold the ticks from one change of tempo to another. -/
def IsHeld (first change : ℤ × ℤ) : Prop := (Binary64.ofInt (change.1 - first.1)).isFinite

/-- The times of a file can be calculated: it has ticks in a beat, and no change of tempo comes too
long after the one before it. -/
structure File.IsTimed (f : File) : Prop where
  resolution : f.resolution ≠ 0
  held : ((TempoMap.inOrder (f.tracks.flatMap Track.tempi)).1 ::
    (TempoMap.inOrder (f.tracks.flatMap Track.tempi)).2).IsChain IsHeld

/-- At a tempo and a resolution of a file, the length of ticks has a result if there are ticks in a
beat and a real holds their number. -/
theorem exists_msOfTicks_iff {tempo : ℤ} (ticks : ℤ) (hresolution : resolution.natAbs ≤ 32768)
    (htempo : 0 ≤ tempo ∧ tempo ≤ Tempo.greatest) :
    (∃ x, msOfTicks ticks resolution tempo = .ok x) ↔
      resolution ≠ 0 ∧ (Binary64.ofInt ticks).isFinite := by
  rw [Tempo.greatest] at htempo
  have htempo' : Number.realOfInt tempo = .ok (.ofInt tempo) := Number.realOfInt_of_natAbs_le (by omega)
  have hresolution' : Number.realOfInt resolution = .ok (.ofInt resolution) :=
    Number.realOfInt_of_natAbs_le (by omega)
  rw [msOfTicks, Tempo.secondsOfTicks_eq htempo' hresolution', Number.divide, isZero_ofInt (by omega)]
  by_cases hzero : resolution = 0
  · rw [if_pos (decide_eq_true hzero)]
    refine iff_of_false ?_ fun h => h.1 hzero
    rintro ⟨x, hx⟩
    cases hx
  · rw [if_neg (by simpa using hzero), ok_bind, Number.realOfInt]
    split
    · next hheld => exact iff_of_true ⟨_, rfl⟩ ⟨hzero, hheld⟩
    · next hheld =>
      refine iff_of_false ?_ fun h => hheld h.2
      rintro ⟨x, hx⟩
      cases hx

/-- A change of tempo is to one that a file can state. -/
def IsStated (change : ℤ × ℤ) : Prop := 0 ≤ change.2 ∧ change.2 ≤ Tempo.greatest

theorem isStated_of_mem_inOrder (h : ∀ change ∈ changes, IsStated change) :
    ∀ change ∈ (TempoMap.inOrder changes).1 :: (TempoMap.inOrder changes).2, IsStated change := by
  have hdefault : IsStated (0, Tempo.default) := ⟨by decide, by decide⟩
  have hsorted : ∀ change ∈ changes.mergeSort fun a b => a.1 ≤ b.1, IsStated change :=
    fun change hchange => h change (List.mem_mergeSort.mp hchange)
  rw [TempoMap.inOrder]
  generalize changes.mergeSort _ = sorted at hsorted
  cases sorted with
  | nil => exact List.forall_mem_singleton.mpr hdefault
  | cons first rest =>
    dsimp only
    split
    · exact List.forall_mem_cons.mpr ⟨hdefault, hsorted⟩
    · exact hsorted

/-- The segments after a change of tempo are known if each change is held by a real from the one
before it. -/
theorem exists_segmentsFrom_iff (hresolution : resolution.natAbs ≤ 32768) (hne : resolution ≠ 0)
    (hs : s.start = first.1 ∧ s.tempo = first.2)
    (hstated : ∀ change ∈ first :: changes, IsStated change) :
    (∃ ss, TempoMap.segmentsFrom resolution s changes = .ok ss) ↔
      (first :: changes).IsChain IsHeld := by
  induction changes generalizing s first with
  | nil => exact iff_of_true ⟨[], rfl⟩ (.singleton _)
  | cons change changes ih =>
    obtain ⟨hfirst, hstated⟩ := List.forall_mem_cons.mp hstated
    -- whether the time up to the next change has a result depends on these two changes only
    rw [List.isChain_cons_cons, TempoMap.segmentsFrom, TempoMap.next, hs.1, hs.2]
    have hpassed := exists_msOfTicks_iff (change.1 - first.1) hresolution hfirst
    constructor
    · rintro ⟨ss, hss⟩
      obtain ⟨t, ht, hss⟩ := exists_of_bind_eq_ok hss
      obtain ⟨passed, hms, ht⟩ := exists_of_bind_eq_ok ht
      obtain rfl := Except.ok.inj ht
      obtain ⟨ss, hss, -⟩ := exists_of_bind_eq_ok hss
      exact ⟨(hpassed.mp ⟨passed, hms⟩).2, (ih ⟨rfl, rfl⟩ hstated).mp ⟨ss, hss⟩⟩
    · rintro ⟨hheld, hrest⟩
      obtain ⟨passed, hms⟩ := hpassed.mpr ⟨hne, hheld⟩
      obtain ⟨ss, hss⟩ := (ih (s := ⟨change.1, change.2, s.elapsed + passed⟩) ⟨rfl, rfl⟩ hstated).mpr
        hrest
      rw [hms]
      refine ⟨⟨change.1, change.2, s.elapsed + passed⟩ :: ss, ?_⟩
      rw [ok_bind, pure_bind, hss]
      rfl

/-- **A file has a tempo map** exactly if its times can be calculated. -/
theorem exists_ofChanges_iff (hresolution : f.resolution.natAbs ≤ 32768)
    (hstated : ∀ change ∈ f.tracks.flatMap Track.tempi, IsStated change) :
    (∃ m, TempoMap.ofChanges f.resolution (f.tracks.flatMap Track.tempi) = .ok m) ↔ f.IsTimed := by
  have hstated := isStated_of_mem_inOrder hstated
  have htimed : f.IsTimed ↔ f.resolution ≠ 0 ∧
      ((TempoMap.inOrder (f.tracks.flatMap Track.tempi)).1 ::
        (TempoMap.inOrder (f.tracks.flatMap Track.tempi)).2).IsChain IsHeld :=
    ⟨fun h => ⟨h.resolution, h.held⟩, fun h => ⟨h.1, h.2⟩⟩
  rw [htimed, TempoMap.ofChanges]
  generalize TempoMap.inOrder (f.tracks.flatMap Track.tempi) = order at hstated
  obtain ⟨first, rest⟩ := order
  obtain ⟨hfirst, -⟩ := List.forall_mem_cons.mp hstated
  have hstart := exists_msOfTicks_iff (first.1 - first.1) hresolution hfirst
  constructor
  · rintro ⟨m, hm⟩
    obtain ⟨s, hs, hm⟩ := exists_of_bind_eq_ok hm
    obtain ⟨passed, hms, hs⟩ := exists_of_bind_eq_ok hs
    obtain rfl := Except.ok.inj hs
    obtain ⟨ss, hss, -⟩ := exists_of_bind_eq_ok hm
    have hne := (hstart.mp ⟨passed, hms⟩).1
    exact ⟨hne, (exists_segmentsFrom_iff hresolution hne ⟨rfl, rfl⟩ hstated).mp ⟨ss, hss⟩⟩
  · rintro ⟨hne, hheld⟩
    -- no ticks pass before the first change
    have hzero : (Binary64.ofInt (first.1 - first.1)).isFinite := by
      rw [Int.sub_self]
      exact isFinite_ofInt (k := 0) (fits_mul_one (Nat.zero_le _))
    obtain ⟨passed, hms⟩ := hstart.mpr ⟨hne, hzero⟩
    obtain ⟨ss, hss⟩ := (exists_segmentsFrom_iff (s := ⟨first.1, first.2, 0 + passed⟩) hresolution hne
      ⟨rfl, rfl⟩ hstated).mpr hheld
    refine ⟨⟨f.resolution, ⟨first.1, first.2, 0 + passed⟩, ss⟩, ?_⟩
    dsimp only [TempoMap.next]
    rw [hms, ok_bind, pure_bind, hss]
    rfl

/-! ## Bytes -/

/-- **Reading ends as expected** exactly for bytes that are no file and for files whose times can be
calculated. -/
theorem isClosed_decode_iff (bytes : List UInt8) :
    IsClosed (decode bytes) ↔ ∀ f, readFile bytes = .ok f → f.IsTimed := by
  cases hread : readFile bytes with
  | error fault =>
    rw [decode, hread]
    refine iff_of_true trivial fun f hf => ?_
    cases hf
  | ok f =>
    have hstated : ∀ change ∈ f.tracks.flatMap Track.tempi, IsStated change :=
      fun change hchange => le_greatest_of_mem_tempi hread hchange
    have hmap := exists_ofChanges_iff (natAbs_resolution_le hread) hstated
    have hdecode : decode bytes = voicesOfFile f := by
      rw [decode, hread]
      rfl
    have hsame : (∀ f', Except.ok f = (.ok f' : Except ReadFault File) → f'.IsTimed) ↔ f.IsTimed :=
      ⟨fun h => h f rfl, fun h f' heq => Except.ok.inj heq ▸ h⟩
    rw [hdecode, hsame, ← hmap]
    -- only the map of the tempi can fail unexpectedly
    cases hm : TempoMap.ofChanges f.resolution (f.tracks.flatMap Track.tempi) with
    | error fault =>
      have hfault : voicesOfFile f = .error (.number fault) := by
        rw [voicesOfFile, hm]
        rfl
      rw [hfault]
      refine iff_of_false id ?_
      rintro ⟨m, hm⟩
      cases hm
    | ok m => exact iff_of_true (isClosed_voicesOfFile hm) ⟨m, rfl⟩

/-- The bytes of a file without tracks whose beats have no ticks. -/
def timelessBytes : List UInt8 :=
  [0x4d, 0x54, 0x68, 0x64, 0, 0, 0, 6, 0, 1, 0, 0, 0, 0]

theorem decode_timelessBytes : decode timelessBytes = .error (.number .divisionByZero) := by
  decide +kernel

/-- Reading does not end as expected for all bytes. -/
theorem not_isClosed_decode : ¬ ∀ bytes, IsClosed (decode bytes) := by
  intro h
  have hclosed := h timelessBytes
  rw [decode_timelessBytes] at hclosed
  exact hclosed

end Monody.Midi
