import Monody.Config.Settings
import Monody.Proofs.Midi.Readback
import Monody.Proofs.Midi.RoundTrip

/-!
# The limits of a file

Voices are promised a file if one of them has a note, and the fault that there is nothing to write if
none has. The promise is kept within the limits of a file, and nothing checks these limits before they are
met: the tempo has to be a number of three bytes, the resolution and the number of tracks one of fifteen
bits, the ticks of the notes have to be in range of the reals, the names of one byte to the character,
and the data of a track has to fit the length in its header.

## Main definitions

* `IsPromised` — the outcome that is promised
* `IsPlaced` — a voice whose notes have a velocity, numbers and ticks
* `WithinLimits` — voices that a file can hold

## Main results

* `isOk_tracksFrom_iff` — when voices have tracks
* `isPromised_encode_iff` — the promise is kept exactly within the limits
-/

namespace Monody.Midi

open Binary64

-- evaluated, the numbers of units are too long to be looked at
attribute [local irreducible] one bound

variable {voices vs : List Voice} {v : Voice} {t : Track} {ts : List Track} {bpm resolution : Number}
  {n tempo : ℤ} {index : ℕ} {stated : Bool} {text : List Char}

/-- The outcome that is promised: a file if some voice has a note, and the fault that there is nothing
to write if none has. -/
def IsPromised (voices : List Voice) : Except ExportFault (List UInt8) → Prop
  | .ok _ => ∃ v ∈ voices, v.melody.notes ≠ []
  | .error .nothing => ∀ v ∈ voices, v.melody.notes = []
  | .error _ => False

/-- A voice whose notes have a velocity, numbers and ticks. -/
structure IsPlaced (resolution : Number) (tempo : ℤ) (v : Voice) : Prop where
  velocity : v.velocity.isOk
  notes : ∀ e ∈ v.melody.notes, e.noteNumber?.isOk ∧
    (ticksOfMs e.start resolution tempo).isOk ∧ (ticksOfMs e.stop resolution tempo).isOk

/-! ## Tracks of voices -/

theorem narrow_nameOfTrack_iff (index : ℕ) :
    (∀ c ∈ nameOfTrack v index, isNarrow c) ↔ ∀ c ∈ v.name, isNarrow c := by
  refine ⟨fun h => ?_, fun h => narrow_nameOfTrack h index⟩
  by_cases hname : v.name = []
  · rw [hname]
    exact fun c hc => absurd hc List.not_mem_nil
  · rw [nameOfTrack, if_neg (by simpa using hname)] at h
    exact h

theorem isNarrow_of_mem_eventsFrom {last : ℤ} {ms : List PlacedMessage} {e : TimedEvent}
    (he : e ∈ eventsFrom last ms) : e.event.IsNarrow := by
  induction ms generalizing last with
  | nil => exact absurd he List.not_mem_nil
  | cons m ms ih =>
    rcases List.mem_cons.mp he with rfl | he
    · exact trivial
    · exact ih he

/-- The notes of a voice are written as placed messages. -/
theorem exists_placed_of_noteEvents (h : noteEvents v index resolution tempo = .ok t) :
    ∃ ms, t = eventsFrom 0 ms := by
  rw [noteEvents] at h
  obtain ⟨velocity, -, h⟩ := exists_of_bind_eq_ok h
  obtain ⟨placed, -, h⟩ := exists_of_bind_eq_ok h
  exact ⟨_, (Except.ok.inj h).symm⟩

theorem isNarrow_of_noteEvents (h : noteEvents v index resolution tempo = .ok t) :
    ∀ e ∈ t, e.event.IsNarrow := by
  obtain ⟨ms, rfl⟩ := exists_placed_of_noteEvents h
  exact fun e he => isNarrow_of_mem_eventsFrom he

/-- The track of a voice has bytes exactly if the characters of its name are narrow. -/
theorem isOk_writeEvents_trackOfVoice_iff (hparse : Melody.parse text = .ok v.melody)
    (hresolution : 0 < resolution) (htempo : 0 < tempo)
    (h : trackOfVoice v index resolution tempo stated = .ok (some t)) :
    (writeEvents none t).isOk ↔ ∀ c ∈ v.name, isNarrow c := by
  have hnotes : v.melody.notes ≠ [] := by
    intro hempty
    rw [trackOfVoice_eq_none_iff.mpr hempty] at h
    cases h
  obtain ⟨notes, tempi, hevents, htempi, htrack⟩ := exists_of_trackOfVoice hnotes h
  obtain rfl := Option.some.inj htrack
  -- only the name can have wide characters, as all else is numbers
  have hread := readsBack_of_noteEvents hparse hresolution htempo hevents
  have hstated : ∀ e ∈ tempi, 0 ≤ e.delta ∧ e.event.IsNarrow := by
    rcases htempi with rfl | ⟨e, he, rfl⟩
    · exact fun e he => absurd he List.not_mem_nil
    · obtain ⟨-, rfl⟩ := tempoEvent_eq_ok_iff.mp he
      exact List.forall_mem_singleton.mpr ⟨le_rfl, trivial⟩
  rw [isOk_writeEvents_iff, ← narrow_nameOfTrack_iff index]
  refine ⟨fun h => (h _ List.mem_cons_self).2, fun hname => ?_⟩
  refine List.forall_mem_cons.mpr ⟨⟨le_rfl, hname⟩, List.forall_mem_append.mpr ⟨hstated, ?_⟩⟩
  exact List.forall_mem_cons.mpr ⟨⟨le_rfl, trivial⟩,
    fun e he => ⟨hread.delta e he, isNarrow_of_noteEvents hevents e he⟩⟩

/-- A voice with notes has a track exactly if its notes have places, and the tempo can be stated where
it has to be. -/
theorem isOk_trackOfVoice_of_ne_nil (hparse : Melody.parse text = .ok v.melody)
    (hnotes : v.melody.notes ≠ []) (htempo : 0 < tempo) (resolution : Number) (index : ℕ)
    (stated : Bool) :
    (trackOfVoice v index resolution tempo stated).isOk ↔
      IsPlaced resolution tempo v ∧ (stated → tempo ≤ Tempo.greatest) := by
  rw [isOk_trackOfVoice_iff hparse htempo, or_iff_right hnotes]
  exact and_congr_left' ⟨fun h => ⟨h.1, h.2⟩, fun h => ⟨h.1, h.2⟩⟩

/-- No time has a tick where a beat lasts no time. -/
theorem ne_zero_of_isOk_ticksOfMs {ms : Binary64} (h : (ticksOfMs ms resolution tempo).isOk) :
    tempo ≠ 0 := by
  rintro rfl
  have hzero : Number.realOfInt 0 = .ok (.ofInt 0) := Number.realOfInt_of_natAbs_le (by decide)
  obtain ⟨tick, htick⟩ := exists_ok_of_isOk h
  obtain ⟨r, -, htick⟩ := exists_of_bind_eq_ok htick
  obtain ⟨z, hz, htick⟩ := exists_of_bind_eq_ok htick
  obtain rfl := Except.ok.inj (hzero.symm.trans hz)
  obtain ⟨w, hw, -⟩ := exists_of_bind_eq_ok htick
  rw [Number.divide, if_pos (by decide +kernel)] at hw
  cases hw

/-- The tempo that a track states is positive. -/
theorem tempo_pos_of_isOk_trackOfVoice (hparse : Melody.parse text = .ok v.melody)
    (hnotes : v.melody.notes ≠ []) (h : (trackOfVoice v index resolution tempo true).isOk) :
    0 < tempo := by
  rw [trackOfVoice, if_neg fun h => hnotes (List.isEmpty_iff.mp h)] at h
  obtain ⟨notes, hevents, h⟩ := isOk_bind_iff.mp h
  obtain ⟨e, he, -⟩ := isOk_bind_iff.mp h
  -- a tempo that is stated is not negative, and where it is zero no note has ticks
  have hlow := (tempoEvent_eq_ok_iff.mp he).1.1
  obtain ⟨e, he⟩ := List.exists_mem_of_ne_nil _ hnotes
  have hne := ne_zero_of_isOk_ticksOfMs
    (((isOk_noteEvents_iff hparse index).mp (by rw [hevents]; rfl)).2 e he).2.1
  omega

/-! ## Tracks of several voices -/

theorem tracksFrom_cons_of_nil (h : v.melody.notes = []) (index : ℕ) (stated : Bool) :
    tracksFrom index stated resolution tempo (v :: vs) =
      tracksFrom (index + 1) stated resolution tempo vs := by
  rw [tracksFrom, trackOfVoice_eq_none_iff.mpr h]
  rfl

theorem tracksFrom_cons_of_ne_nil (h : v.melody.notes ≠ []) (index : ℕ) (stated : Bool) :
    tracksFrom index stated resolution tempo (v :: vs) =
      ((trackOfVoice v index resolution tempo !stated) >>= fun t =>
        (tracksFrom (index + 1) true resolution tempo vs).map (t.toList ++ ·)) := by
  rw [tracksFrom]
  cases htrack : trackOfVoice v index resolution tempo !stated with
  | error fault => rfl
  | ok track =>
    cases track with
    | none => exact absurd (trackOfVoice_eq_none_iff.mp htrack) h
    | some t =>
      simp only [ok_bind]
      cases tracksFrom (index + 1) true resolution tempo vs <;> rfl

/-- At a positive tempo voices have tracks exactly if all notes have places, and the first of the tracks
can state the tempo. -/
theorem isOk_tracksFrom_iff (hparse : ∀ v ∈ vs, ∃ text, Melody.parse text = .ok v.melody)
    (htempo : 0 < tempo) (index : ℕ) (stated : Bool) :
    (tracksFrom index stated resolution tempo vs).isOk ↔ ∀ v ∈ vs, v.melody.notes ≠ [] →
      IsPlaced resolution tempo v ∧ (stated = false → tempo ≤ Tempo.greatest) := by
  induction vs generalizing index stated with
  | nil => exact iff_of_true rfl fun v hv => absurd hv List.not_mem_nil
  | cons v vs ih =>
    obtain ⟨⟨text, hv⟩, hvs⟩ := List.forall_mem_cons.mp hparse
    rw [List.forall_mem_cons]
    by_cases hnotes : v.melody.notes = []
    · rw [tracksFrom_cons_of_nil hnotes, ih hvs]
      exact (and_iff_right fun hne => absurd hnotes hne).symm
    · have hmap (track : Option Track) : ((tracksFrom (index + 1) true resolution tempo vs).map
          (track.toList ++ ·)).isOk ↔ ∀ v ∈ vs, v.melody.notes ≠ [] →
            IsPlaced resolution tempo v ∧ (true = false → tempo ≤ Tempo.greatest) := by
        rw [← ih hvs (index + 1)]
        cases tracksFrom (index + 1) true resolution tempo vs <;> exact Iff.rfl
      have htrack := isOk_trackOfVoice_of_ne_nil hv hnotes htempo resolution index (!stated)
      -- the tempo is stated by the first voice with notes, and by none after it
      rw [tracksFrom_cons_of_ne_nil hnotes, isOk_bind_iff, imp_iff_right hnotes]
      constructor
      · rintro ⟨track, hok, hrest⟩
        obtain ⟨hplaced, hstated⟩ := htrack.mp (by rw [hok]; rfl)
        have hlow (h : stated = false) := hstated (by rw [h]; rfl)
        exact ⟨⟨hplaced, hlow⟩, fun w hw hne => ⟨((hmap track).mp hrest w hw hne).1, hlow⟩⟩
      · rintro ⟨⟨hplaced, hlow⟩, hrest⟩
        obtain ⟨track, hok⟩ := exists_ok_of_isOk (htrack.mpr ⟨hplaced, fun h => hlow (by simpa using h)⟩)
        exact ⟨track, hok, (hmap track).mpr fun w hw hne => ⟨(hrest w hw hne).1, nofun⟩⟩

/-- Where a voice has notes, the tempo of the tracks is positive. -/
theorem tempo_pos_of_isOk_tracksFrom (hparse : ∀ v ∈ vs, ∃ text, Melody.parse text = .ok v.melody)
    (hnotes : ∃ v ∈ vs, v.melody.notes ≠ []) (h : (tracksFrom index false resolution tempo vs).isOk) :
    0 < tempo := by
  induction vs generalizing index with
  | nil =>
    obtain ⟨v, hv, -⟩ := hnotes
    exact absurd hv List.not_mem_nil
  | cons v vs ih =>
    obtain ⟨⟨text, hv⟩, hvs⟩ := List.forall_mem_cons.mp hparse
    by_cases hnone : v.melody.notes = []
    · rw [tracksFrom_cons_of_nil hnone] at h
      refine ih hvs ?_ h
      obtain ⟨w, hw, hne⟩ := hnotes
      rcases List.mem_cons.mp hw with rfl | hw
      · exact absurd hnone hne
      · exact ⟨w, hw, hne⟩
    · rw [tracksFrom_cons_of_ne_nil hnone] at h
      obtain ⟨track, htrack, -⟩ := isOk_bind_iff.mp h
      exact tempo_pos_of_isOk_trackOfVoice hv hnone (congrArg Except.isOk htrack)

theorem tracksFrom_of_forall_nil (h : ∀ v ∈ vs, v.melody.notes = []) (index : ℕ) (stated : Bool) :
    tracksFrom index stated resolution tempo vs = .ok [] := by
  induction vs generalizing index with
  | nil => rfl
  | cons v vs ih =>
    obtain ⟨hv, hvs⟩ := List.forall_mem_cons.mp h
    rw [tracksFrom_cons_of_nil hv, ih hvs]

/-- A voice with notes has the first track. It states the tempo unless that has been stated. -/
theorem exists_of_tracksFrom_cons (hnotes : v.melody.notes ≠ [])
    (h : tracksFrom index stated resolution tempo (v :: vs) = .ok ts) :
    ∃ t rest, trackOfVoice v index resolution tempo (!stated) = .ok (some t) ∧
      tracksFrom (index + 1) true resolution tempo vs = .ok rest ∧ ts = t :: rest := by
  rw [tracksFrom_cons_of_ne_nil hnotes] at h
  obtain ⟨track, htrack, h⟩ := exists_of_bind_eq_ok h
  cases track with
  | none => exact absurd (trackOfVoice_eq_none_iff.mp htrack) hnotes
  | some t =>
    cases hrest : tracksFrom (index + 1) true resolution tempo vs with
    | error fault =>
      rw [hrest] at h
      cases h
    | ok rest =>
      rw [hrest] at h
      exact ⟨t, rest, htrack, rfl, (Except.ok.inj h).symm⟩

/-- Each track is that of a voice with notes, in their order. -/
theorem forall₂_of_tracksFrom (h : tracksFrom index stated resolution tempo vs = .ok ts) :
    List.Forall₂ (fun p t => ∃ stated, trackOfVoice p.1 p.2 resolution tempo stated = .ok (some t))
      (soundingVoices index vs) ts := by
  induction vs generalizing index stated ts with
  | nil =>
    obtain rfl := Except.ok.inj h
    exact .nil
  | cons v vs ih =>
    by_cases hnotes : v.melody.notes = []
    · rw [tracksFrom_cons_of_nil hnotes] at h
      rw [soundingVoices_cons_of_nil hnotes]
      exact ih h
    · obtain ⟨t, rest, htrack, hrest, rfl⟩ := exists_of_tracksFrom_cons hnotes h
      rw [soundingVoices_cons_of_ne_nil hnotes]
      exact .cons ⟨_, htrack⟩ (ih hrest)

/-- The first track states the tempo. -/
theorem exists_stated_of_tracksFrom {p : Voice × ℕ} {ps : List (Voice × ℕ)}
    (h : tracksFrom index false resolution tempo vs = .ok ts) (hps : soundingVoices index vs = p :: ps) :
    ∃ t rest, ts = t :: rest ∧ trackOfVoice p.1 p.2 resolution tempo true = .ok (some t) := by
  induction vs generalizing index with
  | nil => cases hps
  | cons v vs ih =>
    by_cases hnotes : v.melody.notes = []
    · rw [tracksFrom_cons_of_nil hnotes] at h
      rw [soundingVoices_cons_of_nil hnotes] at hps
      exact ih h hps
    · rw [soundingVoices_cons_of_ne_nil hnotes] at hps
      obtain ⟨rfl, -⟩ := List.cons.inj hps
      obtain ⟨t, rest, htrack, -, rfl⟩ := exists_of_tracksFrom_cons hnotes h
      exact ⟨t, rest, rfl, htrack⟩

/-! ## Files -/

/-- What a file can hold: voices whose notes have places and whose names are narrow, at a tempo of three
bytes and a resolution of fifteen bits, as no more tracks than the header can count, with no more data
than their own headers can say. -/
structure WithinLimits (voices : List Voice) (resolution tempo : ℤ) : Prop where
  tempo_pos : 0 < tempo
  tempo_le : tempo ≤ Tempo.greatest
  resolution_le : resolution ≤ 32767
  placed : ∀ v ∈ voices, v.melody.notes ≠ [] → IsPlaced (.whole resolution) tempo v
  narrow : ∀ v ∈ voices, v.melody.notes ≠ [] → ∀ c ∈ v.name, isNarrow c
  count : (soundingVoices 0 voices).length ≤ 32767
  size : ∀ ts, tracksFrom 0 false (.whole resolution) tempo voices = .ok ts → ∀ t ∈ ts, FitsChunk t

/-- The tracks of voices have a file exactly if the names of these voices are narrow, the resolution and
the number of tracks fit the header, and the data of each track fits its chunk. -/
theorem isOk_writeFile_tracksFrom_iff (hparse : ∀ v ∈ voices, ∃ text, Melody.parse text = .ok v.melody)
    (hn : 0 < n) (htempo : 0 < tempo) (h : tracksFrom 0 false (.whole n) tempo voices = .ok ts) :
    (writeFile (.whole n) ts).isOk ↔ (soundingVoices 0 voices).length ≤ 32767 ∧ n ≤ 32767 ∧
      (∀ v ∈ voices, v.melody.notes ≠ [] → ∀ c ∈ v.name, isNarrow c) ∧ ∀ t ∈ ts, FitsChunk t := by
  have htracks := forall₂_of_tracksFrom h
  have hwritten {p : Voice × ℕ} {t : Track} (hp : p ∈ soundingVoices 0 voices)
      (htrack : ∃ stated, trackOfVoice p.1 p.2 (.whole n) tempo stated = .ok (some t)) :
      (writeEvents none t).isOk ↔ ∀ c ∈ p.1.name, isNarrow c := by
    obtain ⟨text, hv⟩ := hparse p.1 (mem_of_mem_soundingVoices hp)
    obtain ⟨stated, htrack⟩ := htrack
    exact isOk_writeEvents_trackOfVoice_iff hv (Number.whole_pos hn) htempo htrack
  rw [isOk_writeFile_iff, htracks.length_eq]
  refine and_congr_right fun _ => and_congr ⟨fun h => h.2, fun h => ⟨by omega, h⟩⟩ ?_
  constructor
  · refine fun h => ⟨fun v hv hnotes => ?_, fun t ht => (h t ht).2⟩
    obtain ⟨i, hi⟩ := exists_mem_soundingVoices hv hnotes
    obtain ⟨t, ht, htrack⟩ := exists_of_mem_right htracks.flip _ hi
    exact (hwritten hi htrack).mp (h t ht).1
  · rintro ⟨hnames, hfits⟩ t ht
    obtain ⟨p, hp, htrack⟩ := exists_of_mem_right htracks t ht
    exact ⟨(hwritten hp htrack).mpr
      (hnames p.1 (mem_of_mem_soundingVoices hp) (notes_ne_nil_of_mem_soundingVoices hp)), hfits t ht⟩

/-- Where beats and resolution are accepted, the tempo is found, then the tracks, and then the file. -/
theorem encode_eq (hbpm : ¬ bpm ≤ 0) (hn : 0 < n) :
    encode voices bpm (.whole n) = ((Tempo.ofBpm bpm).mapError .number >>= fun tempo =>
      tracksFrom 0 false (.whole n) tempo voices >>= fun ts =>
        require (ts ≠ []) .nothing >>= fun _ => (writeFile (.whole n) ts).mapError .write) := by
  rw [encode, require, if_pos hbpm, ok_bind, require,
    if_pos (Number.not_le_zero_of_pos (Number.whole_pos hn)), ok_bind]

/-- Voices with notes have a file exactly within its limits. -/
theorem isOk_encode_iff (hparse : ∀ v ∈ voices, ∃ text, Melody.parse text = .ok v.melody)
    (hbpm : ¬ bpm ≤ 0) (hn : 0 < n) (hnotes : ∃ v ∈ voices, v.melody.notes ≠ []) :
    (encode voices bpm (.whole n)).isOk ↔
      ∃ tempo, Tempo.ofBpm bpm = .ok tempo ∧ WithinLimits voices n tempo := by
  rw [encode_eq hbpm hn, isOk_bind_iff]
  refine exists_congr fun tempo => and_congr mapError_eq_ok_iff ?_
  rw [isOk_bind_iff]
  constructor
  · rintro ⟨ts, hts, h⟩
    have hok := congrArg Except.isOk hts
    have htempo := tempo_pos_of_isOk_tracksFrom hparse hnotes hok
    have hplaced := (isOk_tracksFrom_iff hparse htempo 0 false).mp hok
    obtain ⟨-, -, hwrite⟩ := isOk_bind_iff.mp h
    rw [isOk_mapError, isOk_writeFile_tracksFrom_iff hparse hn htempo hts] at hwrite
    obtain ⟨hcount, hresolution, hnames, hfits⟩ := hwrite
    -- one of the tracks states the tempo, as no track comes before them
    obtain ⟨v, hv, hne⟩ := hnotes
    refine ⟨htempo, (hplaced v hv hne).2 rfl, hresolution, fun v hv hne => (hplaced v hv hne).1, hnames,
      hcount, fun ts' hts' => ?_⟩
    obtain rfl := Except.ok.inj (hts.symm.trans hts')
    exact hfits
  · intro h
    obtain ⟨ts, hts⟩ := exists_ok_of_isOk ((isOk_tracksFrom_iff hparse h.tempo_pos 0 false).mpr
      fun v hv hne => ⟨h.placed v hv hne, fun _ => h.tempo_le⟩)
    have hne : ts ≠ [] := by
      rintro rfl
      exact soundingVoices_ne_nil hnotes (List.forall₂_nil_right_iff.mp (forall₂_of_tracksFrom hts))
    refine ⟨ts, hts, ?_⟩
    rw [require, if_pos hne, ok_bind, isOk_mapError, isOk_writeFile_tracksFrom_iff hparse hn h.tempo_pos hts]
    exact ⟨h.count, h.resolution_le, h.narrow, h.size ts hts⟩

/-- Voices of whole milliseconds that fit a file are within its limits at the speed and the resolution of a
file that is not told otherwise. -/
theorem withinLimits_of_isExportable (h : ∀ v ∈ voices, v.IsExportable)
    (hnotes : ∃ v ∈ voices, v.melody.notes ≠ []) (hfits : FitsFile voices) :
    WithinLimits voices defaultResolution defaultTempo := by
  obtain ⟨bytes, -, hencode, -, -⟩ := encode_ok h hnotes hfits
  obtain ⟨tempo, htempo, hlimits⟩ := (isOk_encode_iff (fun v hv => (h v hv).parsed) (by decide) (by decide)
    hnotes).mp (congrArg Except.isOk hencode)
  obtain rfl := Except.ok.inj (ofBpm_defaultBpm.symm.trans htempo)
  exact hlimits

/-- Where a voice has notes, a file is promised and nothing else. -/
theorem isPromised_iff_isOk (hnotes : ∃ v ∈ voices, v.melody.notes ≠ [])
    (outcome : Except ExportFault (List UInt8)) : IsPromised voices outcome ↔ outcome.isOk := by
  cases outcome with
  | ok bytes => exact iff_of_true hnotes rfl
  | error fault =>
    refine iff_of_false (fun h => ?_) Bool.false_ne_true
    cases fault with
    | nothing =>
      obtain ⟨v, hv, hne⟩ := hnotes
      exact hne (h v hv)
    | bpmNotPositive | resolutionNotPositive | number | pitch | range | tempoRange | write => exact h

/-- **Voices are written as promised exactly within the limits of a file.** At any number of beats in a
minute and any resolution that are accepted, there has to be a tempo. Without notes nothing more is
needed for the fault that there is nothing to write. With notes there is a file exactly if tempo and
resolution fit their fields, every note has a velocity, a number and ticks, every name has one byte to
the character, and the tracks are neither too many nor too long. -/
theorem isPromised_encode_iff (hparse : ∀ v ∈ voices, ∃ text, Melody.parse text = .ok v.melody)
    (hbpm : ¬ bpm ≤ 0) (hn : 0 < n) :
    IsPromised voices (encode voices bpm (.whole n)) ↔
      ∃ tempo, Tempo.ofBpm bpm = .ok tempo ∧
        ((∃ v ∈ voices, v.melody.notes ≠ []) → WithinLimits voices n tempo) := by
  by_cases hnotes : ∃ v ∈ voices, v.melody.notes ≠ []
  · rw [isPromised_iff_isOk hnotes, isOk_encode_iff hparse hbpm hn hnotes]
    exact exists_congr fun tempo => and_congr_right fun _ => (imp_iff_right hnotes).symm
  · -- only the tempo is calculated before the tracks turn out to be none
    have hnone : ∀ v ∈ voices, v.melody.notes = [] :=
      fun v hv => not_not.mp fun hne => hnotes ⟨v, hv, hne⟩
    rw [encode_eq hbpm hn]
    cases Tempo.ofBpm bpm with
    | error fault => exact iff_of_false id (by rintro ⟨tempo, htempo, -⟩; cases htempo)
    | ok tempo =>
      rw [mapError_ok, ok_bind, tracksFrom_of_forall_nil hnone]
      exact iff_of_true hnone ⟨tempo, rfl, fun h => absurd h hnotes⟩

/-- A note and a pause. -/
theorem isPromised_encode_iff_note :
    ∃ m, Melody.parse "C(100) p".toList = .ok m ∧ m.notes ≠ [] ∧
      IsPromised [.ofMelody m]
        (encode [.ofMelody m] (.whole defaultBpm) (.whole defaultResolution)) := by
  obtain ⟨m, hm, hwhole, hnamed, hbrief, hlength, hsome⟩ :
      ∃ m, Melody.parse "C(100) p".toList = .ok m ∧ (∀ e ∈ m.events, e.duration.isWhole) ∧
        (∀ e ∈ m.notes, e.noteNumber?.isOk) ∧ Number.real m.total ≤ .whole greatestTime ∧
        m.notes.length = 1 ∧ m.notes ≠ [] := by decide +kernel
  have hexportable : ∀ v ∈ [Voice.ofMelody m], v.IsExportable :=
    List.forall_mem_singleton.mpr
      (.of_parse hm hwhole hnamed hbrief (fun c hc => absurd hc List.not_mem_nil) .piano)
  have hsounds : ∃ v ∈ [Voice.ofMelody m], v.melody.notes ≠ [] :=
    ⟨_, List.mem_singleton_self _, hsome⟩
  have hsounding : soundingVoices 0 [Voice.ofMelody m] = [(Voice.ofMelody m, 0)] := by
    simp [soundingVoices, Voice.ofMelody, hsome]
  have hfits : FitsFile [Voice.ofMelody m] := by
    refine fitsFile_of_length hexportable (by decide : 1 < 32768) ?_
    rw [hsounding, List.forall_mem_singleton]
    -- its own text and the name that the voice is given are short
    have hname : (nameOfTrack (Voice.ofMelody m) 0).length = 7 := by
      rw [nameOfTrack_of_name_eq_nil rfl]
      exact (by decide : ("Voice ".toList ++ Nat.toDigits 10 1).length = 7)
    have hnotes : (Voice.ofMelody m).melody.notes.length = 1 := hlength
    rw [hname, hnotes]
    decide
  exact ⟨m, hm, hsome, (isPromised_encode_iff (List.forall_mem_singleton.mpr ⟨_, hm⟩) (by decide)
    (by decide)).mpr ⟨defaultTempo, ofBpm_defaultBpm,
      fun _ => withinLimits_of_isExportable hexportable hsounds hfits⟩⟩

/-- At the least positive number of beats in a minute a beat has no finite length, and not even the fault
that there is nothing to write is met. -/
theorem not_isPromised_encode :
    ¬ ∀ (settings : Config.Settings) (voices : List Voice), settings.checked.isOk →
      (∀ v ∈ voices, v.checked.isOk ∧
        ∃ text, Melody.parse text = .ok v.melody ∧ v.melody.isFlawed = false) →
      0 < Number.real settings.bpm →
      IsPromised voices (encode voices (.real settings.bpm) (.whole settings.resolution)) := by
  intro h
  obtain ⟨bpm, hpos, haccepted, rest, hrest, hsound, hchecked, hencode⟩ : ∃ bpm : Binary64,
      0 < Number.real bpm ∧ { Config.Settings.default with bpm := bpm }.checked.isOk ∧
        ∃ rest, Melody.parse "P".toList = .ok rest ∧ rest.isFlawed = false ∧
          (Voice.ofMelody rest).checked.isOk ∧
          encode [.ofMelody rest] (.real bpm) (.whole defaultResolution) =
            .error (.number .infinite) :=
    ⟨.ofDecimal false ⟨5, -324⟩, by decide +kernel⟩
  have hpromised := h { Config.Settings.default with bpm := bpm } [.ofMelody rest] haccepted
    (List.forall_mem_singleton.mpr ⟨hchecked, _, hrest, hsound⟩) hpos
  exact (congrArg (IsPromised _) hencode).mp hpromised

end Monody.Midi
