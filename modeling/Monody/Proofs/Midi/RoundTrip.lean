import Monody.Proofs.Midi.Size
import Monody.Proofs.Midi.Sounds
import Monody.Proofs.Outcome
import Monody.Proofs.Voice

/-!
# Voices that read back

Voices of whole milliseconds are exported at the default tempo and resolution, and imported again with
their names, their instruments and their condensed scores. Only voices with a note that sounds are in
the file.

Data that is too long is refused when it is read, but not when it is written. So a file whose tracks
have longer names than that is written and cannot be read.

## Main definitions

* `Voice.IsExportable` — a voice that a file keeps to the millisecond
* `FitsFile` — voices whose tracks a file can hold
* `soundingVoices` — the voices that are in the file, each with its index
* `DecodedVoice.Renders` — what an imported voice has of the one that was exported

## Main results

* `decode_encode` — voices are exported, and imported as they were
-/

namespace Monody

open Binary64

-- evaluated, the numbers of units are too long to be looked at
attribute [local irreducible] one bound

/-- A voice whose score can be written to a file without rounding: durations of whole milliseconds, at
most `10 ^ 9` of them in all, note names with a number, and a name of narrow characters. The volume may
be any that its notes have a velocity at, as every volume between 0 and 1 is. -/
structure Voice.IsExportable (v : Voice) : Prop where
  parsed : ∃ text, Melody.parse text = .ok v.melody
  struck : v.velocity.isOk
  whole : ∀ e ∈ v.melody.events, e.duration.isWhole
  named : ∀ e ∈ v.melody.notes, ∃ n, e.noteNumber? = .ok n
  brief : Number.real v.melody.total ≤ .whole Midi.greatestTime
  narrow : ∀ c ∈ v.name, Midi.isNarrow c

/-- A score of whole milliseconds is exportable at full volume. -/
theorem Voice.IsExportable.of_parse {m : Melody} {text name : List Char}
    (hparse : Melody.parse text = .ok m) (hwhole : ∀ e ∈ m.events, e.duration.isWhole)
    (hnamed : ∀ e ∈ m.notes, e.noteNumber?.isOk)
    (hbrief : Number.real m.total ≤ .whole Midi.greatestTime)
    (hname : ∀ c ∈ name, Midi.isNarrow c) (instrument : Instrument) :
    Voice.IsExportable ⟨m, instrument, .real 1, false, false, name⟩ where
  parsed := ⟨text, hparse⟩
  struck := isOk_iff_exists.mpr
    (Voice.velocity_ok (by decide +kernel : 0 ≤ Number.real 1 ∧ Number.real 1 ≤ 1))
  whole := hwhole
  named e he := exists_ok_of_isOk (hnamed e he)
  brief := hbrief
  narrow := hname

namespace Midi

variable {v : Voice} {vs voices : List Voice} {index : ℕ} {t : Track} {ts : List Track}

/-- The tracks of voices are fewer than `2 ^ 15`, and the data of each is shorter than `2 ^ 31`. -/
def FitsFile (voices : List Voice) : Prop :=
  ∀ ts, tracksFrom 0 false (.whole defaultResolution) defaultTempo voices = .ok ts →
    ts.length < 32768 ∧ ∀ t ∈ ts, ∀ body, writeEvents none t = .ok body → body.length < 2 ^ 31

/-- The voices with a note that sounds, each with its index. -/
def soundingVoices (index : ℕ) (voices : List Voice) : List (Voice × ℕ) :=
  (voices.zipIdx index).filter fun p => !p.1.melody.notes.isEmpty

/-- The name and the instrument of a voice, and its condensed score. -/
structure DecodedVoice.Renders (d : DecodedVoice) (v : Voice) (index : ℕ) : Prop where
  name : d.name = nameOfTrack v index
  instrument : d.instrument = v.instrument
  score : Melody.serialize (Melody.condense v.melody.events) = .ok d.melody.text

/-! ## Writing -/

theorem sounds_of_isExportable (hv : v.IsExportable) : ∃ ss, Sounds 0 v.melody.events ss := by
  obtain ⟨text, hparse⟩ := hv.parsed
  refine sounds_of_eventsFrom (t := 0) (Melody.readEvents_of_parse hparse) (Nat.zero_le _) hv.whole
    (fun e he hplay => hv.named e (List.mem_filter.mpr ⟨he, hplay⟩)) ?_
  exact Melody.stop_le_of_total_le hparse hv.brief

theorem writtenVelocity_ok (hv : v.velocity.isOk) :
    ∃ velocity, writtenVelocity v = .ok velocity ∧ velocity ≠ .zero := by
  obtain ⟨velocity, hvelocity⟩ := exists_ok_of_isOk hv
  refine ⟨velocity.orOne, by rw [writtenVelocity, hvelocity]; rfl, ?_⟩
  rw [Data.orOne]
  split
  · decide
  · assumption

theorem tempoEvent_eq_ok_iff {tempo : ℤ} {e : TimedEvent} : tempoEvent tempo = .ok e ↔
    (0 ≤ tempo ∧ tempo ≤ Tempo.greatest) ∧ e = ⟨0, .tempo tempo.toNat⟩ := by
  rw [tempoEvent]
  split
  · next event hevent =>
    obtain ⟨hrange, rfl⟩ := TrackEvent.ofTempo?_eq_some_iff.mp hevent
    exact ⟨fun h => ⟨hrange, (Except.ok.inj h).symm⟩, fun h => congrArg Except.ok h.2.symm⟩
  · next hnone =>
    refine iff_of_false nofun fun h => ?_
    rw [TrackEvent.ofTempo?_eq_some_iff.mpr ⟨h.1, rfl⟩] at hnone
    cases hnone

/-- A voice with strokes has the track of them, at the ticks that their times are written as. -/
theorem trackOfVoice_of_sounds {resolution : Number} {tempo limit : ℕ} {tick : ℕ → ℕ} {ss : List Stroke}
    (hv : v.velocity.isOk) (hss : Sounds 0 v.melody.events ss) (hne : ss ≠ [])
    (htick : ∀ k ≤ greatestTime, ticksOfMs (.ofInt k) resolution tempo = .ok (tick k))
    (hturn : InTurn limit 0 (ss.map (Stroke.inTicks tick))) (htempo : tempo ≤ Tempo.greatest)
    (index : ℕ) (stated : Bool) :
    ∃ velocity, velocity ≠ Data.zero ∧ trackOfVoice v index resolution tempo stated =
      .ok (some (strokeTrack tempo (nameOfTrack v index) (.ofVoice index) v.instrument.program velocity
        stated (ss.map (Stroke.inTicks tick)))) := by
  obtain ⟨velocity, hvelocity, hnonzero⟩ := writtenVelocity_ok hv
  have hlonger : ∀ s ∈ ss, tick s.start < tick s.stop :=
    fun s hs => (hturn.forall_mem _ (List.mem_map_of_mem hs)).2.1
  obtain ⟨placed, hplaced, hflatten⟩ :=
    hss.mapM_messagesOfEvent (.ofVoice index) velocity htick hlonger
  -- there is a track, as there are notes; its messages are in order already
  have hnotes : v.melody.notes.isEmpty = false := by
    rw [Melody.notes, List.isEmpty_eq_false_iff, ← List.length_pos_iff, ← hss.length_eq]
    exact List.length_pos_iff.mpr hne
  have hevents : noteEvents v index resolution tempo = .ok (eventsFrom 0
      ((ss.map (Stroke.inTicks tick)).flatMap (Stroke.messages (.ofVoice index) velocity))) := by
    rw [noteEvents, hvelocity, mapError_ok, ok_bind, hplaced, ok_bind, hflatten,
      hturn.mergeSort_messages]
    rfl
  have htempo : tempoEvent tempo = .ok ⟨0, .tempo tempo⟩ :=
    tempoEvent_eq_ok_iff.mpr ⟨⟨Int.natCast_nonneg tempo, htempo⟩, rfl⟩
  refine ⟨velocity, hnonzero, ?_⟩
  rw [trackOfVoice, hnotes, if_neg Bool.false_ne_true, hevents, ok_bind, htempo]
  cases stated <;> rfl

/-- The track of a voice with its index. -/
def IsTrackOf (p : Voice × ℕ) (t : Track) : Prop :=
  ∃ velocity stated ss, velocity ≠ Data.zero ∧ ss ≠ [] ∧ Sounds 0 p.1.melody.events ss ∧
    t = strokeTrack defaultTempo (nameOfTrack p.1 p.2) (.ofVoice p.2) p.1.instrument.program velocity
      stated ss

/-- A voice with a note that sounds has a track, which states the tempo if it should. -/
theorem trackOfVoice_ok (hv : v.IsExportable) (hnotes : v.melody.notes.isEmpty = false) (index : ℕ)
    (stated : Bool) :
    ∃ t, trackOfVoice v index (.whole defaultResolution) defaultTempo stated = .ok (some t) ∧
      IsTrackOf (v, index) t ∧
      (t ++ [ending]).tempi = if stated then [(0, (defaultTempo : ℤ))] else [] := by
  obtain ⟨ss, hss⟩ := sounds_of_isExportable hv
  have hne : ss ≠ [] := by
    rw [Melody.notes, List.isEmpty_eq_false_iff, ← List.length_pos_iff, ← hss.length_eq] at hnotes
    exact List.length_pos_iff.mp hnotes
  -- a tick is a millisecond, so that the strokes are at the ticks of their times
  have hsame : ss.map (Stroke.inTicks id) = ss := List.map_id _
  have hturn : InTurn greatestTime 0 (ss.map (Stroke.inTicks id)) := by
    rw [hsame]
    exact hss.inTurn
  have htick (k : ℕ) (hk : k ≤ greatestTime) :
      ticksOfMs (.ofInt k) (.whole defaultResolution) defaultTempo = .ok (id k : ℕ) :=
    ticksOfMs_natCast hk
  obtain ⟨velocity, hvelocity, htrack⟩ :=
    trackOfVoice_of_sounds hv.struck hss hne htick hturn (by decide) index stated
  rw [hsame] at htrack
  exact ⟨_, htrack, ⟨velocity, stated, ss, hvelocity, hne, hss, rfl⟩, tempi_strokeTrack⟩

theorem soundingVoices_cons_of_nil (h : v.melody.notes = []) (index : ℕ) (vs : List Voice) :
    soundingVoices index (v :: vs) = soundingVoices (index + 1) vs := by
  rw [soundingVoices, List.zipIdx_cons, List.filter_cons_of_neg (by simp [h])]
  rfl

theorem soundingVoices_cons_of_ne_nil (h : v.melody.notes ≠ []) (index : ℕ) (vs : List Voice) :
    soundingVoices index (v :: vs) = (v, index) :: soundingVoices (index + 1) vs := by
  rw [soundingVoices, List.zipIdx_cons, List.filter_cons_of_pos (by simp [h])]
  rfl

/-- Tracks are written as a file where the speed and the resolution are positive. -/
theorem encode_of_tracksFrom {bpm resolution : Number} {tempo : ℤ} {bytes : List UInt8}
    (hbpm : ¬ bpm ≤ 0) (hresolution : ¬ resolution ≤ 0) (htempo : Tempo.ofBpm bpm = .ok tempo)
    (htracks : tracksFrom 0 false resolution tempo voices = .ok ts) (hne : ts ≠ [])
    (hwrite : writeFile resolution ts = .ok bytes) : encode voices bpm resolution = .ok bytes := by
  have hsome : require (ts ≠ []) ExportFault.nothing = .ok () := if_pos hne
  rw [encode, require, if_pos hbpm, ok_bind, require, if_pos hresolution, ok_bind, htempo, mapError_ok,
    ok_bind, htracks, ok_bind, hsome, ok_bind, hwrite, mapError_ok]

/-- Voices have tracks in their order, the first of which states the tempo. -/
theorem tracksFrom_ok (h : ∀ v ∈ vs, v.IsExportable) (index : ℕ) (stated : Bool) :
    ∃ ts, tracksFrom index stated (.whole defaultResolution) defaultTempo vs = .ok ts ∧
      List.Forall₂ IsTrackOf (soundingVoices index vs) ts ∧
      (ts.map (· ++ [ending])).flatMap Track.tempi =
        if stated ∨ ts = [] then [] else [(0, (defaultTempo : ℤ))] := by
  induction vs generalizing index stated with
  | nil => exact ⟨[], rfl, .nil, by simp⟩
  | cons v vs ih =>
    obtain ⟨hv, hvs⟩ := List.forall_mem_cons.mp h
    -- a voice without notes has no track, and the next one states the tempo in its place
    cases hnotes : v.melody.notes.isEmpty with
    | true =>
      obtain ⟨ts, hts, htracks, htempi⟩ := ih hvs (index + 1) stated
      refine ⟨ts, ?_, ?_, htempi⟩
      · rw [tracksFrom, trackOfVoice, hnotes, if_pos rfl]
        exact hts
      · rw [soundingVoices_cons_of_nil (List.isEmpty_iff.mp hnotes)]
        exact htracks
    | false =>
      obtain ⟨t, ht, htrack, htempo⟩ := trackOfVoice_ok hv hnotes index (!stated)
      obtain ⟨ts, hts, htracks, htempi⟩ := ih hvs (index + 1) true
      refine ⟨t :: ts, ?_, ?_, ?_⟩
      · rw [tracksFrom, ht, ok_bind, hts]
        rfl
      · rw [soundingVoices_cons_of_ne_nil (List.isEmpty_eq_false_iff.mp hnotes)]
        exact .cons htrack htracks
      · rw [List.map_cons, List.flatMap_cons, htempo, htempi]
        cases stated <;> simp

/-! ## Reading -/

theorem ofProgram_program (i : Instrument) : Instrument.ofProgram i.program.val = i := by
  cases i <;> rfl

theorem nameOfTrack_ne_nil (v : Voice) (index : ℕ) : nameOfTrack v index ≠ [] := by
  rw [nameOfTrack]
  split
  · simp
  · next hname => simpa using hname

/-- A track of a voice is read as one voice, which has what the exported one had. -/
theorem voicesOfTrack_of_isTrackOf {p : Voice × ℕ} (h : IsTrackOf p t) (k : ℕ) :
    ∃ d : DecodedVoice, voicesOfTrack defaultMap (t ++ [ending]) k = .ok [d] ∧
      d.Renders p.1 p.2 := by
  obtain ⟨velocity, stated, ss, hvelocity, hne, hss, rfl⟩ := h
  obtain ⟨m, hscore, hserialize, hparse⟩ := hss.score_played (c := .ofVoice p.2)
  let track := strokeTrack defaultTempo (nameOfTrack p.1 p.2) (.ofVoice p.2) p.1.instrument.program
    velocity stated ss
  have hperformance : performance defaultMap (track ++ [ending]) =
      .ok (ss.map (Stroke.played (.ofVoice p.2))) :=
    performance_strokeTrack hss.inTurn hss.representable hvelocity
  have htitle : (track ++ [ending]).title = nameOfTrack p.1 p.2 :=
    title_strokeTrack (nameOfTrack_ne_nil p.1 p.2) [ending]
  have hinstrument : (track ++ [ending]).instrument = p.1.instrument := by
    rw [Track.instrument, program?_strokeTrack]
    exact ofProgram_program p.1.instrument
  refine ⟨⟨m, k, (track ++ [ending]).title, (track ++ [ending]).instrument,
    ss.map (Stroke.played (.ofVoice p.2))⟩, ?_, htitle, hinstrument, hserialize⟩
  rw [voicesOfTrack, hperformance]
  dsimp only
  rw [lines_played hss.inTurn hne, mapError_ok, ok_bind, List.mapM_cons, voiceOfLine, hscore,
    mapError_ok, ok_bind, hparse]
  rfl

/-- The tracks of voices are read as one voice each, in their order. -/
theorem mapM_voicesOfTrack {ps : List (Voice × ℕ)} (h : List.Forall₂ IsTrackOf ps ts) (k : ℕ) :
    ∃ ds : List DecodedVoice,
      ((ts.map (· ++ [ending])).zipIdx k).mapM (fun p => voicesOfTrack defaultMap p.1 p.2) =
        .ok (ds.map ([·])) ∧
      List.Forall₂ (fun p d => d.Renders p.1 p.2) ps ds := by
  induction h generalizing k with
  | nil => exact ⟨[], rfl, .nil⟩
  | cons htrack _ ih =>
    obtain ⟨d, hd, hrenders⟩ := voicesOfTrack_of_isTrackOf htrack k
    obtain ⟨ds, hds, hrest⟩ := ih (k + 1)
    refine ⟨d :: ds, ?_, .cons hrenders hrest⟩
    rw [List.map_cons, List.zipIdx_cons, List.mapM_cons, hd, ok_bind, hds]
    rfl

/-- Every voice with a note is in the file. -/
theorem exists_mem_soundingVoices (hv : v ∈ voices) (hnotes : v.melody.notes ≠ []) :
    ∃ i, (v, i) ∈ soundingVoices 0 voices := by
  obtain ⟨i, hi⟩ := List.mem_iff_getElem?.mp hv
  exact ⟨i, List.mem_filter.mpr ⟨List.mk_mem_zipIdx_iff_getElem?.mpr hi, by simpa using hnotes⟩⟩

theorem soundingVoices_ne_nil (h : ∃ v ∈ voices, v.melody.notes ≠ []) :
    soundingVoices 0 voices ≠ [] := by
  obtain ⟨v, hv, hnotes⟩ := h
  obtain ⟨i, hmem⟩ := exists_mem_soundingVoices hv hnotes
  exact List.ne_nil_of_mem hmem

/-! ## The round trip -/

/-- A voice without a name is called by its number. -/
theorem nameOfTrack_of_name_eq_nil (h : v.name = []) (index : ℕ) :
    nameOfTrack v index = "Voice ".toList ++ Nat.toDigits 10 (index + 1) := by
  rw [nameOfTrack, if_pos (List.isEmpty_iff.mpr h)]
  simp [ToString.toString, Nat.toList_repr]

theorem narrow_nameOfTrack (h : ∀ c ∈ v.name, isNarrow c) (index : ℕ) :
    ∀ c ∈ nameOfTrack v index, isNarrow c := by
  by_cases hname : v.name = []
  · have hdigit : ∀ c ∈ Nat.toDigits 10 (index + 1), isNarrow c := by
      intro c hc
      have hcode := Text.toNat_of_isDigit (Text.isDigit_of_mem_toDigits hc)
      exact decide_eq_true (by omega)
    have hword : ∀ c ∈ "Voice ".toList, isNarrow c := List.all_eq_true.mp (by decide)
    rw [nameOfTrack_of_name_eq_nil hname]
    intro c hc
    exact (List.mem_append.mp hc).elim (hword c) (hdigit c)
  · rw [nameOfTrack, if_neg (by simpa using hname)]
    exact h

theorem isWritable_of_isTrackOf {p : Voice × ℕ} (h : IsTrackOf p t)
    (hname : ∀ c ∈ p.1.name, isNarrow c) : t.IsWritable := by
  obtain ⟨velocity, stated, ss, -, -, hss, rfl⟩ := h
  exact strokeTrack_isWritable hss.inTurn (narrow_nameOfTrack hname p.2) (by decide)

/-- Of the data of tracks, only their names may be too long. -/
theorem findSome?_excess? {ps : List (Voice × ℕ)} (h : List.Forall₂ IsTrackOf ps ts) :
    ts.findSome? Track.excess? =
      ps.findSome? fun p => (TrackEvent.name (nameOfTrack p.1 p.2)).excess? := by
  induction h with
  | nil => rfl
  | cons htrack _ ih =>
    obtain ⟨velocity, stated, ss, -, -, -, rfl⟩ := htrack
    rw [List.findSome?_cons, List.findSome?_cons, excess?_strokeTrack, ih]

theorem mem_of_mem_soundingVoices {p : Voice × ℕ} (h : p ∈ soundingVoices index voices) :
    p.1 ∈ voices :=
  List.fst_mem_of_mem_zipIdx (List.mem_filter.mp h).1

theorem notes_ne_nil_of_mem_soundingVoices {p : Voice × ℕ} (h : p ∈ soundingVoices index voices) :
    p.1.melody.notes ≠ [] := by
  simpa using (List.mem_filter.mp h).2

/-- Fewer than `2 ^ 15` voices with names and scores that are not too long fit in a file. -/
theorem fitsFile_of_length (h : ∀ v ∈ voices, v.IsExportable) (hcount : voices.length < 32768)
    (hsize : ∀ p ∈ soundingVoices 0 voices,
      (nameOfTrack p.1 p.2).length + 22 * p.1.melody.notes.length + 38 < 2 ^ 31) :
    FitsFile voices := by
  intro ts hts
  obtain ⟨ts', hts', htracks, -⟩ := tracksFrom_ok h 0 false
  obtain rfl := Except.ok.inj (hts'.symm.trans hts)
  refine ⟨?_, fun t ht body hbody => ?_⟩
  · have hle : (soundingVoices 0 voices).length ≤ (voices.zipIdx 0).length :=
      List.length_filter_le _ _
    rw [htracks.length_eq, List.length_zipIdx] at hle
    omega
  · obtain ⟨p, hp, velocity, stated, ss, -, -, hss, rfl⟩ := exists_of_mem_right htracks t ht
    have hlength := hsize p hp
    rw [Melody.notes, ← hss.length_eq] at hlength
    have hle := length_le_of_writeEvents_strokeTrack hss.inTurn (by omega) hbody
    omega

/-- Voices of whole milliseconds are written, and all of them are read if no name is too long. -/
theorem encode_ok (h : ∀ v ∈ voices, v.IsExportable) (hnotes : ∃ v ∈ voices, v.melody.notes ≠ [])
    (hfits : FitsFile voices) :
    ∃ bytes decoded, encode voices (.whole defaultBpm) (.whole defaultResolution) = .ok bytes ∧
      decode bytes = (orTooLong ((soundingVoices 0 voices).findSome? fun p =>
        (TrackEvent.name (nameOfTrack p.1 p.2)).excess?) decoded).mapError .unreadable ∧
      List.Forall₂ (fun p d => d.Renders p.1 p.2) (soundingVoices 0 voices) decoded := by
  obtain ⟨ts, hts, htracks, htempi⟩ := tracksFrom_ok h 0 false
  obtain ⟨hcount, hsize⟩ := hfits ts hts
  have hne : ts ≠ [] := by
    rintro rfl
    exact soundingVoices_ne_nil hnotes (List.forall₂_nil_right_iff.mp htracks)
  -- what was written is read back as the same tracks, each with an event more at its end
  have hwritable : ∀ t ∈ ts, t.IsWritable := by
    intro t ht
    obtain ⟨p, hp, htrack⟩ := exists_of_mem_right htracks t ht
    exact isWritable_of_isTrackOf htrack (h p.1 (mem_of_mem_soundingVoices hp)).narrow
  obtain ⟨bytes, hwrite, hread⟩ := readFile_writeFile (by decide : 480 < 32768) hcount hwritable
    fun t ht body hbody => (hsize t ht body hbody).trans (by decide)
  obtain ⟨decoded, hdecoded, hrenders⟩ := mapM_voicesOfTrack htracks 0
  refine ⟨bytes, decoded, ?_, ?_, hrenders⟩
  · exact encode_of_tracksFrom (by decide) (by decide) ofBpm_defaultBpm hts hne hwrite
  -- the tempo that the first track states is the only one
  · have hchanges : (ts.map (· ++ [ending])).flatMap Track.tempi = [(0, (defaultTempo : ℤ))] := by
      rw [htempi, if_neg (by simpa using hne)]
    have hmap : TempoMap.ofChanges (480 : ℕ) [(0, (defaultTempo : ℤ))] = .ok defaultMap :=
      ofChanges_default
    have hflatten : (decoded.map ([·])).flatten = decoded := by
      rw [← List.flatMap_def]
      exact List.flatMap_singleton' decoded
    have hsome : require ((decoded.map ([·])).flatten ≠ []) ImportFault.noNotes = .ok () := by
      refine if_pos ?_
      rw [hflatten]
      rintro rfl
      exact soundingVoices_ne_nil hnotes (List.forall₂_nil_right_iff.mp hrenders)
    have hvoices : voicesOfFile ⟨(480 : ℕ), ts.map (· ++ [ending])⟩ = .ok decoded := by
      rw [voicesOfFile]
      dsimp only
      rw [hchanges, hmap, mapError_ok, ok_bind, hdecoded, ok_bind, hsome, ok_bind, hflatten]
      rfl
    rw [decode, hread, findSome?_excess? htracks]
    cases (soundingVoices 0 voices).findSome? fun p =>
        (TrackEvent.name (nameOfTrack p.1 p.2)).excess? with
    | some n => rfl
    | none => exact hvoices

/-- **Voices of whole milliseconds are imported as they were exported**: those with a note that
sounds, in their order, with their names, their instruments and their condensed scores. -/
theorem decode_encode (h : ∀ v ∈ voices, v.IsExportable) (hnotes : ∃ v ∈ voices, v.melody.notes ≠ [])
    (hfits : FitsFile voices)
    (hnames : ∀ p ∈ soundingVoices 0 voices, (nameOfTrack p.1 p.2).length ≤ greatestLength) :
    ∃ bytes decoded, encode voices (.whole defaultBpm) (.whole defaultResolution) = .ok bytes ∧
      decode bytes = .ok decoded ∧
      List.Forall₂ (fun p d => d.Renders p.1 p.2) (soundingVoices 0 voices) decoded := by
  obtain ⟨bytes, decoded, hencode, hdecode, hrenders⟩ := encode_ok h hnotes hfits
  have hexcess : ((soundingVoices 0 voices).findSome? fun p =>
      (TrackEvent.name (nameOfTrack p.1 p.2)).excess?) = none :=
    List.findSome?_eq_none_iff.mpr fun p hp => if_neg (Nat.not_lt.mpr (hnames p hp))
  rw [hexcess] at hdecode
  exact ⟨bytes, decoded, hencode, hdecode, hrenders⟩

/-- A voice with a name, pauses, a comment and a flaw, after one without notes. -/
theorem decode_encode_song :
    ∃ m rest, Melody.parse "p(250)//rest//h c5(500)d#(300)p".toList = .ok m ∧
      Melody.parse "p".toList = .ok rest ∧
      let voices : List Voice := [⟨rest, .piano, .real 1, false, false, []⟩,
        ⟨m, .bass, .real 1, false, false, "Bass".toList⟩, ⟨m, .flute, .real 1, false, false, []⟩]
      ∃ bytes decoded, encode voices (.whole defaultBpm) (.whole defaultResolution) = .ok bytes ∧
        decode bytes = .ok decoded ∧
        List.Forall₂ (fun p d => d.Renders p.1 p.2) (soundingVoices 0 voices) decoded := by
  obtain ⟨m, hm, hwhole, hnamed, hbrief, hlength, hsome⟩ :
      ∃ m, Melody.parse "p(250)//rest//h c5(500)d#(300)p".toList = .ok m ∧
        (∀ e ∈ m.events, e.duration.isWhole) ∧ (∀ e ∈ m.notes, e.noteNumber?.isOk) ∧
        Number.real m.total ≤ .whole greatestTime ∧ m.notes.length = 2 ∧ m.notes ≠ [] := by
    refine ⟨⟨_, _⟩, rfl, ?_, ?_, ?_, ?_, ?_⟩ <;> decide +kernel
  obtain ⟨rest, hrest, hwhole', hbrief', hnone⟩ :
      ∃ rest, Melody.parse "p".toList = .ok rest ∧ (∀ e ∈ rest.events, e.duration.isWhole) ∧
        Number.real rest.total ≤ .whole greatestTime ∧ rest.notes = [] := by
    refine ⟨⟨_, _⟩, rfl, ?_, ?_, ?_⟩ <;> decide +kernel
  refine ⟨m, rest, hm, hrest, ?_⟩
  intro voices
  have hvoices : ∀ v ∈ voices, v.IsExportable := by
    refine List.forall_mem_cons.mpr ⟨?_, List.forall_mem_cons.mpr ⟨?_, List.forall_mem_singleton.mpr ?_⟩⟩
    · exact .of_parse hrest hwhole' (by simp [hnone]) hbrief' (List.all_eq_true.mp rfl) .piano
    · exact .of_parse hm hwhole hnamed hbrief (List.all_eq_true.mp (by decide)) .bass
    · exact .of_parse hm hwhole hnamed hbrief (List.all_eq_true.mp rfl) .flute
  -- the voice without notes is left out, and the others keep their places
  have hsounding : soundingVoices 0 voices =
      [(⟨m, .bass, .real 1, false, false, "Bass".toList⟩, 1),
        (⟨m, .flute, .real 1, false, false, []⟩, 2)] := by
    simp [voices, soundingVoices, hnone, hsome]
  have hnames : ∀ p ∈ soundingVoices 0 voices, (nameOfTrack p.1 p.2).length ≤ 7 := by
    rw [hsounding]
    refine List.forall_mem_cons.mpr ⟨(by decide : 4 ≤ 7), List.forall_mem_singleton.mpr ?_⟩
    rw [nameOfTrack_of_name_eq_nil rfl]
    exact (by decide : ("Voice ".toList ++ Nat.toDigits 10 3).length ≤ 7)
  have hfits : FitsFile voices := by
    refine fitsFile_of_length hvoices (by decide : 3 < 32768) fun p hp => ?_
    have hname := hnames p hp
    have hnotes : p.1.melody.notes.length = 2 := by
      rw [hsounding] at hp
      simp only [List.mem_cons, List.not_mem_nil, or_false] at hp
      rcases hp with rfl | rfl <;> exact hlength
    omega
  exact decode_encode hvoices ⟨_, List.mem_cons_of_mem _ List.mem_cons_self, hsome⟩ hfits
    fun p hp => (hnames p hp).trans (by decide)

/-- Voices are not imported if the track of one has a name that is too long to be read. -/
theorem decode_encode_of_tooLong (h : ∀ v ∈ voices, v.IsExportable) (hfits : FitsFile voices)
    (hname : ∃ p ∈ soundingVoices 0 voices, greatestLength < (nameOfTrack p.1 p.2).length) :
    ∃ bytes n, encode voices (.whole defaultBpm) (.whole defaultResolution) = .ok bytes ∧
      decode bytes = .error (.unreadable (.tooLong n)) := by
  obtain ⟨p, hp, hlong⟩ := hname
  have hnotes : ∃ v ∈ voices, v.melody.notes ≠ [] :=
    ⟨p.1, mem_of_mem_soundingVoices hp, notes_ne_nil_of_mem_soundingVoices hp⟩
  obtain ⟨bytes, decoded, hencode, hdecode, -⟩ := encode_ok h hnotes hfits
  cases hexcess : (soundingVoices 0 voices).findSome? fun p =>
      (TrackEvent.name (nameOfTrack p.1 p.2)).excess? with
  | none =>
    have hnone := List.findSome?_eq_none_iff.mp hexcess p hp
    rw [TrackEvent.excess?, if_pos hlong] at hnone
    cases hnone
  | some n =>
    rw [hexcess] at hdecode
    exact ⟨bytes, n, hencode, hdecode⟩

/-- A note in a voice whose name has one character too many. -/
theorem not_decode_encode_longName :
    ∃ m, Melody.parse "C".toList = .ok m ∧
      let voices : List Voice :=
        [⟨m, .piano, .real 1, false, false, List.replicate (greatestLength + 1) 'a'⟩]
      (∀ v ∈ voices, v.IsExportable) ∧ (∃ v ∈ voices, v.melody.notes ≠ []) ∧ FitsFile voices ∧
        ¬ ∃ bytes decoded, encode voices (.whole defaultBpm) (.whole defaultResolution) = .ok bytes ∧
          decode bytes = .ok decoded ∧
          List.Forall₂ (fun p d => d.Renders p.1 p.2) (soundingVoices 0 voices) decoded := by
  obtain ⟨m, hm, hwhole, hnamed, hbrief, hlength, hsome⟩ :
      ∃ m, Melody.parse "C".toList = .ok m ∧ (∀ e ∈ m.events, e.duration.isWhole) ∧
        (∀ e ∈ m.notes, e.noteNumber?.isOk) ∧ Number.real m.total ≤ .whole greatestTime ∧
        m.notes.length = 1 ∧ m.notes ≠ [] := by
    refine ⟨⟨_, _⟩, rfl, ?_, ?_, ?_, ?_, ?_⟩ <;> decide +kernel
  refine ⟨m, hm, ?_⟩
  intro voices
  have hvoices : ∀ v ∈ voices, v.IsExportable := by
    refine List.forall_mem_singleton.mpr
      (.of_parse hm hwhole hnamed hbrief (fun c hc => ?_) .piano)
    rw [List.eq_of_mem_replicate hc]
    rfl
  have hsounding : soundingVoices 0 voices =
      [(⟨m, .piano, .real 1, false, false, List.replicate (greatestLength + 1) 'a'⟩, 0)] := by
    simp [voices, soundingVoices, hsome]
  have hname : ∀ p ∈ soundingVoices 0 voices, (nameOfTrack p.1 p.2).length = greatestLength + 1 := by
    rw [hsounding]
    refine List.forall_mem_singleton.mpr ?_
    rw [nameOfTrack, if_neg (by simp), List.length_replicate]
  have hmem : (⟨m, .piano, .real 1, false, false, List.replicate (greatestLength + 1) 'a'⟩, 0) ∈
      soundingVoices 0 voices := hsounding ▸ List.mem_singleton_self _
  have hfits : FitsFile voices := by
    refine fitsFile_of_length hvoices (by decide : 1 < 32768) fun p hp => ?_
    have hnotes : p.1.melody.notes.length = 1 := by
      rw [hsounding] at hp
      rw [List.mem_singleton.mp hp]
      exact hlength
    rw [hname p hp, hnotes, greatestLength]
    decide
  refine ⟨hvoices, ⟨_, List.mem_singleton_self _, hsome⟩, hfits, ?_⟩
  -- the file is written, but reading it is refused
  rintro ⟨bytes, decoded, hencode, hdecode, -⟩
  obtain ⟨bytes', n, hencode', hdecode'⟩ := decode_encode_of_tooLong hvoices hfits
    ⟨_, hmem, (hname _ hmem).symm ▸ Nat.lt_succ_self _⟩
  obtain rfl := Except.ok.inj (hencode'.symm.trans hencode)
  cases hdecode'.symm.trans hdecode

end Midi

end Monody
