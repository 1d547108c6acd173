import Monody.Proofs.Midi.Import
import Monody.Proofs.Midi.Names
import Monody.Proofs.Midi.RoundTrip

/-!
# Voices that are exported again

One import is enough: the voices that are read from a file are read again, the same as they are, from
the file that they are exported to. Their scores are condensed and have whole durations, and their
names can be written, because they were read.

## Main definitions

* `DecodedVoice.IsSame` — voices with the same score, instrument and name

## Main results

* `isExportable_toVoice` — a voice that was read can be exported
* `decode_reencode` — and is imported as it is
-/

namespace Monody.Midi

open Binary64 Performance

-- evaluated, the numbers of units are too long to be looked at
attribute [local irreducible] one bound

variable {d d' : DecodedVoice} {ds decoded : List DecodedVoice} {t : Track} {gs : List ℕ}
  {ws : List (List Char)} {f : File} {bytes : List UInt8}

/-- The second voice has the score and the instrument of the first, and its name if that has one. -/
structure DecodedVoice.IsSame (d d' : DecodedVoice) : Prop where
  text : d'.melody.text = d.melody.text
  instrument : d'.instrument = d.instrument
  name : d.name ≠ [] → d'.name = d.name

/-- A voice that was read can be exported, if its score is not too long. -/
theorem isExportable_toVoice (hd : d.IsOfTrack t gs ws) (hname : IsName t.title)
    (hbrief : Number.real d.melody.total ≤ .whole greatestTime) : d.toVoice.IsExportable where
  parsed := ⟨_, hd.parsed⟩
  struck := isOk_iff_exists.mpr
    (Voice.velocity_ok (by decide +kernel : 0 ≤ Number.real 1 ∧ Number.real 1 ≤ 1))
  whole := hd.scored.isWhole_duration
  named := by
    intro e he
    obtain ⟨n, -, w, hplayed⟩ := exists_of_mem_right hd.scored.forall₂_notes e he
    exact ⟨_, hplayed.number⟩
  brief := hbrief
  narrow := by
    intro c hc
    have hc' : c ∈ d.name := hc
    rw [hd.name] at hc'
    exact hname.narrow c hc'

/-- Of a score that is not too long, the pauses are not too long either. -/
theorem le_greatestTime_of_isOfTrack (hd : d.IsOfTrack t gs ws) (h : d.toVoice.IsExportable) :
    ∀ g ∈ gs, g ≤ greatestTime := by
  obtain ⟨ss, hss⟩ := sounds_of_isExportable h
  intro g hg
  obtain ⟨e, he, hduration⟩ := hd.scored.exists_duration g hg
  obtain ⟨k, hk, hduration'⟩ := hss.exists_duration e he
  have hsmall := le_of_le_greatestTime hk
  obtain rfl : g = k := eq_of_ofInt_eq (by omega) (hduration.symm.trans hduration')
  exact hk

/-- What an exported voice is read as again. -/
theorem isSame_of_renders (hd : d.IsOfTrack t gs ws) (h : d.toVoice.IsExportable) {index : ℕ}
    (hrenders : d'.Renders d.toVoice index) : d.IsSame d' := by
  have hshort : ∀ g ∈ gs, g ≤ 2 ^ 53 := by
    intro g hg
    have hsmall := le_of_le_greatestTime (le_greatestTime_of_isOfTrack hd h g hg)
    omega
  refine ⟨?_, hrenders.instrument, fun hname => ?_⟩
  · -- the score is condensed already
    have hscore : Melody.serialize (Melody.condense d.melody.events) = .ok (Melody.joinTokens ws) := by
      rw [Melody.serialize, hd.scored.mapM_condense hshort]
      rfl
    rw [hd.text]
    exact Except.ok.inj (hrenders.score.symm.trans hscore)
  · have hname' : ¬ d.toVoice.name.isEmpty := mt List.isEmpty_iff.mp hname
    rw [hrenders.name, nameOfTrack, if_neg hname']
    rfl

theorem length_notes (hd : d.IsOfTrack t gs ws) : d.melody.notes.length = d.notes.length :=
  hd.scored.forall₂_notes.length_eq.symm

theorem notes_ne_nil (hd : d.IsOfTrack t gs ws) : d.melody.notes ≠ [] := by
  rw [← List.length_pos_iff, length_notes hd]
  exact List.length_pos_iff.mpr hd.nonempty

/-- What is known of voices that were read, if their scores are not too long. -/
theorem exists_isExportable (h : decode bytes = .ok ds)
    (hbrief : ∀ d ∈ ds, Number.real d.melody.total ≤ .whole greatestTime) :
    ∀ d ∈ ds, ∃ t gs ws, d.IsOfTrack t gs ws ∧ d.name.length ≤ greatestLength ∧
      d.toVoice.IsExportable := by
  intro d hd
  obtain ⟨f, t, gs, ws, hf, ht, hof⟩ := exists_isOfTrack h hd
  have hname := isName_title hf ht
  exact ⟨t, gs, ws, hof, hof.name ▸ hname.short, isExportable_toVoice hof hname (hbrief d hd)⟩

theorem ne_nil_of_decode (h : decode bytes = .ok ds) : ds ≠ [] := by
  obtain ⟨f, _, h⟩ := exists_of_bind_eq_ok h
  obtain ⟨m, _, h⟩ := exists_of_bind_eq_ok h
  obtain ⟨voices, _, h⟩ := exists_of_bind_eq_ok h
  obtain ⟨_, hne, h⟩ := exists_of_bind_eq_ok h
  obtain rfl := Except.ok.inj h
  exact require_eq_ok_iff.mp hne

/-- If all voices have notes, all of them sound. -/
theorem soundingVoices_eq {voices : List Voice} (h : ∀ v ∈ voices, v.melody.notes ≠ []) :
    soundingVoices 0 voices = voices.zipIdx := by
  refine List.filter_eq_self.mpr fun p hp => ?_
  have hne := h p.1 (List.fst_mem_of_mem_zipIdx hp)
  simpa using hne

/-- A voice without a name is called by a number of few digits. -/
theorem length_nameOfTrack_le (v : Voice) (index : ℕ) (hname : v.name.length ≤ greatestLength)
    (hindex : index < 32768) : (nameOfTrack v index).length ≤ greatestLength := by
  by_cases hempty : v.name = []
  · have hdigits : (Nat.toDigits 10 (index + 1)).length ≤ 5 :=
      (Nat.length_toDigits_le_iff (by decide) (by decide)).mpr (by omega)
    have hword : "Voice ".toList.length = 6 := rfl
    rw [nameOfTrack_of_name_eq_nil hempty, List.length_append, hword, greatestLength]
    omega
  · rw [nameOfTrack, if_neg (mt List.isEmpty_iff.mp hempty)]
    exact hname

/-- Voices that fit in a file and all sound are fewer than `2 ^ 15`. -/
theorem length_lt_of_fitsFile {voices : List Voice} (h : ∀ v ∈ voices, v.IsExportable)
    (hnotes : ∀ v ∈ voices, v.melody.notes ≠ []) (hfits : FitsFile voices) :
    voices.length < 32768 := by
  obtain ⟨ts, hts, htracks, -⟩ := tracksFrom_ok h 0 false
  have hlength := htracks.length_eq
  rw [soundingVoices_eq hnotes, List.length_zipIdx] at hlength
  exact hlength ▸ (hfits ts hts).1

/-- Voices that each are read again as they are, are so in their order. -/
theorem forall₂_isSame
    (hsame : ∀ d ∈ ds, ∀ d' (index : ℕ), d'.Renders d.toVoice index → d.IsSame d') {k : ℕ}
    (h : List.Forall₂ (fun p d => d.Renders p.1 p.2) ((ds.map (·.toVoice)).zipIdx k) decoded) :
    List.Forall₂ DecodedVoice.IsSame ds decoded := by
  induction ds generalizing k decoded with
  | nil =>
    obtain rfl := List.forall₂_nil_left_iff.mp h
    exact .nil
  | cons d ds ih =>
    obtain ⟨hd, hds⟩ := List.forall_mem_cons.mp hsame
    rw [List.map_cons, List.zipIdx_cons] at h
    obtain ⟨d', decoded, hrenders, hrest, rfl⟩ := List.forall₂_cons_left_iff.mp h
    exact .cons (hd d' k hrenders) (ih hds hrest)

/-- **Voices that were imported are exported and imported as they are**: as many of them, in their order,
with their scores, their instruments and the names that they have. -/
theorem decode_reencode (h : decode bytes = .ok ds)
    (hbrief : ∀ d ∈ ds, Number.real d.melody.total ≤ .whole greatestTime)
    (hfits : FitsFile (ds.map (·.toVoice))) :
    ∃ bytes' decoded,
      encode (ds.map (·.toVoice)) (.whole defaultBpm) (.whole defaultResolution) = .ok bytes' ∧
      decode bytes' = .ok decoded ∧ List.Forall₂ DecodedVoice.IsSame ds decoded := by
  have hall := exists_isExportable h hbrief
  have hexport : ∀ v ∈ ds.map (·.toVoice), v.IsExportable := by
    intro v hv
    obtain ⟨d, hd, rfl⟩ := List.mem_map.mp hv
    obtain ⟨t, gs, ws, -, -, hd⟩ := hall d hd
    exact hd
  have hnotes : ∀ v ∈ ds.map (·.toVoice), v.melody.notes ≠ [] := by
    intro v hv
    obtain ⟨d, hd, rfl⟩ := List.mem_map.mp hv
    obtain ⟨t, gs, ws, hof, -⟩ := hall d hd
    exact notes_ne_nil hof
  obtain ⟨v, hv⟩ := List.exists_mem_of_ne_nil _ (List.map_eq_nil_iff.not.mpr (ne_nil_of_decode h))
  obtain ⟨bytes', decoded, hencode, hdecode, hrenders⟩ :=
    encode_ok hexport ⟨v, hv, hnotes v hv⟩ hfits
  have hcount := length_lt_of_fitsFile hexport hnotes hfits
  rw [soundingVoices_eq hnotes] at hdecode hrenders
  -- names that have been read are not too long, and neither are those that voices are given
  have hexcess : ((ds.map (·.toVoice)).zipIdx.findSome? fun p =>
      (TrackEvent.name (nameOfTrack p.1 p.2)).excess?) = none := by
    refine List.findSome?_eq_none_iff.mpr fun p hp => if_neg (Nat.not_lt.mpr ?_)
    obtain ⟨d, hd, heq⟩ := List.mem_map.mp (List.fst_mem_of_mem_zipIdx hp)
    obtain ⟨t, gs, ws, -, hname, -⟩ := hall d hd
    refine length_nameOfTrack_le p.1 p.2 (heq ▸ hname) ?_
    exact (List.snd_lt_of_mem_zipIdx hp).trans_le (by omega)
  rw [hexcess] at hdecode
  refine ⟨bytes', decoded, hencode, hdecode, forall₂_isSame (fun d hd d' index hread => ?_) hrenders⟩
  obtain ⟨t, gs, ws, hof, -, hd⟩ := hall d hd
  exact isSame_of_renders hof hd hread

/-- Fewer than `2 ^ 15` voices of not too many notes fit in a file when they are exported again. -/
theorem fitsFile_toVoice (h : decode bytes = .ok ds)
    (hbrief : ∀ d ∈ ds, Number.real d.melody.total ≤ .whole greatestTime)
    (hcount : ds.length < 32768) (hsize : ∀ d ∈ ds, d.notes.length ≤ 9 * 10 ^ 7) :
    FitsFile (ds.map (·.toVoice)) := by
  have hall := exists_isExportable h hbrief
  refine fitsFile_of_length ?_ (by rwa [List.length_map]) fun p hp => ?_
  · intro v hv
    obtain ⟨d, hd, rfl⟩ := List.mem_map.mp hv
    obtain ⟨t, gs, ws, -, -, hd⟩ := hall d hd
    exact hd
  · have hmem := List.mem_filter.mp hp
    obtain ⟨d, hd, heq⟩ := List.mem_map.mp (List.fst_mem_of_mem_zipIdx hmem.1)
    obtain ⟨t, gs, ws, hof, hname, -⟩ := hall d hd
    have hindex := List.snd_lt_of_mem_zipIdx hmem.1
    rw [List.length_map] at hindex
    have hlong := length_nameOfTrack_le p.1 p.2 (heq ▸ hname) (by omega)
    have hnotes : p.1.melody.notes.length = d.notes.length := by
      rw [← heq]
      exact length_notes hof
    have hlength := hsize d hd
    rw [hnotes]
    rw [greatestLength] at hlong
    omega

/-- The voices of a chord without a name. -/
theorem decode_reencode_chord :
    ∃ ds bytes' decoded, decode chordBytes = .ok ds ∧
      encode (ds.map (·.toVoice)) (.whole defaultBpm) (.whole defaultResolution) = .ok bytes' ∧
      decode bytes' = .ok decoded ∧ List.Forall₂ DecodedVoice.IsSame ds decoded := by
  obtain ⟨ds, hds, htexts, hrest⟩ := exists_decode_chordBytes
  have hbrief : ∀ d ∈ ds, Number.real d.melody.total ≤ .whole greatestTime :=
    fun d hd => (hrest d hd).2.1
  have hcount : ds.length = 2 := by
    rw [← List.length_map fun d : DecodedVoice => String.ofList d.melody.text, htexts]
    rfl
  have hfits := fitsFile_toVoice hds hbrief (by omega) fun d hd =>
    (hrest d hd).2.2.trans (by decide)
  obtain ⟨bytes', decoded, hreencode⟩ := decode_reencode hds hbrief hfits
  exact ⟨ds, bytes', decoded, hds, hreencode⟩

end Monody.Midi
