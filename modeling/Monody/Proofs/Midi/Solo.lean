import Monody.Proofs.Midi.Closed
import Monody.Proofs.Midi.Limits
import Monody.Proofs.Midi.Monophonic

/-!
# Solos

Every track of a file was written from one voice, one note at a time, but a note that is shorter than a tick
can overlap the next one. A file of one voice has one track, and is read as that track. Where no note that
overlaps the next one is heard, it is read as one voice, or, if no note is heard at all, refused for having
none.

## Main definitions

* `IsSolo` — a track with the notes of a voice, one at a time
* `namelessTrack` — the track of a nameless voice, by its messages

## Main results

* `isSolo_of_trackOfVoice` — the track of a voice is a solo
* `readFile_of_writeFile` — a file of one voice is read as its track
* `exists_decode_of_pairwise` — a track with one note at a time is read as one voice
* `givesWay_of_encode` — files have one note at a time on a track, but for notes at one tick
-/

namespace Monody.Midi

open Binary64
open Performance (Note)

-- evaluated, the numbers of units are too long to be looked at
attribute [local irreducible] one bound

variable {v : Voice} {voices : List Voice} {index ticks beat : ℕ} {bpm resolution : Number} {tempo : ℤ}
  {t : Track} {ts : List Track} {text : List Char} {bytes : List UInt8} {f : File} {e : Melody.Event}

/-- A track with the notes of a voice with its index, one at a time. -/
structure IsSolo (ticks beat : ℕ) (p : Voice × ℕ) (t : Track) : Prop where
  spans : List.Forall₂ (IsSpanOf (.ofVoice p.2) (.whole ticks) beat) p.1.melody.notes t.spans
  givesWay : t.spans.IsChain Span.GivesWay

/-! ## Writing -/

/-- What the track of a file with one track begins with. -/
theorem exists_of_trackOfVoice_stated (hnotes : v.melody.notes ≠ [])
    (h : trackOfVoice v index resolution tempo true = .ok (some t)) :
    (0 ≤ tempo ∧ tempo ≤ Tempo.greatest) ∧ ∃ ms,
      t = ⟨0, .name (nameOfTrack v index)⟩ :: ⟨0, .tempo tempo.toNat⟩ ::
        ⟨0, .message (.program (.ofVoice index) v.instrument.program)⟩ :: eventsFrom 0 ms := by
  rw [trackOfVoice, if_neg fun h => hnotes (List.isEmpty_iff.mp h)] at h
  obtain ⟨notes, hevents, h⟩ := exists_of_bind_eq_ok h
  obtain ⟨e, he, h⟩ := exists_of_bind_eq_ok h
  obtain ⟨hrange, rfl⟩ := tempoEvent_eq_ok_iff.mp he
  obtain ⟨ms, rfl⟩ := exists_placed_of_noteEvents hevents
  exact ⟨hrange, ms, (Option.some.inj (Except.ok.inj h)).symm⟩

/-- Voices have a file only with tracks, and at a resolution and a tempo that can be stated. -/
theorem exists_of_encode (hparse : ∀ v ∈ voices, ∃ text, Melody.parse text = .ok v.melody)
    (h : encode voices bpm resolution = .ok bytes) :
    ∃ (ticks beat : ℕ) (ts : List Track), resolution = .whole ticks ∧ Tempo.ofBpm bpm = .ok (beat : ℤ) ∧
      IsStatable ticks beat ∧ tracksFrom 0 false resolution beat voices = .ok ts ∧
      writeFile resolution ts = .ok bytes := by
  rw [encode] at h
  obtain ⟨_, -, h⟩ := exists_of_bind_eq_ok h
  obtain ⟨_, hpositive, h⟩ := exists_of_bind_eq_ok h
  obtain ⟨tempo, htempo, h⟩ := exists_of_bind_eq_ok h
  obtain ⟨ts, hts, h⟩ := exists_of_bind_eq_ok h
  obtain ⟨_, hne, hwrite⟩ := exists_of_bind_eq_ok h
  rw [require_eq_ok_iff] at hpositive hne
  rw [mapError_eq_ok_iff] at htempo hwrite
  -- without notes there are no tracks, which was checked
  have hnotes : ∃ v ∈ voices, v.melody.notes ≠ [] := by
    by_contra hnone
    rw [tracksFrom_of_forall_nil fun v hv => not_not.mp fun h => hnone ⟨v, hv, h⟩] at hts
    exact hne (Except.ok.inj hts).symm
  have hok := congrArg Except.isOk hts
  have hbeat := tempo_pos_of_isOk_tracksFrom hparse hnotes hok
  obtain ⟨v, hv, hsome⟩ := hnotes
  have hgreatest := ((isOk_tracksFrom_iff hparse hbeat 0 false).mp hok v hv hsome).2 rfl
  obtain ⟨n, rfl⟩ := exists_whole_of_writeFile hwrite
  have hn : 0 < n := Int.not_le.mp fun hle => hpositive
    ((Number.le_iff_rank (Number.isFinite_whole n) (Number.isFinite_whole 0)).mpr
      (Int.mul_le_mul_of_nonneg_right hle (Int.natCast_nonneg _)))
  have hrange := (isOk_writeFile_iff.mp (congrArg Except.isOk hwrite)).2.1.2
  obtain ⟨ticks, rfl⟩ := Int.eq_ofNat_of_zero_le hn.le
  obtain ⟨beat, rfl⟩ := Int.eq_ofNat_of_zero_le hbeat.le
  exact ⟨ticks, beat, ts, rfl, htempo, ⟨by omega, by omega, by omega, hgreatest⟩, hts, hwrite⟩

/-- The track of a voice has its notes, of which each gives way to the next one. -/
theorem isSolo_of_trackOfVoice {stated : Bool} (h : IsStatable ticks beat)
    (hparse : Melody.parse text = .ok v.melody)
    (htrack : trackOfVoice v index (.whole ticks) beat stated = .ok (some t)) :
    IsSolo ticks beat (v, index) t := by
  have hresolution := Number.whole_pos (Int.natCast_pos.mpr h.resolution_pos)
  have hbeat : (0 : ℤ) < beat := Int.natCast_pos.mpr h.tempo_pos
  have hread := readsBack_of_trackOfVoice hparse hresolution hbeat htrack
  have hspans : List.Forall₂ (IsSpanOf (.ofVoice index) (.whole ticks) beat) v.melody.notes t.spans := by
    rw [Track.spans, hread.closed, List.append_nil]
    exact hread.spans
  obtain ⟨hafter, hturn⟩ := Melody.inTurn_notes_of_parse hparse
  exact ⟨hspans, isChain_givesWay hresolution hbeat hspans hafter hturn⟩

/-- The track of a voice that has a file can be written and read. -/
theorem isWritable_of_writeFile (hnotes : v.melody.notes ≠ [])
    (h : trackOfVoice v index resolution tempo true = .ok (some t))
    (hwrite : (writeEvents none t).isOk) : t.IsWritable := by
  obtain ⟨⟨hlow, hgreatest⟩, ms, ht⟩ := exists_of_trackOfVoice_stated hnotes h
  have hnarrow := (isOk_writeEvents_iff none).mp hwrite
  -- writing does not check the tempo, but it was checked when it was stated
  have htempo : ∀ e ∈ t, ∀ n, e.event = .tempo n → n ≤ Tempo.greatest := by
    rw [ht]
    refine List.forall_mem_cons.mpr ⟨nofun, List.forall_mem_cons.mpr ⟨fun n hn => ?_,
      List.forall_mem_cons.mpr ⟨nofun, fun e he n hn => absurd hn (ne_tempo_of_mem_eventsFrom e he n)⟩⟩⟩
    obtain rfl := TrackEvent.tempo.inj hn
    omega
  intro e he
  obtain ⟨hdelta, hevent⟩ := hnarrow e he
  refine ⟨hdelta, ?_⟩
  have hn := htempo e he
  cases hcontent : e.event with
  | name name =>
    rw [hcontent] at hevent
    exact hevent
  | tempo n => exact hn n hcontent
  | message | other => trivial

/-! ## Reading -/

/-- A file of one voice is read as its track, if the name of the track is not too long. -/
theorem readFile_of_writeFile (h : IsStatable ticks beat) (hnotes : v.melody.notes ≠ [])
    (htrack : trackOfVoice v index (.whole ticks) beat true = .ok (some t))
    (hwrite : writeFile (.whole ticks) [t] = .ok bytes)
    (hname : (nameOfTrack v index).length ≤ greatestLength) :
    readFile bytes = .ok ⟨ticks, [t ++ [ending]]⟩ := by
  obtain ⟨-, -, htracks⟩ := isOk_writeFile_iff.mp (congrArg Except.isOk hwrite)
  obtain ⟨hevents, hfits⟩ := htracks t (List.mem_singleton_self t)
  have hwritable := isWritable_of_writeFile hnotes htrack hevents
  have hone : [t].length < 32768 := (by decide : 1 < 32768)
  obtain ⟨bytes', hwrite', hread⟩ := readFile_writeFile (Nat.lt_succ_of_le h.resolution_le) hone
    (List.forall_mem_singleton.mpr hwritable)
    (List.forall_mem_singleton.mpr fun body hbody => Nat.lt_succ_of_le (hfits body hbody))
  obtain rfl := Except.ok.inj (hwrite.symm.trans hwrite')
  have hexcess : t.excess? = none := by
    obtain ⟨-, ms, rfl⟩ := exists_of_trackOfVoice_stated hnotes htrack
    rw [Track.excess?, List.findSome?_cons, TrackEvent.excess?, if_neg (Nat.not_lt.mpr hname)]
    exact excess?_eventsFrom ms 0
  rw [hread, List.findSome?_singleton, hexcess]
  rfl

/-- The tempo of a file of one voice holds from the beginning. -/
theorem tempi_of_trackOfVoice (hnotes : v.melody.notes ≠ [])
    (h : trackOfVoice v index resolution tempo true = .ok (some t)) :
    Track.tempi (t ++ [ending]) = [(0, tempo)] := by
  obtain ⟨⟨hlow, -⟩, ms, rfl⟩ := exists_of_trackOfVoice_stated hnotes h
  have hrest : ∀ e ∈ eventsFrom 0 ms ++ [ending], ∀ n, e.event ≠ .tempo n :=
    List.forall_mem_append.mpr ⟨ne_tempo_of_mem_eventsFrom,
      List.forall_mem_singleton.mpr fun n => TrackEvent.noConfusion⟩
  have htempo : (tempo.toNat : ℤ) = tempo := Int.toNat_of_nonneg hlow
  exact (congrArg ((0, (tempo.toNat : ℤ)) :: ·) (tempi_placedFrom_eq_nil hrest 0)).trans (by rw [htempo])

/-- The event that a track ends with makes no note. -/
theorem spans_append_ending (t : Track) : Track.spans (t ++ [ending]) = t.spans := by
  have hstep (p : Pairing) : Pairing.step p ending = p := by
    simp only [Pairing.step, ending, Int.add_zero]
  rw [Track.spans, List.foldl_append, List.foldl_cons, List.foldl_nil, hstep]
  rfl

/-- The number of a note of a score is one that a score can write. -/
theorem exists_representable_of_mem (hparse : Melody.parse text = .ok v.melody)
    (he : e ∈ v.melody.notes) {n : ℤ} (hn : e.noteNumber? = .ok (some n)) :
    ∃ n, e.noteNumber? = .ok (some n) ∧ Pitch.Representable n := by
  obtain ⟨hmem, hplay⟩ := List.mem_filter.mp he
  obtain ⟨token, time, hevent⟩ := Melody.exists_eventOf (Melody.readEvents_of_parse hparse) e hmem
  exact Melody.exists_representable hevent hplay ⟨_, hn⟩

/-- A file of one track, whose notes have ended when others start, has one voice. -/
theorem exists_decode_of_pairwise (h : IsStatable ticks beat) (hf : readFile bytes = .ok f)
    (ht : f.tracks = [t])
    (hm : TempoMap.ofChanges f.resolution t.tempi = .ok (steadyMap ticks beat))
    (hspans : ∀ s ∈ t.spans, s.IsReadable ticks beat)
    (hturn : t.spans.Pairwise fun s s' => s.IsHeard (steadyMap ticks beat) → s.stop ≤ s'.start)
    (hheard : ∃ s ∈ t.spans, s.IsHeard (steadyMap ticks beat)) :
    ∃ d, decode bytes = .ok [d] ∧ performance (steadyMap ticks beat) t = .ok d.notes := by
  have hns := performance_eq h hspans
  -- only notes that are heard are placed in lines
  have hmem : ∀ s ∈ t.spans.filter fun s => s.IsHeard (steadyMap ticks beat),
      s.IsReadable ticks beat ∧ s.IsHeard (steadyMap ticks beat) := by
    intro s hs
    obtain ⟨hs, hheard⟩ := List.mem_filter.mp hs
    exact ⟨hspans s hs, of_decide_eq_true hheard⟩
  have hne : (t.spans.filter fun s => s.IsHeard (steadyMap ticks beat)) ≠ [] := by
    obtain ⟨s, hs, hheard⟩ := hheard
    exact List.ne_nil_of_mem (List.mem_filter.mpr ⟨hs, decide_eq_true hheard⟩)
  have hstops : (t.spans.filter fun s => s.IsHeard (steadyMap ticks beat)).Pairwise
      (·.stop ≤ ·.start) :=
    List.pairwise_filter.mpr (hturn.imp fun hstop hs _ => hstop (of_decide_eq_true hs))
  have hlines := lines_of_pairwise_stop h hmem hstops hne
  obtain ⟨d, gs, ws, hd, -⟩ : ∃ d gs ws, voiceOfLine t 0 _ = .ok d ∧ Performance.Scored _ gs ws _ :=
    exists_voiceOfLine (isRead_of_mem_performance hns)
  refine ⟨d, decode_of_lines hf ht hm hns hlines (mapM_eq_ok_iff.mpr (.cons hd .nil))
    (List.cons_ne_nil _ _), ?_⟩
  rw [hns, notes_of_voiceOfLine hd]

/-- A track with the tempo of a file that is not told otherwise, as it is written for a nameless voice. -/
def namelessTrack (ms : List PlacedMessage) : Track :=
  ⟨0, .name ("Voice ".toList ++ Nat.toDigits 10 1)⟩ :: ⟨0, .tempo defaultTempo⟩ ::
    ⟨0, .message (.program (.ofVoice 0) Instrument.piano.program)⟩ :: eventsFrom 0 ms

/-- The file of one voice, from its messages and their order. -/
theorem encode_of_mergeSort {m : Melody} {velocity : Data} {placed : List (List PlacedMessage)}
    {ms : List PlacedMessage} (hnotes : m.notes ≠ [])
    (hvelocity : writtenVelocity (.ofMelody m) = .ok velocity)
    (hplaced : m.events.mapM (messagesOfEvent (.ofVoice 0) velocity (.whole defaultResolution)
      defaultTempo) = .ok placed)
    (hsorted : placed.flatten.mergeSort (fun a b => ¬ PlacedMessage.Before b a) = ms)
    (hwrite : writeFile (.whole defaultResolution) [namelessTrack ms] = .ok bytes) :
    tracksFrom 0 false (.whole defaultResolution) defaultTempo [.ofMelody m] = .ok [namelessTrack ms] ∧
      encode [.ofMelody m] (.whole defaultBpm) (.whole defaultResolution) = .ok bytes := by
  have hevents : noteEvents (.ofMelody m) 0 (.whole defaultResolution) defaultTempo =
      .ok (eventsFrom 0 ms) := by
    rw [noteEvents, hvelocity, mapError_ok, ok_bind]
    refine (congrArg (· >>= _) hplaced).trans ?_
    rw [ok_bind, hsorted]
    rfl
  have htrack : trackOfVoice (.ofMelody m) 0 (.whole defaultResolution) defaultTempo true =
      .ok (some (namelessTrack ms)) := by
    have hsome : ¬ (Voice.ofMelody m).melody.notes.isEmpty = true := mt List.isEmpty_iff.mp hnotes
    rw [trackOfVoice, if_neg hsome, hevents, ok_bind, nameOfTrack_of_name_eq_nil rfl]
    rfl
  have htracks : tracksFrom 0 false (.whole defaultResolution) defaultTempo [.ofMelody m] =
      .ok [namelessTrack ms] := by
    rw [tracksFrom, Bool.not_false, htrack]
    rfl
  exact ⟨htracks, encode_of_tracksFrom (by decide) (by decide) ofBpm_defaultBpm htracks
    (List.cons_ne_nil _ _) hwrite⟩

/-- The notes of a solo can be read, and start in the order they are written. -/
theorem IsSolo.isReadable (hsolo : IsSolo ticks beat (v, index) t) (h : IsStatable ticks beat)
    (hparse : Melody.parse text = .ok v.melody) :
    (∀ s ∈ t.spans, s.IsReadable ticks beat) ∧ t.spans.Pairwise (·.start ≤ ·.start) := by
  obtain ⟨hafter, hturn⟩ := Melody.inTurn_notes_of_parse hparse
  refine ⟨fun s hs => ?_, (areStaggered_of_spans (Number.whole_pos (Int.natCast_pos.mpr h.resolution_pos))
    (Int.natCast_pos.mpr h.tempo_pos) hsolo.spans hafter hturn).1.starts⟩
  obtain ⟨e, he, hspan⟩ := exists_of_mem_right hsolo.spans s hs
  exact hspan.isReadable h (hafter e he) (exists_representable_of_mem hparse he hspan.note)

/-- A file of one track is read as one voice if no note that is heard shares its tick with the next one,
and refused if none is heard. -/
theorem decode_of_isSolo (h : IsStatable ticks beat) (hsolo : IsSolo ticks beat (v, index) t)
    (hparse : Melody.parse text = .ok v.melody) (hf : readFile bytes = .ok ⟨ticks, [t ++ [ending]]⟩)
    (htempi : Track.tempi (t ++ [ending]) = [(0, (beat : ℤ))])
    (happart : t.spans.IsChain fun s s' => s.IsHeard (steadyMap ticks beat) → s.start < s'.start) :
    ((∃ s ∈ t.spans, s.IsHeard (steadyMap ticks beat)) →
      ∃ d, decode bytes = .ok [d] ∧ performance (steadyMap ticks beat) t = .ok d.notes) ∧
    ((∀ s ∈ t.spans, ¬ s.IsHeard (steadyMap ticks beat)) → decode bytes = .error .noNotes) := by
  obtain ⟨hreadable, hstarts⟩ := hsolo.isReadable h hparse
  have hway := hsolo.givesWay
  have hm : TempoMap.ofChanges ticks (Track.tempi (t ++ [ending])) = .ok (steadyMap ticks beat) := by
    rw [htempi]
    exact ofChanges_steady h
  have hsame : performance (steadyMap ticks beat) (t ++ [ending]) = performance (steadyMap ticks beat) t := by
    rw [performance, spans_append_ending, ← performance]
  rw [← hsame]
  rw [← spans_append_ending t] at hreadable hstarts hway happart ⊢
  refine ⟨exists_decode_of_pairwise h hf rfl hm hreadable (pairwise_of_givesWay hstarts hway happart),
    fun hsilent => decode_of_nil hf rfl hm ?_⟩
  rw [performance_eq h hreadable, List.filter_eq_nil_iff.mpr fun s hs => by simpa using hsilent s hs]
  rfl

/-- **Every track of a file is written with one note at a time.** The notes of a voice that has a track are
its spans, in their order, and each ends by the tick at which the next one starts, unless both start at one
tick; then the first lasts for that tick, which is the least a note can last. A file of one voice with
notes, whose name is not too long, is read as one voice, with the notes that are heard, if none of these
shares its tick with the next note. If no note is heard, the file has none to read. -/
theorem givesWay_of_encode (hparse : ∀ v ∈ voices, ∃ text, Melody.parse text = .ok v.melody)
    (hencode : encode voices bpm resolution = .ok bytes) :
    ∃ (ticks beat : ℕ) (ts : List Track), resolution = .whole ticks ∧ Tempo.ofBpm bpm = .ok (beat : ℤ) ∧
      tracksFrom 0 false resolution beat voices = .ok ts ∧ writeFile resolution ts = .ok bytes ∧
      List.Forall₂ (IsSolo ticks beat) (soundingVoices 0 voices) ts ∧
      ∀ p t, soundingVoices 0 voices = [p] → ts = [t] →
        (nameOfTrack p.1 p.2).length ≤ greatestLength →
        (t.spans.IsChain fun s s' => s.IsHeard (steadyMap ticks beat) → s.start < s'.start) →
        ((∃ s ∈ t.spans, s.IsHeard (steadyMap ticks beat)) →
          ∃ d, decode bytes = .ok [d] ∧ performance (steadyMap ticks beat) t = .ok d.notes) ∧
        ((∀ s ∈ t.spans, ¬ s.IsHeard (steadyMap ticks beat)) → decode bytes = .error .noNotes) := by
  obtain ⟨ticks, beat, ts, rfl, htempo, hstatable, hts, hwrite⟩ := exists_of_encode hparse hencode
  have hsolo : List.Forall₂ (IsSolo ticks beat) (soundingVoices 0 voices) ts := by
    refine ((List.forall₂_and_left _ _).mpr ⟨fun p hp => hp, forall₂_of_tracksFrom hts⟩).imp ?_
    rintro p t ⟨hp, stated, htrack⟩
    obtain ⟨text, hv⟩ := hparse p.1 (mem_of_mem_soundingVoices hp)
    exact isSolo_of_trackOfVoice hstatable hv htrack
  refine ⟨ticks, beat, ts, rfl, htempo, hts, hwrite, hsolo, ?_⟩
  rintro p t hone rfl hname happart
  have hp : p ∈ soundingVoices 0 voices := by rw [hone]; exact List.mem_singleton_self p
  have hnotes := notes_ne_nil_of_mem_soundingVoices hp
  obtain ⟨text, hv⟩ := hparse p.1 (mem_of_mem_soundingVoices hp)
  -- the only track states the tempo, and a file of it is read with a steady map
  obtain ⟨t', rest, hsame, htrack⟩ := exists_stated_of_tracksFrom hts hone
  obtain ⟨rfl, -⟩ := List.cons.inj hsame
  exact decode_of_isSolo hstatable (isSolo_of_trackOfVoice hstatable hv htrack) hv
    (readFile_of_writeFile hstatable hnotes htrack hwrite hname) (tempi_of_trackOfVoice hnotes htrack)
    happart

/-- Three notes of fractions of a millisecond, each at a tick of its own. -/
theorem givesWay_of_encode_brief :
    ∃ m bytes d, Melody.parse "C(1.3) D(1.4) E(0.2)".toList = .ok m ∧
      encode [.ofMelody m] (.whole defaultBpm) (.whole defaultResolution) = .ok bytes ∧
      decode bytes = .ok [d] ∧ d.notes.length = 3 := by
  obtain ⟨m, hm, hnotes, velocity, hvelocity, placed, hplaced, hsorted, bytes, hwrite, happart, hheard, ns,
      hns, hlength⟩ :
      ∃ m, Melody.parse "C(1.3) D(1.4) E(0.2)".toList = .ok m ∧ m.notes ≠ [] ∧
        ∃ velocity, writtenVelocity (.ofMelody m) = .ok velocity ∧
        ∃ placed, m.events.mapM (messagesOfEvent (.ofVoice 0) velocity (.whole defaultResolution)
          defaultTempo) = .ok placed ∧
        (placed.flatten.Pairwise fun a b => ¬ PlacedMessage.Before b a) ∧
        ∃ bytes, writeFile (.whole defaultResolution) [namelessTrack placed.flatten] = .ok bytes ∧
        ((namelessTrack placed.flatten).spans.IsChain fun s s' =>
          s.IsHeard (steadyMap 480 defaultTempo) → s.start < s'.start) ∧
        (∃ s ∈ (namelessTrack placed.flatten).spans, s.IsHeard (steadyMap 480 defaultTempo)) ∧
        ∃ ns, performance (steadyMap 480 defaultTempo) (namelessTrack placed.flatten) = .ok ns ∧
          ns.length = 3 := by
    decide +kernel
  obtain ⟨htracks, hencode⟩ := encode_of_mergeSort hnotes hvelocity hplaced
    (List.mergeSort_of_pairwise (hsorted.imp fun h => decide_eq_true h)) hwrite
  obtain ⟨ticks, beat, ts, hticks, hbeat, htracks', -, -, hdecode⟩ :=
    givesWay_of_encode (List.forall_mem_singleton.mpr ⟨_, hm⟩) hencode
  obtain rfl : 480 = ticks := Int.ofNat.inj (Number.whole.inj hticks)
  obtain rfl : defaultTempo = beat := Int.ofNat.inj (Except.ok.inj (ofBpm_defaultBpm.symm.trans hbeat))
  obtain rfl := Except.ok.inj (htracks.symm.trans htracks')
  have hname : (nameOfTrack (.ofMelody m) 0).length ≤ greatestLength := by
    rw [nameOfTrack_of_name_eq_nil rfl]
    decide
  obtain ⟨hsingle, -⟩ := hdecode _ _ (soundingVoices_cons_of_ne_nil hnotes 0 []) rfl hname happart
  obtain ⟨d, hd, hns'⟩ := hsingle hheard
  obtain rfl := Except.ok.inj (hns.symm.trans hns')
  exact ⟨m, bytes, d, hm, hencode, hd, hlength⟩

/-- A note too short for a tick of its own, and the next one, which starts at the same tick, after they
were sorted. -/
def sharedMessages (c : Channel) (velocity n n' : Data) : List PlacedMessage :=
  [(0, .noteOn c n velocity), (0, .noteOn c n' velocity), (1, .noteOff c n .zero),
    (1000, .noteOff c n' .zero)]

theorem mergeSort_sharedMessages (c : Channel) (velocity n n' : Data) :
    [(0, .noteOn c n velocity), (1, .noteOff c n .zero), (0, .noteOn c n' velocity),
      (1000, .noteOff c n' .zero)].mergeSort (fun a b => ¬ PlacedMessage.Before b a) =
      sharedMessages c velocity n n' := by
  simp [List.mergeSort, PlacedMessage.Before, rank, sharedMessages]

/-- A note may end after the next one has started, and then the voice is read as two. -/
theorem not_stop_le_start_of_encode :
    ∃ m bytes, Melody.parse "C(0.3) D".toList = .ok m ∧ m.isFlawed = false ∧
      (∀ e ∈ m.notes, e.noteNumber?.isOk) ∧
      encode [.ofMelody m] (.whole defaultBpm) (.whole defaultResolution) = .ok bytes ∧
      (∃ t, readFile bytes = .ok ⟨defaultResolution, [t]⟩ ∧
        ¬ t.spans.IsChain fun s s' => s.stop ≤ s'.start) ∧
      ¬ ∃ d, decode bytes = .ok [d] := by
  obtain ⟨m, hm, hsound, hnumbered, hnotes, velocity, hvelocity, hplaced⟩ :
      ∃ m, Melody.parse "C(0.3) D".toList = .ok m ∧ m.isFlawed = false ∧
        (∀ e ∈ m.notes, e.noteNumber?.isOk) ∧ m.notes ≠ [] ∧
        ∃ velocity, writtenVelocity (.ofMelody m) = .ok velocity ∧ velocity = 100 ∧
        m.events.mapM (messagesOfEvent (.ofVoice 0) velocity (.whole defaultResolution) defaultTempo) =
          .ok [[(0, .noteOn (.ofVoice 0) 60 velocity), (1, .noteOff (.ofVoice 0) 60 .zero)],
            [(0, .noteOn (.ofVoice 0) 62 velocity), (1000, .noteOff (.ofVoice 0) 62 .zero)]] := by
    decide +kernel
  obtain ⟨rfl, hplaced⟩ := hplaced
  obtain ⟨bytes, hwrite, hf⟩ : ∃ bytes, writeFile (.whole defaultResolution)
      [namelessTrack (sharedMessages (.ofVoice 0) 100 60 62)] = .ok bytes ∧ readFile bytes =
        .ok ⟨defaultResolution, [namelessTrack (sharedMessages (.ofVoice 0) 100 60 62) ++ [ending]]⟩ := by
    decide +kernel
  obtain ⟨-, hencode⟩ :=
    encode_of_mergeSort hnotes hvelocity hplaced (mergeSort_sharedMessages _ _ _ _) hwrite
  obtain ⟨ns, hns, horder, ls, hls, ds, hds, htwo⟩ :
      ∃ ns, performance (steadyMap 480 defaultTempo)
          (namelessTrack (sharedMessages (.ofVoice 0) 100 60 62) ++ [ending]) = .ok ns ∧
        (ns.Pairwise fun a b => ¬ b.Before a) ∧ ∃ ls, Performance.placeAll ns = .ok ls ∧
          ∃ ds, (ls.map (·.notes)).mapM (voiceOfLine
            (namelessTrack (sharedMessages (.ofVoice 0) 100 60 62) ++ [ending]) 0) = .ok ds ∧
            ds.length = 2 := by
    decide +kernel
  have hdecode : decode bytes = .ok ds := by
    refine decode_of_pairwise hf rfl ?_ hns horder hls hds ?_
    · exact ofChanges_default
    · rintro rfl
      cases htwo
  refine ⟨m, bytes, hm, hsound, hnumbered, hencode, ⟨_, hf, by decide +kernel⟩, ?_⟩
  rintro ⟨d, hd⟩
  rw [Except.ok.inj (hdecode.symm.trans hd)] at htwo
  cases htwo

end Monody.Midi
