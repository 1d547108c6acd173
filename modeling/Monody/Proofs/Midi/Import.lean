import Monody.Midi.Import
import Monody.Proofs.Melody.RoundTrip
import Monody.Proofs.Outcome
import Monody.Proofs.Performance.Score

/-!
# Voices of files

Whatever bytes are read, each of the voices has a score without flaws that says the notes it was
written from: as many of them, with the same note numbers in the same order, and each as long as it
was played, to the nearest millisecond. One note sounds at a time.

## Main definitions

* `DecodedVoice.IsOfTrack` — where a voice comes from
* `DecodedVoice.IsWellFormed` — what a voice that was read has

## Main results

* `exists_isOfTrack` — every voice was read from a track
* `isWellFormed_of_mem_decode` — the voices of a file are well-formed
-/

namespace Monody.Midi

open Binary64 Performance

-- evaluated, the numbers of units are too long to be looked at
attribute [local irreducible] one bound

variable {m : TempoMap} {s : Span} {t : Track} {n : Note} {ns line : List Note} {index : ℕ}
  {d : DecodedVoice} {ds : List DecodedVoice} {bytes : List UInt8}

/-- A note that is read has real times, lasts at least one millisecond and can be written. -/
structure IsRead (n : Note) : Prop where
  times : ∃ x y k, n.start = .real x ∧ n.stop = .real y ∧ Number.roundHalfUp (y - x) = .ok k ∧ 0 < k
  pitch : Pitch.Representable n.pitch

theorem isRead_of_noteOfSpan (h : noteOfSpan m s = .ok (some n)) : IsRead n := by
  obtain ⟨start, -, h⟩ := exists_of_bind_eq_ok h
  obtain ⟨stop, -, h⟩ := exists_of_bind_eq_ok h
  obtain ⟨length, hlength, h⟩ := exists_of_bind_eq_ok h
  split at h
  · cases h
  · next hkept =>
    obtain rfl := Option.some.inj (Except.ok.inj h)
    rw [not_or, not_not] at hkept
    exact ⟨⟨start, stop, length, rfl, rfl, hlength, Int.not_le.mp hkept.1⟩, hkept.2⟩

theorem IsRead.isUsable (h : IsRead n) : n.IsUsable := by
  obtain ⟨x, y, k, hstart, hstop, hlength, hpos⟩ := h.times
  refine ⟨⟨x, hstart, ?_⟩, ⟨k, ?_, hpos⟩, h.pitch⟩
  · -- the length of a note with such a start would not be a number
    rintro rfl
    cases y <;> cases hlength
  · rw [Note.length, Note.duration, hstart, hstop]
    exact hlength

theorem isRead_of_mem_performance (h : performance m t = .ok ns) : ∀ n ∈ ns, IsRead n := by
  obtain ⟨notes, hnotes, h⟩ := exists_of_bind_eq_ok h
  obtain rfl := Except.ok.inj h
  intro n hn
  obtain ⟨note, hnote, heq⟩ := List.mem_filterMap.mp hn
  obtain rfl : note = some n := heq
  obtain ⟨s, -, hs⟩ := exists_of_mem_mapM hnotes _ hnote
  exact isRead_of_noteOfSpan hs

theorem notes_of_voiceOfLine (h : voiceOfLine t index line = .ok d) : d.notes = line := by
  obtain ⟨_, -, h⟩ := exists_of_bind_eq_ok h
  obtain ⟨_, -, h⟩ := exists_of_bind_eq_ok h
  obtain rfl := Except.ok.inj h
  rfl

/-- A voice that was read from a track: its name and instrument, and its score with the pauses and the
tokens of it, which say the notes of a line. -/
structure DecodedVoice.IsOfTrack (d : DecodedVoice) (t : Track) (gs : List ℕ)
    (ws : List (List Char)) : Prop where
  name : d.name = t.title
  instrument : d.instrument = t.instrument
  parsed : Melody.parse d.melody.text = .ok d.melody
  text : d.melody.text = Melody.joinTokens ws
  tokens : ∀ w ∈ ws, Melody.IsEventText w
  scored : Scored d.notes gs ws d.melody.events
  read : ∀ n ∈ d.notes, IsRead n
  nonempty : d.notes ≠ []
  inOrder : d.notes.Pairwise fun a b => a.start ≤ b.start
  apart : d.notes.IsChain fun a b => b.Follows a

theorem exists_isOfTrack_of_voiceOfLine {ls : List (List Note)} (hns : ∀ n ∈ ns, IsRead n)
    (hls : lines ns = .ok ls) (hline : line ∈ ls) (h : voiceOfLine t index line = .ok d) :
    ∃ gs ws, d.IsOfTrack t gs ws := by
  obtain ⟨text, htext, h⟩ := exists_of_bind_eq_ok h
  obtain ⟨melody, hmelody, h⟩ := exists_of_bind_eq_ok h
  obtain rfl := Except.ok.inj h
  obtain ⟨hmem, hne, hinorder, hapart⟩ :=
    mem_lines hls (fun n hn => (hns n hn).isUsable.timed) hline
  have hread : ∀ n ∈ line, IsRead n := fun n hn => hns n (hmem n hn)
  obtain ⟨m, gs, ws, hparse, hsame, hjoin, htokens, hscored⟩ :=
    exists_scored_of_score (fun n hn => (hread n hn).isUsable.isWritable) (mapError_eq_ok_iff.mp htext)
  obtain rfl : melody = m :=
    Except.ok.inj ((mapError_eq_ok_iff.mp hmelody).symm.trans hparse)
  refine ⟨gs, ws, rfl, rfl, ?_, hsame.trans hjoin, htokens, hscored, hread, hne, hinorder, hapart⟩
  rw [hsame]
  exact hparse

/-- Every voice of a file was read from one of its tracks. -/
theorem exists_isOfTrack (h : decode bytes = .ok ds) (hd : d ∈ ds) :
    ∃ f t gs ws, readFile bytes = .ok f ∧ t ∈ f.tracks ∧ d.IsOfTrack t gs ws := by
  obtain ⟨f, hf, h⟩ := exists_of_bind_eq_ok h
  obtain ⟨m, -, h⟩ := exists_of_bind_eq_ok h
  obtain ⟨voices, hvoices, h⟩ := exists_of_bind_eq_ok h
  obtain ⟨-, -, h⟩ := exists_of_bind_eq_ok h
  obtain rfl := Except.ok.inj h
  obtain ⟨vs, hvs, hd⟩ := List.mem_flatten.mp hd
  obtain ⟨⟨t, index⟩, ht, htrack⟩ := exists_of_mem_mapM hvoices _ hvs
  rw [voicesOfTrack] at htrack
  split at htrack
  · -- a track whose times have no result has no voice
    obtain rfl := Except.ok.inj htrack
    exact absurd hd List.not_mem_nil
  · next ns hns =>
    obtain ⟨ls, hls, htrack⟩ := exists_of_bind_eq_ok htrack
    obtain ⟨line, hline, hvoice⟩ := exists_of_mem_mapM htrack _ hd
    obtain ⟨gs, ws, hvoice⟩ := exists_isOfTrack_of_voiceOfLine (isRead_of_mem_performance hns)
      (mapError_eq_ok_iff.mp hls) hline hvoice
    exact ⟨f, t, gs, ws, mapError_eq_ok_iff.mp hf, List.fst_mem_of_mem_zipIdx ht, hvoice⟩

/-! ## Well-formed voices -/

/-- An event that says a note: it has the number of the note, which a score can write, and exactly the
length of the note, to the nearest millisecond, which is at least one. -/
structure Says (n : Note) (e : Melody.Event) : Prop where
  number : e.noteNumber? = .ok (some n.pitch)
  low : 12 ≤ n.pitch
  high : n.pitch ≤ 119
  duration : ∃ x y k, n.start = .real x ∧ n.stop = .real y ∧ Number.roundHalfUp (y - x) = .ok k ∧
    1 ≤ k ∧ Number.ofReal e.duration = .whole k

theorem says_of_isPlayed {w : List Char} {e : Melody.Event} (hread : IsRead n)
    (h : n.IsPlayed w e) : Says n e := by
  obtain ⟨x, y, k, hstart, hstop, hround, hpos⟩ := hread.times
  obtain ⟨k', hlength, hfits, hreading⟩ := h.reading
  have hlength' : n.length = .ok k := by
    rw [Note.length, Note.duration, hstart, hstop]
    exact hround
  obtain rfl : k = k' := Except.ok.inj (hlength'.symm.trans hlength)
  refine ⟨h.number, h.pitch.1, h.pitch.2, x, y, k', hstart, hstop, hround, hpos, ?_⟩
  rw [hreading.duration, Melody.ofReal_ofInt hfits]

/-- What a voice that was read has: a score that is read without flaws and is as short as it can be
written, whose notes say the notes it was written from, and of these at least one, in the order of
their starts, each of which ends at most half a millisecond after the next one starts. -/
structure DecodedVoice.IsWellFormed (d : DecodedVoice) : Prop where
  parsed : Melody.parse d.melody.text = .ok d.melody
  sound : d.melody.isFlawed = false
  canonical : Melody.serialize d.melody.events = .ok d.melody.text
  said : List.Forall₂ Says d.notes d.melody.notes
  inOrder : d.notes.Pairwise fun a b => a.start ≤ b.start
  apart : d.notes.IsChain fun a b => b.Follows a
  nonempty : d.notes ≠ []

/-- **The voices of a file are well-formed**, whatever its bytes are, if their notes start in the first
`2 ^ 53` milliseconds. -/
theorem isWellFormed_of_mem_decode (h : decode bytes = .ok ds) (hd : d ∈ ds)
    (hearly : ∀ n ∈ d.notes, n.start < .whole (2 ^ 53)) : d.IsWellFormed := by
  obtain ⟨f, t, gs, ws, -, -, hd⟩ := exists_isOfTrack h hd
  -- the bound is on when notes start, and what is written of them fits by that
  have hfits := hd.scored.fits_of_start_lt (fun n hn => (hd.read n hn).isUsable.timed) hearly
  refine ⟨hd.parsed, Melody.isFlawed_eq_false_iff.mpr hd.scored.sound, ?_, ?_, hd.inOrder, hd.apart,
    hd.nonempty⟩
  · rw [Melody.serialize, hd.scored.mapM_formatEvent hfits, hd.text]
    rfl
  · refine ((List.forall₂_and_left _ _).mpr ⟨hd.read, hd.scored.forall₂_notes⟩).imp ?_
    rintro n e ⟨hread, w, hplayed⟩
    exact says_of_isPlayed hread hplayed

/-- The voices of the bytes of one track are those of the track, if there are any. -/
theorem decode_of_voicesOfTrack {f : File} (hf : readFile bytes = .ok f) (ht : f.tracks = [t])
    (hm : TempoMap.ofChanges f.resolution t.tempi = .ok m) (htrack : voicesOfTrack m t 0 = .ok ds) :
    decode bytes = if ds = [] then .error .noNotes else .ok ds := by
  have htempi : f.tracks.flatMap Track.tempi = t.tempi := by rw [ht, List.flatMap_singleton]
  have hmap : f.tracks.zipIdx.mapM (fun p => voicesOfTrack m p.1 p.2) = .ok [ds] := by
    rw [ht]
    exact mapM_eq_ok_iff.mpr (.cons htrack .nil)
  rw [decode, hf, mapError_ok, ok_bind, voicesOfFile, htempi, hm, mapError_ok, ok_bind, hmap, ok_bind,
    List.flatten_singleton, require]
  by_cases hne : ds = []
  · rw [if_pos hne, if_neg (not_not.mpr hne)]
    rfl
  · rw [if_neg hne, if_pos hne]
    rfl

/-- The voices of the bytes of one track are those of its lines. -/
theorem decode_of_lines {f : File} {ls : List (List Note)} (hf : readFile bytes = .ok f)
    (ht : f.tracks = [t]) (hm : TempoMap.ofChanges f.resolution t.tempi = .ok m)
    (hns : performance m t = .ok ns) (hls : lines ns = .ok ls)
    (hds : ls.mapM (voiceOfLine t 0) = .ok ds) (hne : ds ≠ []) : decode bytes = .ok ds := by
  have htrack : voicesOfTrack m t 0 = .ok ds := by
    rw [voicesOfTrack, hns]
    dsimp only
    rw [hls]
    exact hds
  rw [decode_of_voicesOfTrack hf ht hm htrack, if_neg hne]

/-- The bytes of one track without a usable note have no voices. -/
theorem decode_of_nil {f : File} (hf : readFile bytes = .ok f) (ht : f.tracks = [t])
    (hm : TempoMap.ofChanges f.resolution t.tempi = .ok m) (hns : performance m t = .ok []) :
    decode bytes = .error .noNotes := by
  have htrack : voicesOfTrack m t 0 = .ok [] := by
    rw [voicesOfTrack, hns]
    dsimp only
    rw [lines_of_pairwise .nil]
    rfl
  rw [decode_of_voicesOfTrack hf ht hm htrack, if_pos rfl]

/-- The voices of the bytes of one track, whose notes come in order. -/
theorem decode_of_pairwise {f : File} {ls : List OpenLine} (hf : readFile bytes = .ok f)
    (ht : f.tracks = [t]) (hm : TempoMap.ofChanges f.resolution t.tempi = .ok m)
    (hns : performance m t = .ok ns) (horder : ns.Pairwise fun a b => ¬ b.Before a)
    (hls : placeAll ns = .ok ls) (hds : (ls.map (·.notes)).mapM (voiceOfLine t 0) = .ok ds)
    (hne : ds ≠ []) : decode bytes = .ok ds := by
  refine decode_of_lines hf ht hm hns ?_ hds hne
  rw [lines_of_pairwise horder, hls]
  rfl

/-- The bytes of one track: two notes struck together, a third too low for a score, and after a gap a
fourth. -/
def chordBytes : List UInt8 :=
  [0x4d, 0x54, 0x68, 0x64, 0, 0, 0, 6, 0, 0, 0, 1, 1, 0xe0, 0x4d, 0x54, 0x72, 0x6b, 0, 0, 0, 39,
    0, 0x90, 0x3c, 0x40, 0, 0x90, 0x40, 0x40, 0, 0x90, 5, 0x40, 0x83, 0x60, 0x80, 0x3c, 0,
    0, 0x80, 0x40, 0, 0, 0x80, 5, 0, 0x81, 0x70, 0x90, 0x43, 0x40, 0x83, 0x60, 0x80, 0x43, 0,
    0, 0xff, 0x2f, 0]

-- the instance that decides all of it at once is a large one
set_option synthInstance.maxSize 1024 in
/-- The chord is read as two voices. -/
theorem exists_decode_chordBytes : ∃ ds, decode chordBytes = .ok ds ∧
    ds.map (fun d => String.ofList d.melody.text) = ["C(500) P(250) G(500)", "E(500)"] ∧
    ∀ d ∈ ds, (∀ n ∈ d.notes, n.start < .whole (2 ^ 53)) ∧
      Number.real d.melody.total ≤ .whole (10 ^ 9) ∧ d.notes.length ≤ 2 := by
  obtain ⟨f, hf, m, hm, hone, htrack⟩ : ∃ f, readFile chordBytes = .ok f ∧
      ∃ m, TempoMap.ofChanges f.resolution (f.tracks.flatMap Track.tempi) = .ok m ∧
        f.tracks.length = 1 ∧ ∀ t ∈ f.tracks, ∃ ns, performance m t = .ok ns ∧
          (ns.Pairwise fun a b => ¬ b.Before a) ∧ ∃ ls, placeAll ns = .ok ls ∧
            ∃ ds, (ls.map (·.notes)).mapM (voiceOfLine t 0) = .ok ds ∧
              ds.map (fun d => String.ofList d.melody.text) =
                ["C(500) P(250) G(500)", "E(500)"] ∧
              ∀ d ∈ ds, (∀ n ∈ d.notes, n.start < .whole (2 ^ 53)) ∧
                Number.real d.melody.total ≤ .whole (10 ^ 9) ∧ d.notes.length ≤ 2 := by
    decide +kernel
  obtain ⟨t, ht⟩ := List.length_eq_one_iff.mp hone
  obtain ⟨ns, hns, horder, ls, hls, ds, hds, htexts, hrest⟩ :=
    htrack t (ht ▸ List.mem_singleton_self t)
  rw [ht, List.flatMap_singleton] at hm
  have hne : ds ≠ [] := by
    rintro rfl
    cases htexts
  exact ⟨ds, decode_of_pairwise hf ht hm hns horder hls hds hne, htexts, hrest⟩

theorem isWellFormed_of_mem_decode_chord :
    ∃ ds, decode chordBytes = .ok ds ∧ ds.length = 2 ∧ ∀ d ∈ ds, d.IsWellFormed := by
  obtain ⟨ds, hds, htexts, hrest⟩ := exists_decode_chordBytes
  have hlength : ds.length = 2 := by
    rw [← List.length_map fun d : DecodedVoice => String.ofList d.melody.text, htexts]
    rfl
  exact ⟨ds, hds, hlength, fun d hd => isWellFormed_of_mem_decode hds hd (hrest d hd).1⟩

end Monody.Midi
