import Mathlib.Tactic.Ring
import Monody.Proofs.Midi.Library.Bytes
import Monody.Proofs.Outcome

/-!
# Files that read back

Every event of a track is read as it was written, also where its status byte was left out: the reader
remembers at least the status byte that the writer leaves out. The event that ends a track is read as
one more event that makes no melody. A name of any length is written, but the reader refuses a file
with one that is too long.

## Main definitions

* `TrackEvent.IsWritable` — an event whose data fits
* `Track.IsWritable` — a track of such events, none before the one it follows
* `Track.excess?` — the first name that is too long, by its length

## Main results

* `readEvent_eventBytes` — an event is read back
* `readEvents_writeEvents` — a track is read back
* `readFile_writeFile` — a file is read back
-/

namespace Monody.Midi

variable {n delta : ℕ} {bytes rest : List UInt8} {event : TrackEvent} {t : Track}
  {written known : Option UInt8}

/-! ## Messages -/

theorem toNat_statusByte {kind : ℕ} (hkind : kind < 16) (c : Channel) :
    (Message.statusByte kind c).toNat = 16 * kind + c.val := by
  rw [Message.statusByte, UInt8.toNat_ofNat']
  omega

theorem toNat_dataByte (d : Data) : (Message.dataByte d).toNat = d.val := by
  rw [Message.dataByte, UInt8.toNat_ofNat']
  omega

theorem lowBits_dataByte (d : Data) : lowBits (Message.dataByte d) = d := by
  have hmod : (Message.dataByte d).toNat % 128 = d.val := by
    rw [toNat_dataByte]
    exact Nat.mod_eq_of_lt d.isLt
  exact Fin.ext hmod

/-- The status byte of a message is one that may be left out, and its data has low bytes only. -/
theorem Message.status_bounds (m : Message) : 128 ≤ m.status.toNat ∧ m.status.toNat < 208 := by
  cases m <;> simp only [Message.status] <;> rw [toNat_statusByte (by decide)] <;> omega

theorem Message.data_lt (m : Message) : ∀ b ∈ m.data, b.toNat < 128 := by
  intro b hb
  have hdata : ∃ d : Data, b = Message.dataByte d := by
    cases m <;> simp only [Message.data, List.mem_cons, List.not_mem_nil, or_false] at hb <;>
      grind
  obtain ⟨d, rfl⟩ := hdata
  rw [toNat_dataByte]
  exact d.isLt

theorem dataCount_status (m : Message) : dataCount m.status = .ok m.data.length := by
  have htwo {b : UInt8} (h : b.toNat < 192) : dataCount b = .ok 2 :=
    if_pos (UInt8.lt_iff_toNat_lt.mpr h)
  have hone {b : UInt8} (hlow : 192 ≤ b.toNat) (hhigh : b.toNat < 224) : dataCount b = .ok 1 := by
    rw [dataCount, if_neg, if_pos (UInt8.lt_iff_toNat_lt.mpr hhigh)]
    exact fun h => absurd (UInt8.lt_iff_toNat_lt.mp h) (Nat.not_lt.mpr hlow)
  cases m with
  | program c p =>
    have hstatus := toNat_statusByte (by decide : 12 < 16) c
    exact hone (by rw [Message.status, hstatus]; omega) (by rw [Message.status, hstatus]; omega)
  | noteOff c =>
    exact htwo (by rw [Message.status, toNat_statusByte (by decide)]; omega)
  | noteOn c =>
    exact htwo (by rw [Message.status, toNat_statusByte (by decide)]; omega)
  | control c =>
    exact htwo (by rw [Message.status, toNat_statusByte (by decide)]; omega)

/-- The data of a message behind its status byte is the message. -/
theorem eventOfData_status (m : Message) : eventOfData m.status m.data = .message m := by
  have hchannel {kind : ℕ} (hkind : kind < 16) (c : Channel) :
      statusChannel (Message.statusByte kind c) = c := by
    have hmod : (Message.statusByte kind c).toNat % 16 = c.val := by
      rw [toNat_statusByte hkind]
      omega
    exact Fin.ext hmod
  have hkind {kind : ℕ} (hkind : kind < 16) (c : Channel) :
      (Message.statusByte kind c).toNat / 16 = kind := by
    rw [toNat_statusByte hkind]
    omega
  cases m <;>
    simp [eventOfData, Message.status, Message.data, hkind, hchannel, lowBits_dataByte]

/-- A message is read after its status byte, and also if its first data byte was read in the place
of the status byte. -/
theorem readMessage_append (m : Message) {first : Option UInt8} {data : List UInt8}
    (h : first.toList ++ data = m.data) :
    readMessage m.status first (data ++ rest) = .ok (.message m, rest) := by
  have hlength : m.data.length - first.toList.length = data.length := by
    rw [← h, List.length_append, Nat.add_sub_cancel_left]
  have hpos : m.data.length ≠ 0 ∧ m.data.length ≤ 2 := by
    cases m <;> simp [Message.data]
  have hsome : require (m.data.length ≠ 0 ∨ first = none)
      (ReadFault.strayData (emptyMessageName m.status)) = .ok () := if_pos (.inl hpos.1)
  have hread : readBytes data.length (data ++ rest) = .ok (data, rest) :=
    readBytes_append (by rw [greatestLength]; omega)
  have hlow : requireLow m.data = .ok () :=
    if_pos (List.all_eq_true.mpr fun b hb => decide_eq_true (UInt8.lt_iff_toNat_lt.mpr (m.data_lt b hb)))
  rw [readMessage, dataCount_status, ok_bind, hsome, ok_bind, hlength, hread, ok_bind]
  simp only [h, hlow, ok_bind, eventOfData_status]
  rfl

theorem readBody_append (m : Message) (delta : ℕ) {first : Option UInt8} {data : List UInt8}
    (h : first.toList ++ data = m.data) :
    readBody delta m.status first (data ++ rest) =
      .ok ⟨⟨delta, .message m⟩, some m.status, rest⟩ := by
  have hbound := m.status_bounds.2
  have hplain : ¬ (m.status = 0xf0 ∨ m.status = 0xf7) := by
    rintro (heq | heq) <;> rw [heq] at hbound <;> exact absurd hbound (by decide)
  rw [readBody, if_neg hplain, readMessage_append m h]
  rfl

/-! ## Events -/

/-- Names have narrow characters, and tempi have three bytes. -/
def TrackEvent.IsWritable : TrackEvent → Prop
  | .name text => ∀ c ∈ text, isNarrow c
  | .tempo microseconds => microseconds ≤ Tempo.greatest
  | _ => True

/-- The length of a name that is too long to be read. -/
def TrackEvent.excess? : TrackEvent → Option ℕ
  | .name text => if greatestLength < text.length then some text.length else none
  | _ => none

/-- What is read, unless there are data that are too long. -/
def orTooLong {α : Type} (excess : Option ℕ) (a : α) : Except ReadFault α :=
  match excess with
  | none => .ok a
  | some n => .error (.tooLong n)

/-- A meta event is read where its kind and its data are known to be an event. -/
theorem readEvent_metaBytes {kind : UInt8} {data : List UInt8} (hlength : data.length ≤ greatestLength)
    (hevent : metaEvent? kind data = some (.ok event)) :
    readEvent known (writeQuantity delta ++ metaBytes kind data ++ rest) =
      .ok ⟨⟨delta, event⟩, known, rest⟩ := by
  rw [readEvent, List.append_assoc, readQuantity_writeQuantity]
  simp only [metaBytes, List.cons_append, if_true, readMeta, readBlock_append hlength, ok_bind,
    hevent]
  rfl

theorem readEvent_metaBytes_of_tooLong {kind : UInt8} {data : List UInt8}
    (hlength : greatestLength < data.length) :
    readEvent known (writeQuantity delta ++ metaBytes kind data ++ rest) =
      .error (.tooLong data.length) := by
  rw [readEvent, List.append_assoc, readQuantity_writeQuantity]
  simp only [metaBytes, List.cons_append, if_true, readMeta, List.append_assoc,
    readBlock_of_tooLong hlength]
  rfl

theorem metaEvent?_tempo {n : ℕ} (h : n ≤ Tempo.greatest) :
    metaEvent? 0x51 (bigEndianBytes 3 n) = some (.ok (.tempo n)) := by
  have hbytes : bigEndianBytes 3 n = [.ofNat (n / 256 / 256), .ofNat (n / 256), .ofNat n] := rfl
  have hvalue : 65536 * (UInt8.ofNat (n / 256 / 256)).toNat + 256 * (UInt8.ofNat (n / 256)).toNat +
      (UInt8.ofNat n).toNat = n := by
    simp only [UInt8.toNat_ofNat']
    rw [Tempo.greatest] at h
    omega
  rw [hbytes]
  exact congrArg (fun n => some (Except.ok (TrackEvent.tempo n))) hvalue

/-- A message is read behind its status byte. -/
theorem readEvent_messageBytes (m : Message) :
    readEvent known (writeQuantity delta ++ m.bytes ++ rest) =
      .ok ⟨⟨delta, .message m⟩, some m.status, rest⟩ := by
  obtain ⟨hlow, hhigh⟩ := m.status_bounds
  have hmeta : m.status ≠ 0xff := by
    intro heq
    rw [heq] at hhigh
    exact absurd hhigh (by decide)
  have hstatus : 128 ≤ m.status := UInt8.le_iff_toNat_le.mpr hlow
  rw [readEvent, List.append_assoc, readQuantity_writeQuantity]
  simp only [Message.bytes, List.cons_append, if_neg hmeta, if_pos hstatus]
  exact readBody_append m delta (List.nil_append _)

/-- A message is read without its status byte where the reader knows it: the first data byte stands in
its place. -/
theorem readEvent_runningBytes {m : Message} (hknown : known = some m.status) :
    readEvent known (writeQuantity delta ++ m.data ++ rest) =
      .ok ⟨⟨delta, .message m⟩, some m.status, rest⟩ := by
  obtain ⟨b, data, hdata⟩ : ∃ b data, m.data = b :: data := by
    cases m <;> exact ⟨_, _, rfl⟩
  have hb := m.data_lt b (hdata ▸ List.mem_cons_self)
  have hmeta : b ≠ 0xff := by
    rintro rfl
    exact absurd hb (by decide)
  have hstatus : ¬ 128 ≤ b := fun hle => absurd (UInt8.le_iff_toNat_le.mp hle) (Nat.not_le.mpr hb)
  rw [readEvent, List.append_assoc, readQuantity_writeQuantity, hdata]
  simp only [List.cons_append, if_neg hmeta, if_neg hstatus, hknown]
  exact readBody_append m delta hdata.symm

/-- A name of narrow characters is read, unless it is too long. -/
theorem readEvent_nameBytes {text : List Char} (h : ∀ c ∈ text, isNarrow c) :
    readEvent known (writeQuantity delta ++ metaBytes 0x03 (text.map fun c => .ofNat c.toNat) ++ rest) =
      orTooLong (TrackEvent.name text).excess? ⟨⟨delta, .name text⟩, known, rest⟩ := by
  have hlength : (text.map fun c => UInt8.ofNat c.toNat).length = text.length := List.length_map _
  rw [TrackEvent.excess?]
  split
  · next hlong =>
    rw [readEvent_metaBytes_of_tooLong (hlength ▸ hlong), hlength]
    rfl
  · next hshort =>
    refine readEvent_metaBytes (hlength ▸ Nat.not_lt.mp hshort) ?_
    exact congrArg (fun text => some (Except.ok (TrackEvent.name text))) (latinText_map h)

/-- An event that is written is read back whatever follows it, if it is not too long and the reader
knows the status byte that the writer may leave out. It then knows the one that the writer may leave
out next. -/
theorem readEvent_eventBytes (h : event.IsWritable) (hknown : ∀ s, written = some s → known = some s) :
    ∃ bytes written' known', eventBytes written event = .ok (bytes, written') ∧
      (∀ (delta : ℕ) rest, readEvent known (writeQuantity delta ++ bytes ++ rest) =
        orTooLong event.excess? ⟨⟨delta, event⟩, known', rest⟩) ∧
      ∀ s, written' = some s → known' = some s := by
  cases event with
  | message m =>
    by_cases hsame : written = some m.status
    · refine ⟨m.data, some m.status, some m.status, ?_, fun _ _ => ?_, fun _ hs => hs⟩
      · rw [eventBytes, if_pos hsame]
      · exact readEvent_runningBytes (hknown _ hsame)
    · refine ⟨m.bytes, some m.status, some m.status, ?_, fun _ _ => ?_, fun _ hs => hs⟩
      · rw [eventBytes, if_neg hsame]
      · exact readEvent_messageBytes m
  -- after a meta event the writer leaves nothing out, and the reader forgets nothing
  | name text =>
    refine ⟨_, none, known, ?_, fun _ _ => readEvent_nameBytes h, nofun⟩
    rw [eventBytes, nameBytes_of_isNarrow h]
    rfl
  | tempo microseconds =>
    refine ⟨_, none, known, rfl, fun _ _ => ?_, nofun⟩
    exact readEvent_metaBytes (by rw [length_bigEndianBytes]; decide) (metaEvent?_tempo h)
  | other =>
    exact ⟨_, none, known, rfl, fun _ _ => readEvent_metaBytes (Nat.zero_le _) rfl, nofun⟩

/-! ## Tracks -/

/-- The events of a track that can be written and read. -/
def Track.IsWritable (t : Track) : Prop := ∀ e ∈ t, 0 ≤ e.delta ∧ e.event.IsWritable

/-- The event that a track ends with, as it is read. -/
def ending : TimedEvent := ⟨0, .other⟩

/-- The length of the first name of a track that is too long to be read. -/
def Track.excess? (t : Track) : Option ℕ := t.findSome? fun e => e.event.excess?

theorem readEvents_cons {stop : ℤ} {e : ReadEvent} (hstop : (bytes.length : ℤ) ≠ stop)
    (h : readEvent known bytes = .ok e) :
    readEvents stop known bytes = (do
      let (track, rest) ← readEvents stop e.status e.rest
      return (e.event :: track, rest)) := by
  rw [readEvents, if_neg hstop]
  split
  · next heq => rw [h] at heq; cases heq
  · next heq =>
    obtain rfl := Except.ok.inj (h.symm.trans heq)
    rfl

theorem readEvents_error {stop : ℤ} {fault : ReadFault} (hstop : (bytes.length : ℤ) ≠ stop)
    (h : readEvent known bytes = .error fault) : readEvents stop known bytes = .error fault := by
  rw [readEvents, if_neg hstop]
  split
  · next heq =>
    obtain rfl := Except.error.inj (h.symm.trans heq)
    rfl
  · next heq => rw [h] at heq; cases heq

theorem endOfTrack_eq : endOfTrack = writeQuantity 0 ++ metaBytes 0x2f [] := by
  simp [endOfTrack, writeQuantity, leadingGroups]

theorem length_lt_of_eventBytes (n : ℕ) (bytes rest : List UInt8) :
    rest.length < (writeQuantity n ++ bytes ++ rest).length := by
  have hpos : 0 < (writeQuantity n).length := by simp [writeQuantity]
  simp only [List.length_append]
  omega

/-- A track is written, and read back up to where its chunk ends, if no name is too long. -/
theorem readEvents_writeEvents (h : t.IsWritable) (hknown : ∀ s, written = some s → known = some s) :
    ∃ bytes, writeEvents written t = .ok bytes ∧ ∀ rest : List UInt8,
      readEvents rest.length known (bytes ++ rest) = orTooLong t.excess? (t ++ [ending], rest) := by
  induction t generalizing written known with
  | nil =>
    refine ⟨endOfTrack, rfl, fun rest => ?_⟩
    rw [endOfTrack_eq]
    have hread : readEvent known (writeQuantity 0 ++ metaBytes 0x2f [] ++ rest) =
        .ok ⟨ending, known, rest⟩ := readEvent_metaBytes (Nat.zero_le _) rfl
    have hstop : ((writeQuantity 0 ++ metaBytes 0x2f [] ++ rest).length : ℤ) ≠ rest.length := by
      exact_mod_cast (length_lt_of_eventBytes 0 (metaBytes 0x2f []) rest).ne'
    rw [readEvents_cons hstop hread, readEvents, if_pos rfl]
    rfl
  | cons e t ih =>
    obtain ⟨⟨hdelta, hevent⟩, ht⟩ := List.forall_mem_cons.mp h
    obtain ⟨delta, hdelta'⟩ := Int.eq_ofNat_of_zero_le hdelta
    obtain ⟨bytes, written', known', hbytes, hread, hknown'⟩ := readEvent_eventBytes hevent hknown
    obtain ⟨bytes', hbytes', hread'⟩ := ih ht hknown'
    refine ⟨writeQuantity delta ++ bytes ++ bytes', ?_, fun rest => ?_⟩
    · rw [writeEvents, require, if_pos hdelta, hdelta', ok_bind, hbytes]
      simp only [ok_bind, hbytes']
      rfl
    -- there is something left to read, so the reader goes on
    · have hstop : ((writeQuantity delta ++ bytes ++ bytes' ++ rest).length : ℤ) ≠ rest.length := by
        have hlt := length_lt_of_eventBytes delta bytes (bytes' ++ rest)
        simp only [List.length_append] at hlt ⊢
        omega
      have hread'' : readEvent known (writeQuantity delta ++ bytes ++ bytes' ++ rest) =
          orTooLong e.event.excess? ⟨e, known', bytes' ++ rest⟩ := by
        rw [List.append_assoc, hread, ← hdelta']
      rw [Track.excess?, List.findSome?_cons]
      cases hexcess : e.event.excess? with
      | some n =>
        rw [hexcess] at hread''
        exact readEvents_error hstop hread''
      | none =>
        rw [hexcess] at hread''
        rw [readEvents_cons hstop hread'']
        simp only [hread' rest, Track.excess?]
        cases t.findSome? fun e => e.event.excess? <;> rfl

/-- A track is written as a chunk if its data is not too long, and that is read back. -/
theorem readTrack_writeTrack (h : t.IsWritable)
    (hsize : ∀ body, writeEvents none t = .ok body → body.length < 2 ^ 32) :
    ∃ bytes, writeTrack t = .ok bytes ∧
      ∀ rest, readTrack (bytes ++ rest) = orTooLong t.excess? (t ++ [ending], rest) := by
  obtain ⟨body, hbody, hread⟩ := readEvents_writeEvents h fun s (hs : none = some s) => hs
  have hlength : body.length < 256 ^ 4 := by
    have hlt := hsize body hbody
    omega
  have hshort : body.length ≤ greatestChunk := Nat.le_of_lt_succ hlength
  refine ⟨chunk trackName body, ?_, fun rest => ?_⟩
  · rw [writeTrack, hbody, ok_bind, require_eq_ok_iff.mpr hshort]
    rfl
  · have hstop : ((body ++ rest).length : ℤ) - body.length = rest.length := by
      rw [List.length_append]
      omega
    rw [readTrack, readChunk_chunk rfl hlength]
    simp only [ok_bind, require, if_true, hstop, hread]

theorem readTracks_writeTracks {ts : List Track} (h : ∀ t ∈ ts, t.IsWritable)
    (hsize : ∀ t ∈ ts, ∀ body, writeEvents none t = .ok body → body.length < 2 ^ 32) :
    ∃ chunks, ts.mapM writeTrack = .ok chunks ∧
      readTracks ts.length chunks.flatten =
        orTooLong (ts.findSome? Track.excess?) (ts.map (· ++ [ending])) := by
  induction ts with
  | nil => exact ⟨[], rfl, rfl⟩
  | cons t ts ih =>
    obtain ⟨ht, hts⟩ := List.forall_mem_cons.mp h
    obtain ⟨hsizet, hsizes⟩ := List.forall_mem_cons.mp hsize
    obtain ⟨bytes, hbytes, hread⟩ := readTrack_writeTrack ht hsizet
    obtain ⟨chunks, hchunks, hreads⟩ := ih hts hsizes
    refine ⟨bytes :: chunks, ?_, ?_⟩
    · rw [List.mapM_cons, hbytes, ok_bind, hchunks]
      rfl
    · rw [List.length_cons, readTracks, List.flatten_cons, hread, List.findSome?_cons]
      -- the first track with a name that is too long is where the reading stops
      cases t.excess? with
      | some n => rfl
      | none =>
        simp only [orTooLong, ok_bind, hreads]
        cases ts.findSome? Track.excess? <;> rfl

/-! ## Files -/

theorem headerNumber_natCast {n : ℕ} (h : n < 32768) :
    headerNumber (.whole n) = .ok (bigEndianBytes 2 n) := by
  have hrange : -32768 ≤ (n : ℤ) ∧ (n : ℤ) ≤ 32767 := by omega
  have hword : ((n : ℤ) % 65536).toNat = n := by omega
  rw [headerNumber, if_pos hrange, hword]

/-- What is read of a file whose header has at least six bytes. -/
theorem readFile_of_readChunk {body : List UInt8} {size : ℕ}
    (hchunk : readChunk bytes = .ok (headerName, size, body)) (hlength : 6 ≤ (body.take size).length) :
    readFile bytes =
      (readTracks (signed16 (((body.take size).drop 2).take 2)).toNat (body.drop size)).map
        fun ts => ⟨signed16 (((body.take size).drop 4).take 2), ts⟩ := by
  have hname : require (headerName = headerName) ReadFault.noHeader = .ok () := if_pos rfl
  have hheader : require (6 ≤ (body.take size).length) ReadFault.ended = .ok () := if_pos hlength
  rw [readFile, hchunk, ok_bind]
  dsimp only
  rw [hname, ok_bind, hheader, ok_bind]
  generalize readTracks _ _ = tracks
  cases tracks <;> rfl

/-- Tracks are written as a file, and are read back, each with one more event at its end, if no name is
too long. -/
theorem readFile_writeFile {resolution : ℕ} {ts : List Track} (hresolution : resolution < 32768)
    (hcount : ts.length < 32768) (h : ∀ t ∈ ts, t.IsWritable)
    (hsize : ∀ t ∈ ts, ∀ body, writeEvents none t = .ok body → body.length < 2 ^ 32) :
    ∃ bytes, writeFile (.whole resolution) ts = .ok bytes ∧
      readFile bytes = orTooLong (ts.findSome? Track.excess?)
        ⟨resolution, ts.map (· ++ [ending])⟩ := by
  obtain ⟨chunks, hchunks, hread⟩ := readTracks_writeTracks h hsize
  let header := bigEndianBytes 2 1 ++ bigEndianBytes 2 ts.length ++ bigEndianBytes 2 resolution
  have hheader : header.length = 6 := by
    simp [header]
  refine ⟨chunk headerName header ++ chunks.flatten, ?_, ?_⟩
  · rw [writeFile, headerNumber_natCast hcount, ok_bind, headerNumber_natCast hresolution, ok_bind,
      hchunks]
    rfl
  -- what stands where in the six bytes of the header
  · have hbody : (header ++ chunks.flatten).take 6 = header := List.take_left' hheader
    have hrest : (header ++ chunks.flatten).drop 6 = chunks.flatten := List.drop_left' hheader
    have htwo (n : ℕ) : (bigEndianBytes 2 n).length = 2 := length_bigEndianBytes ..
    have hcount' : (header.drop 2).take 2 = bigEndianBytes 2 ts.length := by
      simp only [header, List.append_assoc]
      rw [List.drop_left' (htwo 1), List.take_left' (htwo _)]
    have hresolution' : (header.drop 4).take 2 = bigEndianBytes 2 resolution := by
      simp only [header]
      rw [List.drop_left' (by simp), List.take_of_length_le (by simp)]
    have hchunk : readChunk (chunk headerName header ++ chunks.flatten) =
        .ok (headerName, 6, header ++ chunks.flatten) := by
      rw [readChunk_chunk rfl (by rw [hheader]; decide), hheader]
    rw [readFile_of_readChunk hchunk (by rw [hbody, hheader]), hbody, hrest, hcount', hresolution',
      signed16_of_lt hcount, signed16_of_lt hresolution, Int.toNat_natCast, hread]
    cases ts.findSome? Track.excess? <;> rfl

end Monody.Midi
