import Monody.Proofs.Output.Balance

/-!
# Notes that no device has

A note is remembered before its message is built. Channel and note are any integers then, and a pair of
them that is out of range is a stray: its message cannot be built, so that the call has a fault and sends
nothing, and still the pair is remembered. From then on releasing all notes stops at the first stray, with
the notes before it released and none forgotten; so does a panic, which silences no channel then, and so
does closing, which leaves the connection open. Only a note off of the same pair forgets it, and that has
a fault too.

Nothing else goes wrong: an output to which no stray was given refuses what it cannot do without a trace,
and all its notes can be released at any time.

## Main definitions

* `IsStray` — a channel and a note that are out of range
* `Request`, `Output.after` — the calls of an output with any integers, and the output after a run of them
* `lastMention?` — whether a pair was last started or released
* `IsUsable` — all notes can be released and forgotten
* `IsUnharmed` — a run whose refused requests leave no trace, on an output that stays usable
* `Leaves` — what a refused request leaves

## Main results

* `mem_active_after_iff` — a stray is remembered exactly if it was last started
* `isUsable_iff` — an output is usable exactly if it remembers no stray
* `leaves_of_fault` — what is left by a request that has a fault, in any state
* `isUnharmed_iff` — a run is unharmed exactly if it starts no stray
-/

namespace Monody.Output

open Midi (Channel Data Message)

/-- A channel and a note that are out of range. -/
def IsStray (p : Int × Int) : Prop := ¬ (0 ≤ p.1 ∧ p.1 < 16 ∧ 0 ≤ p.2 ∧ p.2 < 128)

instance (p : Int × Int) : Decidable (IsStray p) := inferInstanceAs (Decidable (¬ _))

/-- The fault of a message of which something is out of range: the channel, or else the data. -/
def faultAt (channel : Int) : Message.Fault :=
  if 0 ≤ channel ∧ channel < 16 then .data else .channel

/-! ## Requests -/

/-- A call with any integers, or a connection that fails from now on or works again. -/
inductive Request where
  | programChange (channel program : Int)
  | noteOn (channel note velocity : Int)
  | noteOff (channel note : Int)
  | releaseAll
  | panic
  | close
  | setFailing (failing : Bool)

namespace Request

/-- What a request leads to. -/
def perform : Request → Output → Effect
  | programChange channel program, o => o.programChange channel program
  | noteOn channel note velocity, o => o.noteOn channel note velocity
  | noteOff channel note, o => o.noteOff channel note
  | releaseAll, o => o.releaseAll
  | panic, o => o.panic
  | close, o => o.close
  | setFailing failing, o => (o.setFailing failing).unchanged

/-- Whether a request starts a pair or releases it, if it is about that pair. -/
def mention? (p : Int × Int) : Request → Option Bool
  | noteOn channel note velocity => if (channel, note) = p ∧ 0 < velocity then some true else none
  | noteOff channel note => if (channel, note) = p then some false else none
  | _ => none

/-- A request that starts a stray. -/
def StartsStray : Request → Prop
  | noteOn channel note velocity => 0 < velocity ∧ IsStray (channel, note)
  | _ => False

/-- If the request is refused, the output remembers what it did, and nothing is sent. -/
def IsTraceless (r : Request) (o : Output) : Prop :=
  (r.perform o).fault ≠ none → (r.perform o).output.active = o.active ∧ (r.perform o).signals = []

/-- The request is not refused, and nothing is remembered after it on an output that was open. -/
def Empties (r : Request) (o : Output) : Prop :=
  (r.perform o).fault = none ∧ (o.isOpen = true → (r.perform o).output.active = [])

end Request

/-- The output after requests one after another, whether or not they are refused. -/
def after (o : Output) (rs : List Request) : Output :=
  rs.foldl (fun o r => (r.perform o).output) o

/-- Whether the last of the requests that are about a pair starts it or releases it. -/
def lastMention? (p : Int × Int) (rs : List Request) : Option Bool :=
  rs.reverse.findSome? (Request.mention? p)

/-- All notes can be released, with or without silencing and closing. -/
structure IsUsable (o : Output) : Prop where
  releaseAll : Request.releaseAll.Empties o
  panic : Request.panic.Empties o
  close : Request.close.Empties o

/-- Whenever a request of the run is refused, it leaves no trace, and the output is usable all the time. -/
structure IsUnharmed (o : Output) (rs : List Request) : Prop where
  usable : ∀ done, done <+: rs → (o.after done).IsUsable
  traceless : ∀ done r, done ++ [r] <+: rs → r.IsTraceless (o.after done)

/-- What a refused request leaves. -/
inductive Leaves (o : Output) : Request → Effect → Prop
  | programChange {channel program : Int} (hp : IsStray (channel, program)) :
      Leaves o (.programChange channel program) ⟨o, [], some (faultAt channel)⟩
  | noteOn {channel note velocity : Int} (hp : IsStray (channel, note)) (hvelocity : 0 < velocity) :
      Leaves o (.noteOn channel note velocity)
        ⟨{ o with active := o.active.insert (channel, note) }, [], some (faultAt channel)⟩
  | noteOff {channel note : Int} (hp : IsStray (channel, note)) (hactive : (channel, note) ∈ o.active) :
      Leaves o (.noteOff channel note)
        ⟨{ o with active := o.active.erase (channel, note) }, [], some (faultAt channel)⟩
  /-- The notes before the first stray are released, and none is forgotten. -/
  | releases {r : Request} (hr : r = .releaseAll ∨ r = .panic ∨ r = .close ∧ o.isOpen = true)
      {keys : List Key} {p : Int × Int} {rest : List (Int × Int)}
      (hsounding : o.sounding = keys.map Key.pair ++ p :: rest) (hp : IsStray p) :
      Leaves o r ⟨o, o.attempts (keys.map Key.release), some (faultAt p.1)⟩

variable {o : Output} {p : Int × Int} {r : Request} {rs : List Request} {channel note velocity : Int}

@[simp] theorem after_nil : o.after [] = o := rfl

@[simp] theorem after_cons : o.after (r :: rs) = (r.perform o).output.after rs := rfl

/-! ## Messages of strays -/

theorem exists_key_of_not_isStray (h : ¬ IsStray p) : ∃ k : Key, k.pair = p := by
  obtain ⟨channel, note⟩ := p
  obtain ⟨hlow, hhigh, hlow', hhigh'⟩ := not_not.mp h
  refine ⟨(⟨channel.toNat, by omega⟩, ⟨note.toNat, by omega⟩), Prod.ext ?_ ?_⟩
  · exact Int.toNat_of_nonneg hlow
  · exact Int.toNat_of_nonneg hlow'

theorem ofInts_of_isStray (h : IsStray (channel, note)) (build : Channel → Data → Message) :
    Message.ofInts build channel note = .error (faultAt channel) := by
  unfold IsStray at h
  by_cases hchannel : 0 ≤ channel ∧ channel < 16
  · have hnote : ¬ (0 ≤ note ∧ note < 128) := fun hnote => h ⟨hchannel.1, hchannel.2, hnote⟩
    rw [Message.ofInts_of_not_data build hchannel hnote, faultAt, if_pos hchannel]
  · rw [Message.ofInts_of_not_channel build hchannel, faultAt, if_neg hchannel]

theorem ofNoteOn_of_isStray (h : IsStray (channel, note)) (velocity : Data) :
    Message.ofNoteOn channel note velocity = .error (faultAt channel) :=
  ofInts_of_isStray h (.noteOn · · velocity)

theorem ofNoteOff_of_isStray (h : IsStray (channel, note)) :
    Message.ofNoteOff channel note = .error (faultAt channel) :=
  ofInts_of_isStray h (.noteOff · · .zero)

theorem ofProgram_of_isStray {program : Int} (h : IsStray (channel, program)) :
    Message.ofProgram channel program = .error (faultAt channel) :=
  ofInts_of_isStray h .program

theorem clamp_eq_zero_iff : Data.clamp velocity = .zero ↔ velocity ≤ 0 := by
  rw [Data.clamp, Data.zero, Fin.mk.injEq]
  omega

/-! ## Single requests -/

theorem perform_noteOn_of_nonpos (h : velocity ≤ 0) :
    (Request.noteOn channel note velocity).perform o = o.unchanged := by
  rw [Request.perform, Output.noteOn, if_pos (clamp_eq_zero_iff.mpr h)]

theorem perform_noteOn_of_pos (h : 0 < velocity) :
    (Request.noteOn channel note velocity).perform o =
      { o with active := o.active.insert (channel, note) }.send
        (Message.ofNoteOn channel note (Data.clamp velocity)) := by
  rw [Request.perform, Output.noteOn, if_neg (mt clamp_eq_zero_iff.mp h.not_ge)]

theorem perform_noteOn_of_isStray (hvelocity : 0 < velocity) (hp : IsStray (channel, note)) :
    (Request.noteOn channel note velocity).perform o =
      ⟨{ o with active := o.active.insert (channel, note) }, [], some (faultAt channel)⟩ := by
  rw [perform_noteOn_of_pos hvelocity, ofNoteOn_of_isStray hp]
  rfl

theorem perform_noteOff_of_isStray (hactive : (channel, note) ∈ o.active) (hp : IsStray (channel, note)) :
    (Request.noteOff channel note).perform o =
      ⟨{ o with active := o.active.erase (channel, note) }, [], some (faultAt channel)⟩ := by
  rw [Request.perform, Output.noteOff, if_pos hactive, ofNoteOff_of_isStray hp]
  rfl

/-- Building a message of a pair that is no stray has no fault. -/
theorem fault_noteOn_of_not_isStray (hp : ¬ IsStray (channel, note)) :
    ((Request.noteOn channel note velocity).perform o).fault = none := by
  obtain ⟨k, ⟨⟩⟩ := exists_key_of_not_isStray hp
  by_cases hvelocity : velocity ≤ 0
  · rw [perform_noteOn_of_nonpos hvelocity]
    rfl
  · rw [perform_noteOn_of_pos (not_le.mp hvelocity), Message.ofNoteOn_val]
    rfl

theorem fault_noteOff_of_not_isStray (hp : ¬ IsStray (channel, note)) :
    ((Request.noteOff channel note).perform o).fault = none := by
  obtain ⟨k, ⟨⟩⟩ := exists_key_of_not_isStray hp
  rw [Request.perform, Output.noteOff, Message.ofNoteOff_val]
  split <;> rfl

/-! ## Releasing all notes -/

/-- Of pairs in order, either none is a stray, or there is a first one and keys before it. -/
theorem strays_cases (ps : List (Int × Int)) :
    (∀ p ∈ ps, ¬ IsStray p) ∨
      ∃ (keys : List Key) (p : Int × Int) (rest : List (Int × Int)),
        ps = keys.map Key.pair ++ p :: rest ∧ IsStray p := by
  induction ps with
  | nil => exact .inl fun p hp => absurd hp List.not_mem_nil
  | cons p ps ih =>
    by_cases hp : IsStray p
    · exact .inr ⟨[], p, ps, rfl, hp⟩
    · rcases ih with hall | ⟨keys, q, rest, rfl, hq⟩
      · exact .inl (List.forall_mem_cons.mpr ⟨hp, hall⟩)
      · obtain ⟨k, rfl⟩ := exists_key_of_not_isStray hp
        exact .inr ⟨k :: keys, q, rest, rfl, hq⟩

theorem mem_sounding : p ∈ o.sounding ↔ p ∈ o.active := (List.mergeSort_perm _ _).mem_iff

theorem releaseAll_of_isStray {keys : List Key} {rest : List (Int × Int)}
    (hsounding : o.sounding = keys.map Key.pair ++ p :: rest) (hp : IsStray p) :
    o.releaseAll = ⟨o, o.attempts (keys.map Key.release), some (faultAt p.1)⟩ := by
  -- the sends before the stray, its own, and what would come after it
  let send (p : Int × Int) (o : Output) : Effect := o.send (Message.ofNoteOff p.1 p.2)
  have hfault (o : Output) : send p o = ⟨o, [], some (faultAt p.1)⟩ := by
    simp only [send, ofNoteOff_of_isStray hp]
    rfl
  have hsends (keys : List Key) : o.sequence ((keys.map Key.pair ++ p :: rest).map send) =
      ⟨o, o.attempts (keys.map Key.release), some (faultAt p.1)⟩ := by
    induction keys with
    | nil =>
      rw [List.map_nil, List.nil_append, List.map_cons, sequence_cons, hfault]
      simp only [Effect.andThen, List.map_nil, attempts, ite_self]
    | cons k keys ih =>
      have hsend : send k.pair o = ⟨o, o.attempts [k.release], none⟩ := by
        simp only [send, Key.pair, Message.ofNoteOff_val]
        rfl
      rw [List.map_cons, List.cons_append, List.map_cons, sequence_cons, hsend, andThen_mk, ih,
        ← attempts_append]
      rfl
  rw [releaseAll, hsounding]
  exact congrArg (Effect.andThen · _) (hsends keys)

theorem panic_of_isStray {keys : List Key} {rest : List (Int × Int)}
    (hsounding : o.sounding = keys.map Key.pair ++ p :: rest) (hp : IsStray p) :
    o.panic = ⟨o, o.attempts (keys.map Key.release), some (faultAt p.1)⟩ := by
  rw [panic, releaseAll_of_isStray hsounding hp]
  rfl

theorem close_of_isStray (hopen : o.isOpen = true) {keys : List Key} {rest : List (Int × Int)}
    (hsounding : o.sounding = keys.map Key.pair ++ p :: rest) (hp : IsStray p) :
    o.close = ⟨o, o.attempts (keys.map Key.release), some (faultAt p.1)⟩ := by
  rw [close, if_pos hopen, panic_of_isStray hsounding hp]
  rfl

theorem close_of_closed (hclosed : ¬ o.isOpen = true) : o.close = o.unchanged := by
  rw [close, if_neg hclosed]

/-- An output is usable exactly if it remembers no stray. -/
theorem isUsable_iff (hnodup : o.active.Nodup) : o.IsUsable ↔ ∀ p ∈ o.active, ¬ IsStray p := by
  -- without strays all requests empty the output; with one, the notes are not even released
  rcases strays_cases o.sounding with hall | ⟨keys, p, rest, hsounding, hp⟩
  · have hactive : ∀ p ∈ o.active, ¬ IsStray p := fun p hp => hall p (mem_sounding.mpr hp)
    obtain ⟨keys, hkeys⟩ :=
      exists_isRoll hnodup fun p hp => exists_key_of_not_isStray (hactive p hp)
    refine iff_of_true ⟨?_, ?_, ?_⟩ hactive
    · rw [Request.Empties, Request.perform, releaseAll_eq hkeys]
      exact ⟨rfl, fun _ => rfl⟩
    · rw [Request.Empties, Request.perform, panic_eq hkeys]
      exact ⟨rfl, fun _ => rfl⟩
    · rw [Request.Empties, Request.perform]
      by_cases hopen : o.isOpen = true
      · rw [close_eq hopen hkeys]
        exact ⟨rfl, fun _ => rfl⟩
      · rw [close_of_closed hopen]
        exact ⟨rfl, fun h => absurd h hopen⟩
  · refine iff_of_false (fun h => ?_) fun h => ?_
    · have hfault := h.releaseAll.1
      rw [Request.perform, releaseAll_of_isStray hsounding hp] at hfault
      cases hfault
    · refine h p (mem_sounding.mp ?_) hp
      rw [hsounding]
      exact List.mem_append_right _ List.mem_cons_self

theorem exists_stray_of_not_isUsable (hnodup : o.active.Nodup) (h : ¬ o.IsUsable) :
    ∃ (keys : List Key) (p : Int × Int) (rest : List (Int × Int)),
      o.sounding = keys.map Key.pair ++ p :: rest ∧ IsStray p := by
  rcases strays_cases o.sounding with hall | hexists
  · exact absurd ((isUsable_iff hnodup).mpr fun p hp => hall p (mem_sounding.mpr hp)) h
  · exact hexists

/-! ## Any request -/

/-- What is left by a request that has a fault. -/
theorem leaves_of_fault (hnodup : o.active.Nodup) (h : (r.perform o).fault ≠ none) :
    Leaves o r (r.perform o) := by
  -- a request that has a fault is about a stray, or comes upon one while it releases the notes
  cases r with
  | programChange channel program =>
    by_cases hp : IsStray (channel, program)
    · rw [Request.perform, Output.programChange, ofProgram_of_isStray hp]
      exact .programChange hp
    · obtain ⟨k, ⟨⟩⟩ := exists_key_of_not_isStray hp
      rw [Request.perform, Output.programChange, Message.ofProgram_val] at h
      exact absurd rfl h
  | noteOn channel note velocity =>
    have hp : IsStray (channel, note) := not_not.mp (mt fault_noteOn_of_not_isStray h)
    have hvelocity : 0 < velocity := by
      by_contra hnonpos
      rw [perform_noteOn_of_nonpos (not_lt.mp hnonpos)] at h
      exact h rfl
    rw [perform_noteOn_of_isStray hvelocity hp]
    exact .noteOn hp hvelocity
  | noteOff channel note =>
    have hp : IsStray (channel, note) := not_not.mp (mt fault_noteOff_of_not_isStray h)
    have hactive : (channel, note) ∈ o.active := by
      by_contra hnone
      rw [Request.perform, Output.noteOff, if_neg hnone] at h
      exact h rfl
    rw [perform_noteOff_of_isStray hactive hp]
    exact .noteOff hp hactive
  | releaseAll =>
    obtain ⟨keys, p, rest, hsounding, hp⟩ :=
      exists_stray_of_not_isUsable hnodup fun husable => h husable.releaseAll.1
    rw [Request.perform, releaseAll_of_isStray hsounding hp]
    exact .releases (.inl rfl) hsounding hp
  | panic =>
    obtain ⟨keys, p, rest, hsounding, hp⟩ :=
      exists_stray_of_not_isUsable hnodup fun husable => h husable.panic.1
    rw [Request.perform, panic_of_isStray hsounding hp]
    exact .releases (.inr (.inl rfl)) hsounding hp
  | close =>
    obtain ⟨keys, p, rest, hsounding, hp⟩ :=
      exists_stray_of_not_isUsable hnodup fun husable => h husable.close.1
    have hopen : o.isOpen = true := by
      by_contra hclosed
      rw [Request.perform, close_of_closed hclosed] at h
      exact h rfl
    rw [Request.perform, close_of_isStray hopen hsounding hp]
    exact .releases (.inr (.inr ⟨rfl, hopen⟩)) hsounding hp
  | setFailing failing => exact absurd rfl h

/-- Only a note on of a stray leaves a trace where there is none yet. -/
theorem isTraceless_of_isUsable (hnodup : o.active.Nodup) (husable : o.IsUsable)
    (hr : ¬ r.StartsStray) : r.IsTraceless o := by
  intro h
  have hclean := (isUsable_iff hnodup).mp husable
  have hleaves := leaves_of_fault hnodup h
  generalize r.perform o = e at hleaves
  cases hleaves with
  | programChange hp => exact ⟨rfl, rfl⟩
  | noteOn hp hvelocity => exact absurd ⟨hvelocity, hp⟩ hr
  | noteOff hp hactive => exact absurd hp (hclean _ hactive)
  | @releases _ hr keys p rest hsounding hp =>
    refine absurd hp (hclean p (mem_sounding.mp ?_))
    rw [hsounding]
    exact List.mem_append_right _ List.mem_cons_self

theorem not_isTraceless_of_startsStray (hnodup : o.active.Nodup) (husable : o.IsUsable)
    (hr : r.StartsStray) : ¬ r.IsTraceless o := by
  intro h
  cases r with
  | noteOn channel note velocity =>
    obtain ⟨hvelocity, hp⟩ := hr
    rw [Request.IsTraceless, perform_noteOn_of_isStray hvelocity hp] at h
    have hactive : (channel, note) ∈ o.active := by
      rw [← (h nofun).1]
      exact List.mem_insert_self
    exact (isUsable_iff hnodup).mp husable _ hactive hp
  | _ => exact hr

/-! ## Runs -/

theorem nodup_active_perform (h : o.active.Nodup) (r : Request) : (r.perform o).output.active.Nodup := by
  cases r with
  | programChange channel program => rwa [Request.perform, programChange_output]
  | noteOn channel note velocity => exact nodup_active_noteOn channel note velocity h
  | noteOff channel note =>
    rw [Request.perform, active_noteOff]
    exact h.erase _
  | releaseAll => exact (lessens_releaseAll o).nodup h
  | panic => exact (lessens_panic o).nodup h
  | close => exact (lessens_close o).nodup h
  | setFailing failing => exact h

theorem nodup_active_after (h : o.active.Nodup) (rs : List Request) : (o.after rs).active.Nodup := by
  induction rs generalizing o with
  | nil => exact h
  | cons r rs ih => exact ih (nodup_active_perform h r)

/-- Where a stray is remembered, the requests that release all notes change nothing. -/
theorem output_of_isStray (hp : IsStray p) (hactive : p ∈ o.active) :
    o.releaseAll.output = o ∧ o.panic.output = o ∧ o.close.output = o := by
  rcases strays_cases o.sounding with hall | ⟨keys, q, rest, hsounding, hq⟩
  · exact absurd hp (hall p (mem_sounding.mpr hactive))
  · refine ⟨congrArg Effect.output (releaseAll_of_isStray hsounding hq),
      congrArg Effect.output (panic_of_isStray hsounding hq), ?_⟩
    by_cases hopen : o.isOpen = true
    · exact congrArg Effect.output (close_of_isStray hopen hsounding hq)
    · exact congrArg Effect.output (close_of_closed hopen)

/-- After a request a stray is remembered if the request starts it, or is not about it and it was
remembered before. -/
theorem mem_active_perform_iff (hnodup : o.active.Nodup) (hp : IsStray p) (r : Request) :
    p ∈ (r.perform o).output.active ↔
      r.mention? p = some true ∨ r.mention? p = none ∧ p ∈ o.active := by
  -- requests that are about no note at all leave the stray where it was
  have hother {active : List (Int × Int)} (hless : active.Sublist o.active)
      (hkept : p ∈ o.active → active = o.active) :
      p ∈ active ↔ (none : Option Bool) = some true ∨ (none : Option Bool) = none ∧ p ∈ o.active := by
    refine ⟨fun h => .inr ⟨rfl, hless.subset h⟩, ?_⟩
    rintro (h | ⟨-, h⟩)
    · cases h
    · rwa [hkept h]
  have hkept := output_of_isStray hp (o := o)
  cases r with
  | programChange channel program =>
    refine hother ?_ fun _ => ?_ <;> rw [Request.perform, programChange_output]
  | noteOn channel note velocity =>
    rw [Request.mention?]
    by_cases hvelocity : 0 < velocity
    · rw [perform_noteOn_of_pos hvelocity, send_output, List.mem_insert_iff]
      by_cases heq : (channel, note) = p
      · simp [heq, hvelocity]
      · simp [heq, Ne.symm heq]
    · rw [perform_noteOn_of_nonpos (not_lt.mp hvelocity), if_neg fun h => hvelocity h.2]
      exact hother (.refl _) fun _ => rfl
  | noteOff channel note =>
    rw [Request.perform, active_noteOff, hnodup.mem_erase_iff, Request.mention?]
    by_cases heq : (channel, note) = p
    · simp [heq]
    · simp [heq, Ne.symm heq]
  | releaseAll => exact hother (lessens_releaseAll o) fun h => congrArg Output.active (hkept h).1
  | panic => exact hother (lessens_panic o) fun h => congrArg Output.active (hkept h).2.1
  | close => exact hother (lessens_close o) fun h => congrArg Output.active (hkept h).2.2
  | setFailing failing => exact hother (.refl _) fun _ => rfl

theorem lastMention?_cons (p : Int × Int) (r : Request) (rs : List Request) :
    lastMention? p (r :: rs) = (lastMention? p rs).or (r.mention? p) := by
  rw [lastMention?, List.reverse_cons, List.findSome?_append]
  simp [lastMention?]

/-- After a run a stray is remembered if it was last started, or was remembered before and not
mentioned. -/
theorem mem_active_after_iff (hnodup : o.active.Nodup) (hp : IsStray p) (rs : List Request) :
    p ∈ (o.after rs).active ↔
      lastMention? p rs = some true ∨ lastMention? p rs = none ∧ p ∈ o.active := by
  induction rs generalizing o with
  | nil => simp [lastMention?]
  | cons r rs ih =>
    rw [after_cons, ih (nodup_active_perform hnodup r), mem_active_perform_iff hnodup hp,
      lastMention?_cons]
    cases lastMention? p rs <;> simp

theorem startsStray_of_mention? (hp : IsStray p) (h : r.mention? p = some true) : r.StartsStray := by
  cases r with
  | noteOn channel note velocity =>
    rw [Request.mention?] at h
    split at h
    · next heq =>
      obtain ⟨rfl, hvelocity⟩ := heq
      exact ⟨hvelocity, hp⟩
    · cases h
  | noteOff channel note =>
    rw [Request.mention?] at h
    split at h <;> cases h
  | _ => cases h

theorem exists_startsStray_of_lastMention? (hp : IsStray p) (h : lastMention? p rs = some true) :
    ∃ r ∈ rs, r.StartsStray := by
  obtain ⟨r, hr, hmention⟩ := List.exists_of_findSome?_eq_some h
  exact ⟨r, List.mem_reverse.mp hr, startsStray_of_mention? hp hmention⟩

/-- **Requests that are refused.** From its opening on, an output is left without a trace by all that it
refuses, and all its notes can be released at any time, exactly if it is not asked to start a stray. It is
usable after a run exactly if no stray was started last; and what a refused request leaves after any run
is known. -/
theorem isUnharmed_iff (connection : Option Connection) (device : Option (List Char))
    (rs : List Request) :
    let start := ofConnection connection device
    (start.IsUnharmed rs ↔ ∀ r ∈ rs, ¬ r.StartsStray) ∧
      ((start.after rs).IsUsable ↔ ∀ p, IsStray p → lastMention? p rs ≠ some true) ∧
      ∀ r : Request, (r.perform (start.after rs)).fault ≠ none →
        Leaves (start.after rs) r (r.perform (start.after rs)) := by
  intro start
  have hnodup (rs : List Request) : (start.after rs).active.Nodup := nodup_active_after List.nodup_nil rs
  -- what is remembered of a stray is what was asked of it last
  have husable (rs : List Request) :
      (start.after rs).IsUsable ↔ ∀ p, IsStray p → lastMention? p rs ≠ some true := by
    have hmem {p : Int × Int} (hp : IsStray p) :
        p ∈ (start.after rs).active ↔ lastMention? p rs = some true := by
      rw [mem_active_after_iff List.nodup_nil hp]
      exact or_iff_left fun h => List.not_mem_nil h.2
    rw [isUsable_iff (hnodup rs)]
    exact ⟨fun h p hp hlast => h p ((hmem hp).mpr hlast) hp,
      fun h p hactive hp => h p hp ((hmem hp).mp hactive)⟩
  have hclean {done : List Request} (hdone : done <+: rs) (h : ∀ r ∈ rs, ¬ r.StartsStray) :
      (start.after done).IsUsable := by
    refine (husable done).mpr fun p hp hlast => ?_
    obtain ⟨r, hr, hstray⟩ := exists_startsStray_of_lastMention? hp hlast
    exact h r (hdone.subset hr) hstray
  refine ⟨⟨fun h r hr hstray => ?_, fun h => ⟨fun done hdone => ?_, fun done r hdone => ?_⟩⟩,
    husable rs, fun r => leaves_of_fault (hnodup rs)⟩
  · obtain ⟨done, rest, rfl⟩ := List.append_of_mem hr
    exact not_isTraceless_of_startsStray (hnodup done) (h.usable done (List.prefix_append ..)) hstray
      (h.traceless done r ⟨rest, List.append_assoc ..⟩)
  · exact hclean hdone h
  · exact isTraceless_of_isUsable (hnodup done) (hclean ((List.prefix_append ..).trans hdone) h)
      (h r (hdone.subset (List.mem_append_right _ (List.mem_singleton_self r))))

/-- A note on a seventeenth channel, and nothing can be released any more. -/
theorem not_isUnharmed :
    ¬ ∀ (connection : Option Connection) (device : Option (List Char)) (rs : List Request),
      (ofConnection connection device).IsUnharmed rs := by
  intro h
  have husable := (h (some ⟨false⟩) none [.noteOn 16 60 100]).usable _ (List.prefix_refl _)
  have hfault := husable.releaseAll.1
  revert hfault
  decide +kernel

end Monody.Output
