import Mathlib.Data.Set.List
import Monody.Proofs.Output

/-!
# The books of an output

What an output remembers is a book that is kept on the side of the messages: nobody asks the device
which notes sound. The book has to agree with the messages whatever the calls are, in any order and
number, and whether or not the connection delivers them.

Every call with values in range is an equation: which notes it remembers, and what it attempts to send.
The agreement of the book with the messages is kept by one call, and so by any run of them.

## Main definitions

* `Call` — the calls of an output, with values in range, and a connection that fails or works again
* `Output.perform` — a run of calls
* `lastStroke?` — whether the last message of a key starts it or releases it
* `IsBalanced` — the keys that are remembered are those that were started last
* `Call.IsSparing`, `Call.Clears` — what a call may release, and what it has to
* `Heedless` — a call to which it makes no difference what is delivered

## Main results

* `releaseAll_eq`, `panic_eq`, `close_eq` — what the calls for all notes remember and attempt
* `IsBalanced.step`, `IsBalanced.run` — a call keeps the book, and so does a run
* `isBalanced_perform` — over any run the book is kept, releases are those of keys that sound, a
  closed output sends nothing, and lost messages make no difference
-/

namespace Monody.Output

open Midi (Channel Data Message)

theorem pairLe_iff {a b : Int × Int} : pairLe a b = true ↔ a.1 < b.1 ∨ a.1 = b.1 ∧ a.2 ≤ b.2 := by
  simp only [pairLe, Bool.or_eq_true, Bool.and_eq_true, decide_eq_true_eq, beq_iff_eq]

/-- A note of a channel. -/
abbrev Key := Channel × Data

namespace Key

/-- A key as it is remembered. -/
def pair (k : Key) : Int × Int := (k.1.val, k.2.val)

/-- The message that releases a key. -/
def release (k : Key) : Message := .noteOff k.1 k.2 .zero

/-- Channels come in order and, within a channel, notes. -/
def Before (j k : Key) : Prop := j.1 < k.1 ∨ j.1 = k.1 ∧ j.2 < k.2

theorem pair_injective : Function.Injective pair := by
  intro j k h
  obtain ⟨hchannel, hnote⟩ := Prod.mk.inj h
  exact Prod.ext (Fin.ext (Int.ofNat_inj.mp hchannel)) (Fin.ext (Int.ofNat_inj.mp hnote))

@[simp] theorem pair_inj {j k : Key} : j.pair = k.pair ↔ j = k := pair_injective.eq_iff

/-- The order of pairs, taken strictly, is that of keys. -/
theorem before_of_pairLe {j k : Key} (hle : pairLe j.pair k.pair = true) (hne : j ≠ k) :
    j.Before k := by
  have hne' : ¬ ((j.1 : Nat) = k.1 ∧ (j.2 : Nat) = k.2) :=
    fun h => hne (Prod.ext (Fin.ext h.1) (Fin.ext h.2))
  rcases pairLe_iff.mp hle with hchannel | ⟨hchannel, hnote⟩
  · exact .inl (Fin.lt_def.mpr (Int.ofNat_lt.mp hchannel))
  · have hchannel := Int.ofNat_inj.mp hchannel
    have hnote := Int.ofNat_le.mp hnote
    exact .inr ⟨Fin.ext hchannel, Fin.lt_def.mpr (by omega)⟩

end Key

/-! ## Calls -/

/-- A call with values in range, or a connection that fails from now on or works again. -/
inductive Call where
  | programChange (channel : Channel) (program : Data)
  | noteOn (key : Key) (velocity : Data)
  | noteOff (key : Key)
  | releaseAll
  | panic
  | close
  | setFailing (failing : Bool)

/-- What a call leads to. -/
def Call.perform : Call → Output → Effect
  | .programChange channel program, o => o.programChange channel.val program.val
  | .noteOn key velocity, o => o.noteOn key.1.val key.2.val velocity.val
  | .noteOff key, o => o.noteOff key.1.val key.2.val
  | .releaseAll, o => o.releaseAll
  | .panic, o => o.panic
  | .close, o => o.close
  | .setFailing failing, o => (o.setFailing failing).unchanged

/-- Whether a call is made of the output, and not something that happens to its connection. -/
def Call.isRequest : Call → Bool
  | .setFailing _ => false
  | _ => true

/-- What calls one after another lead to. -/
def perform (o : Output) (calls : List Call) : Effect := o.sequence (calls.map Call.perform)

theorem perform_cons (o : Output) (call : Call) (calls : List Call) :
    o.perform (call :: calls) = (call.perform o).andThen (·.perform calls) :=
  sequence_cons _

theorem perform_cons_of_fault_eq_none {o : Output} {call : Call}
    (h : (call.perform o).fault = none) (calls : List Call) :
    o.perform (call :: calls) =
      ⟨((call.perform o).output.perform calls).output,
        (call.perform o).signals ++ ((call.perform o).output.perform calls).signals,
        ((call.perform o).output.perform calls).fault⟩ := by
  rw [perform_cons, Effect.andThen, h]

/-! ## What the messages say -/

/-- The key that a message is about, and whether it starts it. -/
def Signal.stroke? : Signal → Option (Key × Bool)
  | .message (.noteOn channel note _) => some ((channel, note), true)
  | .message (.noteOff channel note _) => some ((channel, note), false)
  | _ => none

/-- The messages of notes among what was sent. -/
def strokes (sent : List Signal) : List (Key × Bool) := sent.filterMap Signal.stroke?

/-- Whether the last message of a key starts it, if there is one. -/
def lastStroke? (k : Key) (sent : List Signal) : Option Bool := (strokes sent).reverse.lookup k

@[simp] theorem strokes_append (sent more : List Signal) :
    strokes (sent ++ more) = strokes sent ++ strokes more :=
  List.filterMap_append

@[simp] theorem lastStroke?_append (k : Key) (sent more : List Signal) :
    lastStroke? k (sent ++ more) = (lastStroke? k more).or (lastStroke? k sent) := by
  rw [lastStroke?, strokes_append, List.reverse_append, List.lookup_append]
  rfl

theorem lastStroke?_of_strokes_eq_nil (k : Key) {sent : List Signal} (h : strokes sent = []) :
    lastStroke? k sent = none := by
  rw [lastStroke?, h]
  rfl

/-- Where all messages start keys, or all release them, they are the last of these keys. -/
theorem lastStroke?_of_mem {keys : List Key} {starts : Bool} {sent : List Signal} {k : Key}
    (h : strokes sent = keys.map (·, starts)) (hk : k ∈ keys) : lastStroke? k sent = some starts := by
  have hmem : (k, starts) ∈ (strokes sent).reverse := by
    rw [List.mem_reverse, h]
    exact List.mem_map_of_mem hk
  obtain ⟨b, hb⟩ := Option.isSome_iff_exists.mp
    (List.lookup_isSome_iff.mpr ⟨_, hmem, beq_self_eq_true k⟩)
  obtain ⟨before, after, heq, -⟩ := List.lookup_eq_some_iff.mp hb
  have hlast : (k, b) ∈ keys.map (·, starts) := by
    rw [← h, ← List.mem_reverse, heq]
    exact List.mem_append_right _ List.mem_cons_self
  obtain ⟨j, -, hj⟩ := List.mem_map.mp hlast
  rw [lastStroke?, hb, (Prod.mk.inj hj).2]

theorem lastStroke?_of_not_mem {keys : List Key} {starts : Bool} {sent : List Signal} {k : Key}
    (h : strokes sent = keys.map (·, starts)) (hk : k ∉ keys) : lastStroke? k sent = none := by
  refine List.lookup_eq_none_iff.mpr fun p hp => ?_
  rw [List.mem_reverse, h] at hp
  obtain ⟨j, hj, rfl⟩ := List.mem_map.mp hp
  exact bne_iff_ne.mpr fun heq => hk (heq ▸ hj)

theorem lastStroke?_of_stroke {k : Key} {starts : Bool} {sent : List Signal}
    (h : strokes sent = [(k, starts)]) (j : Key) :
    lastStroke? j sent = if j = k then some starts else none := by
  have hkeys : strokes sent = [k].map (·, starts) := h
  by_cases hj : j = k
  · rw [if_pos hj, lastStroke?_of_mem hkeys (List.mem_singleton.mpr hj)]
  · rw [if_neg hj, lastStroke?_of_not_mem hkeys (mt List.mem_singleton.mp hj)]

/-! ## What a call attempts -/

variable {o o' : Output} {k : Key} {sent : List Signal}

/-- What becomes of messages: they are sent over a connection, if there is one. -/
def attempts (o : Output) (messages : List Message) : List Signal :=
  if o.isOpen then messages.map .message else []

theorem attempts_append (first second : List Message) :
    o.attempts (first ++ second) = o.attempts first ++ o.attempts second := by
  unfold attempts
  split
  · exact List.map_append
  · rfl

theorem attempts_of_closed (hclosed : o.isOpen = false) (messages : List Message) :
    o.attempts messages = [] := by
  rw [attempts, hclosed]
  rfl

theorem send_ok (m : Message) : o.send (.ok m) = ⟨o, o.attempts [m], none⟩ := rfl

theorem sequence_sends (messages : List Message) :
    o.sequence (messages.map fun m o => o.send (.ok m)) = ⟨o, o.attempts messages, none⟩ := by
  induction messages with
  | nil => simp only [List.map_nil, sequence, List.foldl_nil, unchanged, attempts, ite_self]
  | cons m messages ih =>
    rw [List.map_cons, sequence_cons, send_ok, andThen_mk, ih, ← attempts_append]
    rfl

theorem perform_programChange (channel : Channel) (program : Data) :
    (Call.programChange channel program).perform o =
      ⟨o, o.attempts [.program channel program], none⟩ := by
  rw [Call.perform, programChange, Message.ofProgram_val, send_ok]

theorem perform_noteOn_zero : (Call.noteOn k .zero).perform o = o.unchanged := by
  rw [Call.perform, noteOn, Data.clamp_val, if_pos rfl]

theorem perform_noteOn {velocity : Data} (hvelocity : velocity ≠ .zero) :
    (Call.noteOn k velocity).perform o =
      ⟨{ o with active := o.active.insert k.pair }, o.attempts [.noteOn k.1 k.2 velocity], none⟩ := by
  rw [Call.perform, noteOn, Data.clamp_val, if_neg hvelocity, Message.ofNoteOn_val, send_ok]
  rfl

theorem perform_noteOff (hk : k.pair ∈ o.active) :
    (Call.noteOff k).perform o =
      ⟨{ o with active := o.active.erase k.pair }, o.attempts [k.release], none⟩ := by
  rw [Key.pair] at hk
  rw [Call.perform, noteOff, if_pos hk, Message.ofNoteOff_val, send_ok]
  rfl

theorem perform_noteOff_of_not_mem (hk : k.pair ∉ o.active) :
    (Call.noteOff k).perform o = o.unchanged := by
  rw [Key.pair] at hk
  rw [Call.perform, noteOff, if_neg hk]

/-- The messages that silence all channels. -/
def silences : List Message :=
  (List.finRange 16).flatMap fun channel => silencers.map (Message.control channel · .zero)

theorem silence_eq : o.silence = ⟨o, o.attempts silences, none⟩ := by
  rw [← sequence_sends, silence, silences, List.map_flatMap]
  simp only [List.map_map, Function.comp_def]

/-- Silencing says nothing about single notes. -/
theorem strokes_attempts_silences : strokes (o.attempts silences) = [] := by
  unfold attempts
  split
  · decide +kernel
  · rfl

/-! ## The keys that sound -/

/-- The keys that sound, each of them once and in order. -/
structure IsRoll (o : Output) (keys : List Key) : Prop where
  sounding : o.sounding = keys.map Key.pair
  sorted : keys.Pairwise Key.Before
  mem_iff : ∀ k : Key, k ∈ keys ↔ k.pair ∈ o.active

theorem exists_isRoll (hnodup : o.active.Nodup) (hrange : ∀ p ∈ o.active, ∃ k : Key, k.pair = p) :
    ∃ keys, o.IsRoll keys := by
  -- sorting permutes the pairs, so that all of them are pairs of keys
  have hperm : o.sounding.Perm o.active := List.mergeSort_perm _ _
  have hkeys : ∃ keys : List Key, keys.map Key.pair = o.sounding := by
    have : o.sounding ∈ Set.range (List.map Key.pair) := by
      rw [Set.range_list_map]
      exact fun p hp => hrange p (hperm.mem_iff.mp hp)
    exact this
  obtain ⟨keys, hkeys⟩ := hkeys
  have hle : (keys.map Key.pair).Pairwise (pairLe · ·) := by
    rw [hkeys]
    refine List.pairwise_mergeSort (fun a b c => ?_) (fun a b => ?_) _
    · simp only [pairLe_iff]
      omega
    · simp only [Bool.or_eq_true, pairLe_iff]
      omega
  have hdistinct : keys.Nodup := by
    refine List.Nodup.of_map Key.pair ?_
    rw [hkeys]
    exact hperm.nodup_iff.mpr hnodup
  refine ⟨keys, hkeys.symm, ?_, fun k => ?_⟩
  · exact (List.pairwise_map.mp hle).imp₂ (fun _ _ => Key.before_of_pairLe) hdistinct
  · rw [← hperm.mem_iff, ← hkeys, List.mem_map_of_injective Key.pair_injective]

/-- Releasing all attempts one release for each key that sounds, in order. -/
theorem releaseAll_eq {keys : List Key} (h : o.IsRoll keys) :
    o.releaseAll = ⟨{ o with active := [] }, o.attempts (keys.map Key.release), none⟩ := by
  have hsends : (o.sounding.map fun p (o : Output) => o.send (Message.ofNoteOff p.1 p.2)) =
      (keys.map Key.release).map fun m o => o.send (.ok m) := by
    rw [h.sounding, List.map_map, List.map_map]
    refine List.map_congr_left fun k _ => ?_
    funext o
    rw [Function.comp_apply, Key.pair, Message.ofNoteOff_val]
    rfl
  rw [releaseAll, hsends, sequence_sends, andThen_mk]
  simp only [unchanged, List.append_nil]

theorem panic_eq {keys : List Key} (h : o.IsRoll keys) :
    o.panic =
      ⟨{ o with active := [] }, o.attempts (keys.map Key.release) ++ o.attempts silences, none⟩ := by
  rw [panic, releaseAll_eq h, andThen_mk, silence_eq]
  rfl

/-- Closing is a panic, and then there is no connection. -/
theorem close_eq (hopen : o.isOpen = true) {keys : List Key} (h : o.IsRoll keys) :
    o.close =
      ⟨{ o with active := [], connection := none },
        o.attempts (keys.map Key.release) ++ o.attempts silences ++ [.closed], none⟩ := by
  rw [close, if_pos hopen, panic_eq h, andThen_mk]

/-! ## The book and the messages -/

/-- The keys that an output remembers are those whose last message started them. Without a connection
there are no messages to compare with. -/
structure IsBalanced (o : Output) (sent : List Signal) : Prop where
  nodup : o.active.Nodup
  inRange : ∀ p ∈ o.active, ∃ k : Key, k.pair = p
  started : o.isOpen = true → ∀ k : Key, k.pair ∈ o.active ↔ lastStroke? k sent = some true

/-- What a call does to the book, and the messages of notes that it attempts. -/
inductive IsEntry (o : Output) (e : Effect) : Prop where
  | nothing (hactive : e.output.active = o.active) (hopen : e.output.isOpen = o.isOpen)
      (hsent : strokes e.signals = [])
  | start (k : Key) (hactive : e.output.active = o.active.insert k.pair)
      (hopen : e.output.isOpen = o.isOpen)
      (hsent : strokes e.signals = if o.isOpen then [(k, true)] else [])
  | release (k : Key) (hk : k.pair ∈ o.active) (hactive : e.output.active = o.active.erase k.pair)
      (hopen : e.output.isOpen = o.isOpen)
      (hsent : strokes e.signals = if o.isOpen then [(k, false)] else [])
  | all (keys : List Key) (hkeys : o.IsRoll keys) (hactive : e.output.active = [])
      (hopen : e.output.isOpen = true → o.isOpen = true)
      (hsent : strokes e.signals = if o.isOpen then keys.map (·, false) else [])

theorem strokes_attempts (messages : List Message) :
    strokes (o.attempts messages) =
      if o.isOpen then strokes (messages.map .message) else [] := by
  unfold attempts
  split <;> rfl

theorem strokes_releases (keys : List Key) :
    strokes (o.attempts (keys.map Key.release)) = if o.isOpen then keys.map (·, false) else [] := by
  have hstrokes : strokes ((keys.map Key.release).map .message) = keys.map (·, false) := by
    rw [strokes, List.map_map, List.filterMap_map]
    exact List.filterMap_eq_map_iff_forall_eq_some.mpr fun _ _ => rfl
  rw [strokes_attempts, hstrokes]

/-- Every call has no fault, sends nothing without a connection, and makes one of four entries. -/
theorem IsBalanced.isEntry (h : o.IsBalanced sent) (call : Call) :
    (call.perform o).fault = none ∧ (o.isOpen = false → (call.perform o).signals = []) ∧
      o.IsEntry (call.perform o) := by
  obtain ⟨keys, hkeys⟩ := exists_isRoll h.nodup h.inRange
  have hunchanged : o.unchanged.fault = none ∧ (o.isOpen = false → o.unchanged.signals = []) ∧
      o.IsEntry o.unchanged := ⟨rfl, fun _ => rfl, .nothing rfl rfl rfl⟩
  -- a call that does nothing makes no entry either
  cases call with
  | programChange channel program =>
    rw [perform_programChange]
    refine ⟨rfl, fun hclosed => attempts_of_closed hclosed _, .nothing rfl rfl ?_⟩
    rw [strokes_attempts]
    exact ite_self _
  | noteOn k velocity =>
    by_cases hvelocity : velocity = .zero
    · rw [hvelocity, perform_noteOn_zero]
      exact hunchanged
    · rw [perform_noteOn hvelocity]
      exact ⟨rfl, fun hclosed => attempts_of_closed hclosed _, .start k rfl rfl (strokes_attempts _)⟩
  | noteOff k =>
    by_cases hk : k.pair ∈ o.active
    · rw [perform_noteOff hk]
      exact ⟨rfl, fun hclosed => attempts_of_closed hclosed _,
        .release k hk rfl rfl (strokes_attempts _)⟩
    · rw [perform_noteOff_of_not_mem hk]
      exact hunchanged
  | releaseAll =>
    rw [Call.perform, releaseAll_eq hkeys]
    exact ⟨rfl, fun hclosed => attempts_of_closed hclosed _, .all keys hkeys rfl id (strokes_releases keys)⟩
  | panic =>
    rw [Call.perform, panic_eq hkeys, ← attempts_append]
    refine ⟨rfl, fun hclosed => attempts_of_closed hclosed _, .all keys hkeys rfl id ?_⟩
    rw [attempts_append, strokes_append, strokes_releases, strokes_attempts_silences, List.append_nil]
  | close =>
    by_cases hopen : o.isOpen = true
    · rw [Call.perform, close_eq hopen hkeys]
      refine ⟨rfl, fun hclosed => absurd hopen (Bool.eq_false_iff.mp hclosed),
        .all keys hkeys rfl nofun ?_⟩
      rw [strokes_append, strokes_append, strokes_releases, strokes_attempts_silences,
        List.append_nil]
      exact List.append_nil _
    · rw [Call.perform, close, if_neg hopen]
      exact hunchanged
  | setFailing failing => exact ⟨rfl, fun _ => rfl, .nothing rfl (Option.isSome_map ..) rfl⟩

/-- No entry makes a connection. -/
theorem IsEntry.isOpen_eq_false {e : Effect} (he : o.IsEntry e) (hclosed : o.isOpen = false) :
    e.output.isOpen = false := by
  cases he with
  | nothing _ hopen _ => exact hopen.trans hclosed
  | start _ _ hopen _ => exact hopen.trans hclosed
  | release _ _ _ hopen _ => exact hopen.trans hclosed
  | all _ _ _ hopen _ => exact Bool.eq_false_iff.mpr (mt hopen (Bool.eq_false_iff.mp hclosed))

/-- The book is kept by one entry. -/
theorem IsBalanced.of_isEntry (h : o.IsBalanced sent) {e : Effect} (he : o.IsEntry e) :
    e.output.IsBalanced (sent ++ e.signals) := by
  -- the last message of a key is a new one only if the entry has a message of that key
  cases he with
  | nothing hactive hopen hsent =>
    refine ⟨hactive ▸ h.nodup, hactive ▸ h.inRange, fun hopen' j => ?_⟩
    rw [lastStroke?_append, lastStroke?_of_strokes_eq_nil j hsent, Option.none_or, hactive]
    exact h.started (hopen ▸ hopen') j
  | start k hactive hopen hsent =>
    refine ⟨hactive ▸ h.nodup.insert, fun p hp => ?_, fun hopen' j => ?_⟩
    · rw [hactive] at hp
      rcases List.mem_insert_iff.mp hp with rfl | hp
      · exact ⟨k, rfl⟩
      · exact h.inRange p hp
    · rw [hopen] at hopen'
      rw [if_pos hopen'] at hsent
      rw [hactive, List.mem_insert_iff, h.started hopen' j, Key.pair_inj, lastStroke?_append,
        lastStroke?_of_stroke hsent]
      by_cases hj : j = k
      · simp [hj]
      · simp [hj]
  | release k hk hactive hopen hsent =>
    refine ⟨hactive ▸ h.nodup.erase _, fun p hp => ?_, fun hopen' j => ?_⟩
    · rw [hactive] at hp
      exact h.inRange p (List.mem_of_mem_erase hp)
    · rw [hopen] at hopen'
      rw [if_pos hopen'] at hsent
      rw [hactive, h.nodup.mem_erase_iff, h.started hopen' j, Ne, Key.pair_inj, lastStroke?_append,
        lastStroke?_of_stroke hsent]
      by_cases hj : j = k
      · simp [hj]
      · simp [hj]
  | all keys hkeys hactive hopen hsent =>
    refine ⟨hactive ▸ List.nodup_nil, fun p hp => ?_, fun hopen' j => ?_⟩
    · rw [hactive] at hp
      exact absurd hp List.not_mem_nil
    · have hopen := hopen hopen'
      rw [if_pos hopen] at hsent
      have hmem : j ∈ keys ↔ lastStroke? j sent = some true := by
        rw [hkeys.mem_iff, h.started hopen]
      rw [hactive, lastStroke?_append]
      by_cases hj : j ∈ keys
      · simp [lastStroke?_of_mem hsent hj]
      · simpa [lastStroke?_of_not_mem hsent hj] using mt hmem.mpr hj

theorem IsBalanced.step (h : o.IsBalanced sent) (call : Call) :
    (call.perform o).output.IsBalanced (sent ++ (call.perform o).signals) :=
  h.of_isEntry (h.isEntry call).2.2

/-- The book is kept over a run, and no call of it has a fault. -/
theorem IsBalanced.run (h : o.IsBalanced sent) (calls : List Call) :
    (o.perform calls).fault = none ∧
      (o.perform calls).output.IsBalanced (sent ++ (o.perform calls).signals) := by
  induction calls generalizing o sent with
  | nil => exact ⟨rfl, (List.append_nil sent).symm ▸ h⟩
  | cons call calls ih =>
    obtain ⟨hfault, hbalanced⟩ := ih (h.step call)
    rw [perform_cons_of_fault_eq_none (h.isEntry call).1]
    exact ⟨hfault, List.append_assoc .. ▸ hbalanced⟩

/-! ## What a call may release, and what it has to -/

/-- A call attempts to release keys only that sound at that moment. -/
def Call.IsSparing (call : Call) (o : Output) : Prop :=
  ∀ k, (k, false) ∈ strokes (call.perform o).signals → k.pair ∈ o.active

/-- A call attempts to release every key that sounds, once and in order, starts none, and forgets
them all. -/
def Call.Clears (call : Call) (o : Output) : Prop :=
  (call.perform o).output.active = [] ∧
    ∃ keys : List Key, keys.Pairwise Key.Before ∧ (∀ k : Key, k ∈ keys ↔ k.pair ∈ o.active) ∧
      strokes (call.perform o).signals = if o.isOpen then keys.map (·, false) else []

theorem IsBalanced.isSparing (h : o.IsBalanced sent) (call : Call) : call.IsSparing o := by
  -- a note that a call ends is one that it releases, or one of those that were active
  intro k hk
  cases (h.isEntry call).2.2 with
  | nothing _ _ hsent =>
    rw [hsent] at hk
    exact absurd hk List.not_mem_nil
  | start j _ _ hsent =>
    rw [hsent] at hk
    split at hk
    · simp at hk
    · exact absurd hk List.not_mem_nil
  | release j hj _ _ hsent =>
    rw [hsent] at hk
    split at hk
    · obtain ⟨rfl, -⟩ := Prod.mk.inj (List.mem_singleton.mp hk)
      exact hj
    · exact absurd hk List.not_mem_nil
  | all keys hkeys _ _ hsent =>
    rw [hsent] at hk
    split at hk
    · obtain ⟨j, hj, heq⟩ := List.mem_map.mp hk
      obtain ⟨rfl, -⟩ := Prod.mk.inj heq
      exact (hkeys.mem_iff j).mp hj
    · exact absurd hk List.not_mem_nil

theorem IsBalanced.clears_releaseAll (h : o.IsBalanced sent) : Call.releaseAll.Clears o := by
  obtain ⟨keys, hkeys⟩ := exists_isRoll h.nodup h.inRange
  rw [Call.Clears, Call.perform, releaseAll_eq hkeys]
  exact ⟨rfl, keys, hkeys.sorted, hkeys.mem_iff, strokes_releases keys⟩

theorem IsBalanced.clears_panic (h : o.IsBalanced sent) : Call.panic.Clears o := by
  obtain ⟨keys, hkeys⟩ := exists_isRoll h.nodup h.inRange
  rw [Call.Clears, Call.perform, panic_eq hkeys]
  refine ⟨rfl, keys, hkeys.sorted, hkeys.mem_iff, ?_⟩
  rw [strokes_append, strokes_releases, strokes_attempts_silences, List.append_nil]

/-! ## A closed output -/

theorem IsBalanced.isOpen_close (h : o.IsBalanced sent) :
    (Call.close.perform o).output.isOpen = false := by
  by_cases hopen : o.isOpen = true
  · obtain ⟨keys, hkeys⟩ := exists_isRoll h.nodup h.inRange
    rw [Call.perform, close_eq hopen hkeys]
    rfl
  · rw [Call.perform, close, if_neg hopen]
    exact Bool.eq_false_iff.mpr hopen

/-- Without a connection nothing is sent. -/
theorem IsBalanced.signals_of_closed (h : o.IsBalanced sent) (hclosed : o.isOpen = false)
    (calls : List Call) : (o.perform calls).signals = [] := by
  induction calls generalizing o sent with
  | nil => rfl
  | cons call calls ih =>
    obtain ⟨hfault, hsilent, hentry⟩ := h.isEntry call
    rw [perform_cons_of_fault_eq_none hfault, hsilent hclosed]
    exact ih (h.step call) (hentry.isOpen_eq_false hclosed)

/-- Whatever is called after closing, nothing more is sent. -/
theorem IsBalanced.signals_close_cons (h : o.IsBalanced sent) (calls : List Call) :
    (o.perform (.close :: calls)).signals = (Call.close.perform o).signals := by
  rw [perform_cons_of_fault_eq_none (h.isEntry .close).1,
    (h.step .close).signals_of_closed h.isOpen_close, List.append_nil]

/-! ## Connections that fail -/

/-- Outputs that differ at most in whether their connections deliver. -/
structure Alike (o o' : Output) : Prop where
  active : o'.active = o.active
  isOpen : o'.isOpen = o.isOpen

/-- Effects that differ at most in whether the connection delivers afterwards. -/
structure Effect.Alike (e e' : Effect) : Prop where
  output : e.output.Alike e'.output
  signals : e'.signals = e.signals
  fault : e'.fault = e.fault

/-- A call to which it makes no difference whether the connection delivers. -/
def Heedless (f : Output → Effect) : Prop := ∀ ⦃o o'⦄, o.Alike o' → (f o).Alike (f o')

theorem Alike.unchanged (h : o.Alike o') : o.unchanged.Alike o'.unchanged := ⟨h, rfl, rfl⟩

theorem Alike.setActive (h : o.Alike o') (active : List (Int × Int)) :
    Alike { o with active } { o' with active } := ⟨rfl, h.isOpen⟩

theorem Alike.setFailing (h : o.Alike o') (failing : Bool) : o.Alike (o'.setFailing failing) :=
  ⟨h.active, (Option.isSome_map ..).trans h.isOpen⟩

theorem Effect.Alike.andThen {e e' : Effect} {f g : Output → Effect} (he : e.Alike e')
    (hf : ∀ ⦃o o'⦄, o.Alike o' → (f o).Alike (g o')) : (e.andThen f).Alike (e'.andThen g) := by
  unfold Effect.andThen
  rw [he.fault]
  split
  · exact he
  · have hrest := hf he.output
    exact ⟨hrest.output, congrArg₂ _ he.signals hrest.signals, hrest.fault⟩

theorem heedless_send (message : Except Message.Fault Message) : Heedless (·.send message) := by
  intro o o' h
  cases message with
  | error fault => exact ⟨h, rfl, rfl⟩
  | ok m =>
    refine ⟨h, ?_, rfl⟩
    simp only [send, h.isOpen]

theorem heedless_sequence {calls : List (Output → Effect)} (hcalls : ∀ f ∈ calls, Heedless f) :
    Heedless (·.sequence calls) := by
  induction calls with
  | nil => exact fun o o' h => h.unchanged
  | cons f calls ih =>
    obtain ⟨hf, hrest⟩ := List.forall_mem_cons.mp hcalls
    intro o o' h
    simp only [sequence_cons]
    exact (hf h).andThen (ih hrest)

theorem heedless_releaseAll : Heedless releaseAll := by
  intro o o' h
  have hsends : Heedless fun o'' =>
      o''.sequence (o.sounding.map fun p o => o.send (Message.ofNoteOff p.1 p.2)) := by
    refine heedless_sequence fun f hf => ?_
    obtain ⟨p, -, rfl⟩ := List.mem_map.mp hf
    exact heedless_send _
  have hsounding : o'.sounding = o.sounding := congrArg (List.mergeSort · pairLe) h.active
  rw [releaseAll, releaseAll, hsounding]
  exact (hsends h).andThen fun _ _ h => (h.setActive []).unchanged

theorem heedless_silence : Heedless silence := by
  refine heedless_sequence fun f hf => ?_
  obtain ⟨channel, -, hf⟩ := List.mem_flatMap.mp hf
  obtain ⟨controller, -, rfl⟩ := List.mem_map.mp hf
  exact heedless_send _

theorem heedless_panic : Heedless panic :=
  fun _ _ h => (heedless_releaseAll h).andThen heedless_silence

theorem heedless_close : Heedless close := by
  intro o o' h
  rw [close, close, h.isOpen]
  split
  · exact (heedless_panic h).andThen fun _ _ h => ⟨⟨h.active, rfl⟩, rfl, rfl⟩
  · exact h.unchanged

theorem heedless_perform (call : Call) : Heedless call.perform := by
  intro o o' h
  cases call with
  | programChange channel program => exact heedless_send _ h
  | noteOn k velocity =>
    simp only [Call.perform, noteOn, h.active]
    split
    · exact h.unchanged
    · exact heedless_send _ (h.setActive _)
  | noteOff k =>
    simp only [Call.perform, noteOff, h.active]
    split
    · exact heedless_send _ (h.setActive _)
    · exact h.unchanged
  | releaseAll => exact heedless_releaseAll h
  | panic => exact heedless_panic h
  | close => exact heedless_close h
  | setFailing failing =>
    exact Alike.unchanged
      ⟨h.active, ((Option.isSome_map ..).trans h.isOpen).trans (Option.isSome_map ..).symm⟩

/-- Calls attempt the same, and remember the same, without the failures between them. -/
theorem Alike.perform (h : o.Alike o') (calls : List Call) :
    (o.perform (calls.filter Call.isRequest)).Alike (o'.perform calls) := by
  induction calls generalizing o o' with
  | nil => exact h.unchanged
  | cons call calls ih =>
    have hrequest (hcall : call.isRequest = true) :
        (o.perform ((call :: calls).filter Call.isRequest)).Alike (o'.perform (call :: calls)) := by
      rw [List.filter_cons_of_pos hcall, perform_cons, perform_cons]
      exact (heedless_perform call h).andThen fun _ _ h => ih h
    cases call with
    -- left out on one side, and of no effect on the other
    | setFailing failing => exact ih (h.setFailing failing)
    | _ => exact hrequest rfl

/-! ## Any run -/

/-- **The book of an output agrees with the messages over any run.** No call has a fault. While there
is a connection, the keys that are remembered are those whose last message started them. Whatever is
called next, it releases only keys that are remembered; releasing all, and a panic, release each of
them once and in order; after closing nothing more is sent. Failures of the connection between the
calls change neither what is remembered nor what is attempted. -/
theorem isBalanced_perform (connection : Option Connection) (device : Option (List Char))
    (calls : List Call) :
    let start := ofConnection connection device
    let e := start.perform calls
    e.fault = none ∧ e.output.IsBalanced e.signals ∧ (∀ call : Call, call.IsSparing e.output) ∧
      Call.releaseAll.Clears e.output ∧ Call.panic.Clears e.output ∧
      (∀ rest, (e.output.perform (.close :: rest)).signals =
        (Call.close.perform e.output).signals) ∧
      (start.perform (calls.filter Call.isRequest)).Alike e := by
  intro start e
  have hstart : start.IsBalanced [] :=
    ⟨List.nodup_nil, fun _ hp => absurd hp List.not_mem_nil,
      fun _ _ => ⟨fun hk => absurd hk List.not_mem_nil, nofun⟩⟩
  obtain ⟨hfault, hbalanced⟩ := hstart.run calls
  exact ⟨hfault, hbalanced, hbalanced.isSparing, hbalanced.clears_releaseAll,
    hbalanced.clears_panic, hbalanced.signals_close_cons, Alike.perform ⟨rfl, rfl⟩ calls⟩

end Monody.Output
