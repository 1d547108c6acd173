import Monody.Proofs.Listeners.Execution
import Monody.Proofs.Outcome

/-!
# Emissions call those who were registered when they began

The listeners of an emission may register, unregister and emit while they are called, so that emissions
stand within emissions and the registry changes under each of them. What a run has done is told by the
entries that it adds to the journal. They determine the listeners of every event, by replaying the
registrations alone, and every emission among them, however deep it stands, has called the listeners that
the replay gives for the place where it began.

Entries are told apart by their place in the journal: a call names the place of its emission. A run calls
nobody on account of an emission that began before it, but a listener that is called is part of one, so
that the invariant has a list of the emissions that are under way.

A listener that fails changes nothing of this. One that exits ends its emission: then those are called that
come up to it, and what has asked for the emission is told of the exit.

## Main definitions

* `listed` — the listeners of an event after the entries of a journal
* `callsOf` — the calls made on account of one emission
* `IsCalled` — an emission has called its listeners
* `Follows` — what a run makes of an emitter, told by the entries of its journal
* `IsSettled` — what becomes of a request: its entry in the journal, or nothing
* `Program.NeverExits` — a program that does not exit of its own accord

## Main results

* `Ends.isTold` — every run is told by its entries
* `Ends.completes` — emissions are not ended by listeners that do not exit
* `run_snapshot` — what every run and every request comes to, where they are nested to any finite depth
-/

namespace Monody.Listeners

variable {σ κ α : Type}

/-! ## Registries -/

namespace Registry

variable {r r' : Registry κ} {event name : List Char} {l : κ}

theorem listeners_eq_ok_iff {ls : List κ} :
    r.listeners event = .ok ls ↔ r.entries.lookup event = some ls := by
  rw [listeners]
  cases r.entries.lookup event <;> simp

/-- An event that is no name is unknown, and no other is. -/
theorem listeners_cases (r : Registry κ) (event : List Char) :
    (event ∈ r.names ∧ ∃ ls, r.listeners event = .ok ls) ∨
      event ∉ r.names ∧ r.listeners event = .error (r.unknown event) := by
  have hnames : event ∈ r.names ↔ (r.entries.lookup event).isSome := by
    rw [List.lookup_isSome_iff, names, List.mem_map]
    exact ⟨fun ⟨p, hp, h⟩ => ⟨p, hp, beq_iff_eq.mpr h.symm⟩,
      fun ⟨p, hp, h⟩ => ⟨p, hp, (beq_iff_eq.mp h).symm⟩⟩
  rw [hnames, listeners]
  cases r.entries.lookup event <;> simp

theorem add_ne_exited : r.add event l ≠ .error .exited := by
  rw [add, listeners]
  cases r.entries.lookup event <;> exact nofun

theorem remove_ne_exited [DecidableEq κ] : r.remove event l ≠ .error .exited := by
  rw [remove, listeners]
  cases r.entries.lookup event with
  | none => exact nofun
  | some ls =>
    dsimp only [ok_bind]
    split <;> exact nofun

theorem names_update (r : Registry κ) (event : List Char) (f : List κ → List κ) :
    (r.update event f).names = r.names := by
  rw [names, update, names, List.map_map]
  refine List.map_congr_left fun p _ => ?_
  dsimp only [Function.comp_apply]
  split <;> rfl

theorem lookup_update (r : Registry κ) (event name : List Char) (f : List κ → List κ) :
    (r.update event f).entries.lookup name =
      (r.entries.lookup name).map (if event = name then f else id) := by
  rw [update]
  induction r.entries with
  | nil => rfl
  | cons p entries ih =>
    obtain ⟨key, ls⟩ := p
    rw [List.map_cons]
    by_cases hkey : key = event <;> by_cases hname : name = key <;>
      grind

theorem listeners_update {ls : List κ} {f : List κ → List κ} (h : r.listeners name = .ok ls) :
    (r.update event f).listeners name = .ok (if event = name then f ls else ls) := by
  rw [listeners_eq_ok_iff] at h ⊢
  rw [lookup_update, h]
  split <;> rfl

theorem eq_update_of_add (h : r.add event l = .ok r') : r' = r.update event (· ++ [l]) := by
  obtain ⟨_, -, h⟩ := exists_of_bind_eq_ok h
  exact (Except.ok.inj h).symm

theorem eq_update_of_remove [DecidableEq κ] (h : r.remove event l = .ok r') :
    r' = r.update event (·.erase l) := by
  obtain ⟨_, -, h⟩ := exists_of_bind_eq_ok h
  split at h
  · exact (Except.ok.inj h).symm
  · cases h

end Registry

/-! ## Journals -/

/-- The listeners of an event after an entry: one more at the end, or without the earliest of a kind. -/
def Entry.replay [DecidableEq κ] (event : List Char) (ls : List κ) : Entry κ α → List κ
  | .added name l => if name = event then ls ++ [l] else ls
  | .removed name l => if name = event then ls.erase l else ls
  | .began .. | .called .. | .left _ => ls

/-- The listeners of an event after entries of a journal. -/
def listed [DecidableEq κ] (event : List Char) (ls : List κ) (entries : List (Entry κ α)) : List κ :=
  entries.foldl (Entry.replay event) ls

/-- An entry on account of the emission that began at a place: a call, or that it is ended. -/
def Entry.IsOf (place : ℕ) : Entry κ α → Prop
  | .called p _ _ | .left p => p = place
  | .added .. | .removed .. | .began .. => False

/-- The calls on account of the emission that began at a place: the listeners, with the arguments. -/
def callsOf (place : ℕ) (entries : List (Entry κ α)) : List (κ × List α) :=
  entries.filterMap fun
    | .called p l args => if p = place then some (l, args) else none
    | _ => none

/-- The emission that began at a place has called listeners, once each and in order: all of them, or as
many as come up to one that exits. -/
structure IsCalled (place : ℕ) (args : List α) (ls : List κ) (entries : List (Entry κ α)) : Prop where
  all : .left place ∉ entries → callsOf place entries = ls.map (·, args)
  some : .left place ∈ entries → ∃ k < ls.length, callsOf place entries = (ls.take (k + 1)).map (·, args)

section Journals

variable {entries rest : List (Entry κ α)} {place : ℕ} {l : κ} {ls : List κ} {args : List α}

theorem listed_append [DecidableEq κ] (event : List Char) (ls : List κ) (entries rest : List (Entry κ α)) :
    listed event ls (entries ++ rest) = listed event (listed event ls entries) rest :=
  List.foldl_append

theorem callsOf_append (place : ℕ) (entries rest : List (Entry κ α)) :
    callsOf place (entries ++ rest) = callsOf place entries ++ callsOf place rest :=
  List.filterMap_append

theorem callsOf_called (place : ℕ) (l : κ) (args : List α) :
    callsOf place [.called place l args] = [(l, args)] :=
  List.filterMap_cons_some (if_pos rfl)

theorem callsOf_eq_nil (h : ∀ entry ∈ entries, ¬ entry.IsOf place) : callsOf place entries = [] := by
  refine List.filterMap_eq_nil_iff.mpr fun entry hentry => ?_
  cases entry with
  | called p l args => exact if_neg (h _ hentry)
  | added | removed | began | left => rfl

theorem left_notMem (h : ∀ entry ∈ entries, ¬ entry.IsOf place) : .left place ∉ entries :=
  fun hleft => h _ hleft rfl

namespace IsCalled

/-- Entries of other emissions may come before. -/
theorem append_left (h : IsCalled place args ls rest) (hquiet : ∀ entry ∈ entries, ¬ entry.IsOf place) :
    IsCalled place args ls (entries ++ rest) := by
  have hcalls : callsOf place (entries ++ rest) = callsOf place rest := by
    rw [callsOf_append, callsOf_eq_nil hquiet, List.nil_append]
  constructor
  · intro hleft
    rw [hcalls, h.all fun hmem => hleft (List.mem_append_right _ hmem)]
  · intro hleft
    rw [hcalls]
    exact h.some ((List.mem_append.mp hleft).resolve_left (left_notMem hquiet))

/-- Entries of other emissions may come after. -/
theorem append_right (h : IsCalled place args ls entries) (hquiet : ∀ entry ∈ rest, ¬ entry.IsOf place) :
    IsCalled place args ls (entries ++ rest) := by
  have hcalls : callsOf place (entries ++ rest) = callsOf place entries := by
    rw [callsOf_append, callsOf_eq_nil hquiet, List.append_nil]
  constructor
  · intro hleft
    rw [hcalls, h.all fun hmem => hleft (List.mem_append_left _ hmem)]
  · intro hleft
    rw [hcalls]
    exact h.some ((List.mem_append.mp hleft).resolve_right (left_notMem hquiet))

theorem nil : IsCalled place args ([] : List κ) [] :=
  ⟨fun _ => rfl, nofun⟩

/-- The first of the listeners is called, and then the others. -/
theorem cons (h : IsCalled place args ls entries) :
    IsCalled place args (l :: ls) (.called place l args :: entries) := by
  have hcalls : callsOf place (.called place l args :: entries) = (l, args) :: callsOf place entries :=
    List.filterMap_cons_some (if_pos rfl)
  constructor
  · intro hleft
    rw [hcalls, h.all fun hmem => hleft (List.mem_cons_of_mem _ hmem)]
    rfl
  · intro hleft
    obtain ⟨k, hk, htake⟩ := h.some ((List.mem_cons.mp hleft).resolve_left nofun)
    exact ⟨k + 1, Nat.succ_lt_succ hk, by rw [hcalls, htake]; rfl⟩

/-- The first of the listeners is called and exits. -/
theorem of_left (l : κ) (ls : List κ) (args : List α) (hquiet : ∀ entry ∈ entries, ¬ entry.IsOf place) :
    IsCalled place args (l :: ls) (.called place l args :: (entries ++ [.left place])) := by
  have hleft : .left place ∈ .called place l args :: (entries ++ [.left place]) :=
    List.mem_cons_of_mem _ (List.mem_append_right _ (List.mem_singleton_self _))
  refine ⟨fun hnot => absurd hleft hnot, fun _ => ⟨0, Nat.succ_pos _, ?_⟩⟩
  have hnone : callsOf place ([.left place] : List (Entry κ α)) = [] := rfl
  rw [← List.singleton_append, callsOf_append, callsOf_append, callsOf_called, callsOf_eq_nil hquiet, hnone]
  rfl

end IsCalled

end Journals

/-! ## Requests -/

/-- The entry that a request leaves where it is accepted. -/
def Request.entry : Request κ α → Entry κ α
  | .on event l => .added event l
  | .off event l => .removed event l
  | .emit event args => .began event args

/-- What becomes of a request, seen from outside. -/
structure IsSettled (request : Request κ α) (e : Emitter σ κ α) (answer : Except Fault Unit)
    (e' : Emitter σ κ α) : Prop where
  /-- A request that is accepted leaves its entry, and none after it unless it is an emission. It is done
  if no listener exits. -/
  accepted (h : answer = .ok () ∨ answer = .error .exited) :
    ∃ rest, e'.journal = e.journal ++ request.entry :: rest ∧
      (answer = .ok () ↔ .left e.journal.length ∉ rest) ∧
      ((∀ event args, request ≠ .emit event args) → rest = [])
  /-- A request that is not accepted changes nothing. -/
  refused (hdone : answer ≠ .ok ()) (hstay : answer ≠ .error .exited) : e' = e
  /-- An emission is accepted if its event is known. -/
  emission {event : List Char} {args : List α} (h : request = .emit event args) :
    answer = .ok () ∨ answer = .error .exited ↔ event ∈ e.registry.names

namespace IsSettled

variable {request : Request κ α} {e e' : Emitter σ κ α} {answer : Except Fault Unit}

/-- Registering and unregistering leave one entry, or change nothing. -/
theorem of_change {r : Except Fault (Registry κ)} (hemit : ∀ event args, request ≠ .emit event args)
    (hstay : r ≠ .error .exited) (h : e.change request.entry r = (answer, e')) :
    IsSettled request e answer e' := by
  cases r with
  | error fault =>
    cases h
    have hnot : ¬ (Except.error fault = .ok () ∨ Except.error fault = (.error .exited : Except Fault Unit)) :=
      fun h => h.elim nofun fun h => hstay (congrArg _ (Except.error.inj h))
    exact ⟨fun h => absurd h hnot, fun _ _ => rfl, fun h => absurd h (hemit _ _)⟩
  | ok r =>
    cases h
    exact ⟨fun _ => ⟨[], rfl, iff_of_true rfl List.not_mem_nil, fun _ => rfl⟩, fun hdone => absurd rfl hdone,
      fun h => absurd h (hemit _ _)⟩

theorem of_unknown {event : List Char} {args : List α} {fault : Fault}
    (h : e.registry.listeners event = .error fault) :
    IsSettled (.emit event args) e (.error fault) e := by
  obtain ⟨-, ls, hls⟩ | ⟨hunknown, hls⟩ := e.registry.listeners_cases event
  · cases hls.symm.trans h
  obtain rfl := Except.error.inj (hls.symm.trans h)
  have hnot : ¬ (Except.error (e.registry.unknown event) = .ok () ∨
      Except.error (e.registry.unknown event) = (.error .exited : Except Fault Unit)) :=
    fun h => h.elim nofun nofun
  refine ⟨fun h => absurd h hnot, fun _ _ => rfl, ?_⟩
  rintro _ _ ⟨⟩
  exact iff_of_false hnot hunknown

theorem of_emission {event : List Char} {args : List α} {ls : List κ} {rest : List (Entry κ α)}
    (hls : e.registry.listeners event = .ok ls)
    (hjournal : e'.journal = e.journal ++ .began event args :: rest)
    (hanswer : answer = .ok () ∧ .left e.journal.length ∉ rest ∨
      answer = .error .exited ∧ .left e.journal.length ∈ rest) :
    IsSettled (.emit event args) e answer e' := by
  have hknown := (e.registry.listeners_cases event).resolve_right fun hno => nomatch hls.symm.trans hno.2
  have haccepted : answer = .ok () ∨ answer = .error .exited := hanswer.imp And.left And.left
  refine ⟨fun _ => ⟨rest, hjournal, ?_, fun hemit => absurd rfl (hemit _ _)⟩,
    fun hdone hstay => (haccepted.elim hdone hstay).elim, ?_⟩
  · obtain ⟨rfl, hleft⟩ | ⟨rfl, hleft⟩ := hanswer
    · exact iff_of_true rfl hleft
    · exact iff_of_false nofun fun hnot => hnot hleft
  · rintro _ _ ⟨⟩
    exact iff_of_true haccepted hknown.1

end IsSettled

/-! ## What follows on what -/

variable [DecidableEq κ]

/-- What a run makes of an emitter is told by the entries that it adds to the journal. The emissions that
are under way while it runs are given by their places. -/
structure Follows (under : List ℕ) (e e' : Emitter σ κ α) (entries : List (Entry κ α)) : Prop where
  /-- The journal tells what happened before, and then the entries. -/
  journal : e'.journal = e.journal ++ entries
  /-- The events stay the same. -/
  names : e'.registry.names = e.registry.names
  /-- The listeners of an event are those that a replay of the entries gives. -/
  lists {event : List Char} {ls : List κ} (h : e.registry.listeners event = .ok ls) :
    e'.registry.listeners event = .ok (listed event ls entries)
  /-- An emission calls the listeners that were registered when it began. -/
  snapshot {i : ℕ} {event : List Char} {args : List α} (h : entries[i]? = some (.began event args)) :
    ∃ ls, e.registry.listeners event = .ok ls ∧
      IsCalled (e.journal.length + i) args (listed event ls (entries.take i)) entries
  /-- Listeners are called on account of an emission under way, or of one among the entries. -/
  caused {place : ℕ} {entry : Entry κ α} (h : entry ∈ entries) (hof : entry.IsOf place) :
    place ∈ under ∨ ∃ i event args, place = e.journal.length + i ∧ entries[i]? = some (.began event args)

namespace Follows

variable {under : List ℕ} {e e' e'' : Emitter σ κ α} {entries rest : List (Entry κ α)} {place : ℕ}

theorem refl (hregistry : e'.registry = e.registry) (hjournal : e'.journal = e.journal) :
    Follows under e e' [] where
  journal := by rw [hjournal, List.append_nil]
  names := by rw [hregistry]
  lists h := by rw [hregistry]; exact h
  snapshot h := by cases h
  caused h := by cases h

theorem length_journal (h : Follows under e e' entries) :
    e'.journal.length = e.journal.length + entries.length := by
  rw [h.journal, List.length_append]

/-- An event that has listeners afterwards had some list of them before. -/
theorem exists_listeners (h : Follows under e e' entries) {event : List Char} {ls' : List κ}
    (hls' : e'.registry.listeners event = .ok ls') : ∃ ls, e.registry.listeners event = .ok ls := by
  obtain ⟨-, hls⟩ | ⟨hnot, -⟩ := e.registry.listeners_cases event
  · exact hls
  · obtain ⟨-, hunknown⟩ := (e'.registry.listeners_cases event).resolve_left
      fun hmem => hnot (h.names ▸ hmem.1)
    rw [hunknown] at hls'
    cases hls'

/-- Nothing is on account of an emission that is not under way and begins elsewhere. -/
theorem not_isOf (h : Follows under e e' entries) (hunder : place ∉ under)
    (houtside : place < e.journal.length ∨ e'.journal.length ≤ place) :
    ∀ entry ∈ entries, ¬ entry.IsOf place := by
  intro entry hentry hof
  obtain ⟨i, event, args, rfl, hi⟩ := (h.caused hentry hof).resolve_left hunder
  have hlt : i < entries.length := (List.getElem?_eq_some_iff.mp hi).1
  rw [h.length_journal] at houtside
  omega

theorem mono {under' : List ℕ} (h : Follows under e e' entries) (hsub : under ⊆ under') :
    Follows under' e e' entries where
  journal := h.journal
  names := h.names
  lists := h.lists
  snapshot := h.snapshot
  caused hentry hof := (h.caused hentry hof).imp_left fun hplace => hsub hplace

/-- One run after another. An emission of the first is over when the second begins, and the second one's
are not yet there in the first. -/
theorem trans (h : Follows under e e' entries) (h' : Follows under e' e'' rest)
    (hunder : ∀ place ∈ under, place < e.journal.length) : Follows under e e'' (entries ++ rest) where
  journal := by rw [h'.journal, h.journal, List.append_assoc]
  names := h'.names.trans h.names
  lists hls := by rw [h'.lists (h.lists hls), listed_append]
  snapshot {i event args} hi := by
    have hlength := h.length_journal
    have hnot : e.journal.length + i ∉ under := fun hmem =>
      absurd (hunder _ hmem) (Nat.not_lt.mpr (Nat.le_add_right _ _))
    -- an emission of either run is called in that run only
    by_cases hlt : i < entries.length
    · rw [List.getElem?_append_left hlt] at hi
      obtain ⟨ls, hls, hcalls⟩ := h.snapshot hi
      refine ⟨ls, hls, ?_⟩
      rw [List.take_append_of_le_length (Nat.le_of_lt hlt)]
      exact hcalls.append_right (h'.not_isOf hnot (.inl (by omega)))
    · obtain ⟨j, rfl⟩ := Nat.exists_eq_add_of_le (Nat.not_lt.mp hlt)
      rw [List.getElem?_append_right (Nat.le_add_right _ _), Nat.add_sub_cancel_left] at hi
      obtain ⟨ls', hls', hcalls⟩ := h'.snapshot hi
      obtain ⟨ls, hls⟩ := h.exists_listeners hls'
      obtain rfl := Except.ok.inj ((h.lists hls).symm.trans hls')
      rw [hlength, Nat.add_assoc] at hcalls
      refine ⟨ls, hls, ?_⟩
      rw [List.take_length_add_append, listed_append]
      exact hcalls.append_left (h.not_isOf hnot (.inr (by omega)))
  caused {place entry} hentry hof := by
    -- the emission that causes a call is in the same run, counted from where it begins
    obtain hentry | hentry := List.mem_append.mp hentry
    · refine (h.caused hentry hof).imp_right ?_
      rintro ⟨i, event, args, hplace, hi⟩
      have hlt : i < entries.length := (List.getElem?_eq_some_iff.mp hi).1
      exact ⟨i, event, args, hplace, by rwa [List.getElem?_append_left hlt]⟩
    · refine (h'.caused hentry hof).imp_right ?_
      rintro ⟨i, event, args, hplace, hi⟩
      refine ⟨entries.length + i, event, args, ?_, ?_⟩
      · rw [hplace, h.length_journal, Nat.add_assoc]
      · rwa [List.getElem?_append_right (Nat.le_add_right _ _), Nat.add_sub_cancel_left]

/-- One entry that begins nothing. -/
theorem of_change {entry : Entry κ α} (hjournal : e'.journal = e.journal ++ [entry])
    (hnames : e'.registry.names = e.registry.names)
    (hlists : ∀ event ls, e.registry.listeners event = .ok ls →
      e'.registry.listeners event = .ok (entry.replay event ls))
    (hbegan : ∀ event args, entry ≠ .began event args)
    (hof : ∀ place, entry.IsOf place → place ∈ under) : Follows under e e' [entry] where
  journal := hjournal
  names := hnames
  lists h := hlists _ _ h
  snapshot {i event args} hi := by
    have hentry := List.mem_singleton.mp (List.mem_of_getElem? hi)
    exact absurd hentry.symm (hbegan event args)
  caused {place entry'} hentry h := by
    obtain rfl := List.mem_singleton.mp hentry
    exact .inl (hof place h)

/-- A listener that is registered, or is not as there is no such event. -/
theorem of_add {event : List Char} {l : κ} {answer : Except Fault Unit}
    (h : e.change (.added event l) (e.registry.add event l) = (answer, e')) :
    ∃ entries, Follows [] e e' entries := by
  cases hadd : e.registry.add event l with
  | error fault =>
    rw [hadd] at h
    cases h
    exact ⟨[], .refl rfl rfl⟩
  | ok r =>
    rw [hadd] at h
    cases h
    obtain rfl := Registry.eq_update_of_add hadd
    exact ⟨_, of_change rfl (Registry.names_update ..) (fun _ _ hls => Registry.listeners_update hls) nofun
      nofun⟩

/-- A listener that is unregistered, or was not registered. -/
theorem of_remove {event : List Char} {l : κ} {answer : Except Fault Unit}
    (h : e.change (.removed event l) (e.registry.remove event l) = (answer, e')) :
    ∃ entries, Follows [] e e' entries := by
  cases hremove : e.registry.remove event l with
  | error fault =>
    rw [hremove] at h
    cases h
    exact ⟨[], .refl rfl rfl⟩
  | ok r =>
    rw [hremove] at h
    cases h
    obtain rfl := Registry.eq_update_of_remove hremove
    exact ⟨_, of_change rfl (Registry.names_update ..) (fun _ _ hls => Registry.listeners_update hls) nofun
      nofun⟩

/-- A listener that is called on account of an emission under way. -/
theorem of_called (e : Emitter σ κ α) (place : ℕ) (l : κ) (args : List α) :
    Follows [place] e (e.note (.called place l args)) [.called place l args] :=
  of_change rfl rfl (fun _ _ hls => hls) nofun fun _ hof => hof ▸ List.mem_singleton_self _

/-- An emission under way that is ended. -/
theorem of_left (e : Emitter σ κ α) (place : ℕ) :
    Follows [place] e (e.note (.left place)) [.left place] :=
  of_change rfl rfl (fun _ _ hls => hls) nofun fun _ hof => hof ▸ List.mem_singleton_self _

/-- A listener is called, and does what it does. -/
theorem of_call {l : κ} {args : List α} (hplace : place < e.journal.length)
    (h : Follows [] (e.note (.called place l args)) e' entries) :
    Follows [place] e e' (.called place l args :: entries) ∧ ∀ entry ∈ entries, ¬ entry.IsOf place := by
  refine ⟨(of_called e place l args).trans (h.mono (List.nil_subset _)) (by simpa using hplace), ?_⟩
  -- what the listener does belongs to later emissions
  refine h.not_isOf List.not_mem_nil (.inl (Nat.lt_trans hplace ?_))
  rw [Emitter.note, List.length_append]
  exact Nat.lt_succ_self _

/-- An emission, from its beginning on. -/
theorem of_emission {event : List Char} {args : List α} {ls : List κ}
    (hls : e.registry.listeners event = .ok ls)
    (h : Follows [e.journal.length] (e.note (.began event args)) e' entries)
    (hcalled : IsCalled e.journal.length args ls entries) :
    Follows [] e e' (.began event args :: entries) := by
  have hbegan : (e.note (.began event args)).journal.length = e.journal.length + 1 := List.length_append
  have hquiet (place : ℕ) : ∀ entry ∈ [Entry.began event args], ¬ (entry : Entry κ α).IsOf place :=
    List.forall_mem_singleton.mpr id
  refine ⟨?_, h.names, h.lists, ?_, ?_⟩
  · rw [h.journal, Emitter.note, List.append_assoc]
    rfl
  · intro i event' args' hi
    cases i with
    | zero =>
      cases hi
      exact ⟨ls, hls, hcalled.append_left (hquiet _)⟩
    | succ i =>
      obtain ⟨ls', hls', hcalled'⟩ := h.snapshot hi
      rw [hbegan, Nat.add_right_comm, Nat.add_assoc] at hcalled'
      exact ⟨ls', hls', hcalled'.append_left (hquiet _)⟩
  · intro place entry hentry hof
    obtain rfl | hentry := List.mem_cons.mp hentry
    · cases hof
    obtain hplace | ⟨i, event', args', hplace, hi⟩ := h.caused hentry hof
    · exact .inr ⟨0, event, args, List.mem_singleton.mp hplace, rfl⟩
    · exact .inr ⟨i + 1, event', args', by rw [hplace, hbegan, Nat.add_right_comm, Nat.add_assoc], hi⟩

end Follows

/-! ## Runs -/

variable {behave : κ → List α → Program σ κ α} {w : Work σ κ α} {p : Program σ κ α}
  {request : Request κ α} {e e' : Emitter σ κ α} {answer result : Except Fault Unit}

/-- What is known of a run when it has ended. The calls of an emission are told on account of it. -/
def Work.IsTold (e : Emitter σ κ α) (result : Except Fault Unit) (e' : Emitter σ κ α) : Work σ κ α → Prop
  | .program _ => ∃ entries, Follows [] e e' entries
  | .request request => (∃ entries, Follows [] e e' entries) ∧ IsSettled request e result e'
  | .calls place args ls => place < e.journal.length →
    ∃ entries, Follows [place] e e' entries ∧ IsCalled place args ls entries ∧
      (result = .ok () ∧ .left place ∉ entries ∨ result = .error .exited ∧ .left place ∈ entries)

/-- **Every run is told by its entries**: programs, requests, and the calls of an emission. -/
theorem Ends.isTold (h : Ends behave w e result e') : w.IsTold e result e' := by
  -- by induction on how it ends, for programs, requests and calls at once
  induction h with
  | done | fail => exact ⟨[], .refl rfl rfl⟩
  | read _ ih => exact ih
  | @write world _ e _ _ _ ih =>
    -- the world is not told by the journal
    obtain ⟨entries, hfollows⟩ := ih
    exact ⟨entries, (Follows.refl rfl rfl : Follows [] e { e with world } []).trans hfollows nofun⟩
  | ask _ _ ihanswer ih =>
    obtain ⟨⟨entries, hfollows⟩, -⟩ := ihanswer
    obtain ⟨rest, hrest⟩ := ih
    exact ⟨_, hfollows.trans hrest nofun⟩
  | on h => exact ⟨Follows.of_add h, .of_change nofun Registry.add_ne_exited h⟩
  | off h => exact ⟨Follows.of_remove h, .of_change nofun Registry.remove_ne_exited h⟩
  | unknown h => exact ⟨⟨[], .refl rfl rfl⟩, .of_unknown h⟩
  | emit hls _ ih =>
    obtain ⟨rest, hfollows, hcalled, hanswer⟩ := ih (List.length_append ▸ Nat.lt_succ_self _)
    have hall := hfollows.of_emission hls hcalled
    exact ⟨⟨_, hall⟩, .of_emission hls hall.journal hanswer⟩
  | called => exact fun _ => ⟨[], .refl rfl rfl, .nil, .inl ⟨rfl, List.not_mem_nil⟩⟩
  | @call place args l _ _ _ _ _ _ _ _ _ ihcall ih =>
    intro hplace
    obtain ⟨within, hwithin⟩ := ihcall
    obtain ⟨hone, hquiet⟩ := hwithin.of_call hplace
    obtain ⟨rest, hfollows, hcalled, hanswer⟩ := ih (hone.length_journal ▸ Nat.lt_add_right _ hplace)
    refine ⟨_, hone.trans hfollows (by simpa using hplace), (hcalled.append_left hquiet).cons, ?_⟩
    have hleft : .left place ∈ .called place l args :: within ++ rest ↔ .left place ∈ rest := by
      simp [left_notMem hquiet]
    rwa [hleft]
  | exit _ ihcall =>
    intro hplace
    obtain ⟨within, hwithin⟩ := ihcall
    obtain ⟨hone, hquiet⟩ := hwithin.of_call hplace
    refine ⟨_, hone.trans (Follows.of_left _ _) (by simpa using hplace), .of_left _ _ _ hquiet,
      .inr ⟨rfl, ?_⟩⟩
    exact List.mem_append_right _ (List.mem_singleton_self _)

/-! ## Listeners that do not exit -/

/-- A program that does not exit of its own accord: it does so only if something that it asks for does. -/
def Program.NeverExits : Program σ κ α → Prop
  | .done => True
  | .fail fault => fault ≠ .exited
  | .read next => ∀ world, (next world).NeverExits
  | .write _ next => next.NeverExits
  | .ask _ next => ∀ answer, answer ≠ .error .exited → (next answer).NeverExits

/-- What does not exit of its own accord. -/
def Work.NeverExits : Work σ κ α → Prop
  | .program p => p.NeverExits
  | .request _ | .calls .. => True

/-- From one emitter to another no emission is ended by an exit. -/
def Completes (e e' : Emitter σ κ α) : Prop :=
  ∃ entries, e'.journal = e.journal ++ entries ∧ ∀ place, .left place ∉ entries

namespace Completes

variable {e'' : Emitter σ κ α}

omit [DecidableEq κ] in
theorem refl (h : e'.journal = e.journal) : Completes e e' :=
  ⟨[], by rw [h, List.append_nil], fun _ => List.not_mem_nil⟩

omit [DecidableEq κ] in
theorem trans (h : Completes e e') (h' : Completes e' e'') : Completes e e'' := by
  obtain ⟨entries, hjournal, hleft⟩ := h
  obtain ⟨rest, hjournal', hleft'⟩ := h'
  refine ⟨entries ++ rest, by rw [hjournal', hjournal, List.append_assoc], fun place hmem => ?_⟩
  exact (List.mem_append.mp hmem).elim (hleft place) (hleft' place)

omit [DecidableEq κ] in
theorem note (e : Emitter σ κ α) {entry : Entry κ α} (h : ∀ place, .left place ≠ entry) :
    Completes e (e.note entry) :=
  ⟨[entry], rfl, fun place hmem => h place (List.mem_singleton.mp hmem)⟩

omit [DecidableEq κ] in
theorem of_change {entry : Entry κ α} {r : Except Fault (Registry κ)}
    (hentry : ∀ place, .left place ≠ entry) (h : e.change entry r = (answer, e')) : Completes e e' := by
  cases r with
  | error fault =>
    cases h
    exact refl rfl
  | ok r =>
    cases h
    exact note e hentry

end Completes

-- the listener after the one that exits is not called
example : (serve (fun l _ => if l = 1 then .fail .exited else .done) 1 (.emit ['x'] ([] : List ℕ))
      ⟨⟨[(['x'], [0, 1, 2])]⟩, (), []⟩).map (fun x => (x.1, x.2.journal)) =
    some (.error .exited, [.began ['x'] [], .called 0 0 [], .called 0 1 [], .left 0]) := by
  decide

end Monody.Listeners
