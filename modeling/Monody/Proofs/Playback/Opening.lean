import Monody.Proofs.Outcome
import Monody.Proofs.Output
import Monody.Proofs.Playback.Plans

/-!
# The opening of a session

Where no session is active, the state in which a session starts differs from the one before it by a
new session with its parts, by the programs that have been selected, and by the timers of all plans
with one after them that completes the session.

## Main definitions

* `entered` — the state after performers have entered a session by their plans
* `opening` — the state in which a session starts
* `Forms` — plans for the voices that play

## Main results

* `play_eq` — starting a session leads to its opening
* `exists_forms` — voices that are performable have plans
-/

namespace Monody.Playback

open Clock

variable {s : Playback} {id : Nat} {plan : Plan} {plans : List Plan} {speed : Number} {r : Binary64}

/-! ## Performers that enter -/

/-- The message that selects the program of a plan. -/
def Plan.selection (plan : Plan) : Entry := .signal (.message (.program plan.part.channel plan.program))

/-- The state after performers have entered a session by their plans. -/
def entered (id : Nat) (plans : List Plan) (s : Playback) : Playback :=
  { s with
    sessions := s.sessions.modify id fun session =>
      { session with parts := session.parts ++ plans.map (·.part) }
    clock := { s.clock with
      queue := insertAll (plans.flatMap (·.timers s.clock.now id)) s.clock.queue }
    log := s.log ++ plans.map (·.selection) }

theorem entered_nil (id : Nat) (s : Playback) : entered id [] s = s := by
  simp only [entered, List.map_nil, List.append_nil, List.flatMap_nil, insertAll_nil]
  exact congrArg (fun sessions => { s with sessions }) (List.modify_id id s.sessions)

theorem entered_cons (id : Nat) (plan : Plan) (plans : List Plan) (s : Playback) :
    entered id plans (entered id [plan] s) = entered id (plan :: plans) s := by
  simp only [entered, List.modify_modify_eq, Function.comp_def, List.flatMap_cons, List.flatMap_nil,
    List.map_cons, List.map_nil, List.append_assoc, List.cons_append, List.nil_append, List.append_nil,
    insertAll_append]

theorem foldl_after_eq (id : Nat) (part : Part) (ks : List (Binary64 × Nat)) (s : Playback) :
    ks.foldl (fun s k => s.after k.1 id (.strike part k.2)) s =
      { s with clock := { s.clock with
        queue := insertAll (ks.map fun k => timerAfter s.clock.now k.1 id (.strike part k.2))
          s.clock.queue } } := by
  induction ks generalizing s with
  | nil => rfl
  | cons k ks ih => exact ih (s.after k.1 id (.strike part k.2))

theorem enter_eq (hopen : s.output.isOpen = true) (plan : Plan) :
    enter id plan s = entered id [plan] s := by
  have hprogram := Output.programChange_eq hopen plan.part.channel plan.program
  simp only [enter, foldl_after_eq, entered, Plan.timers, List.flatMap_cons, List.flatMap_nil,
    List.append_nil, insertAll_append, through, update, hprogram]
  rfl

/-- All performers of a cast enter by their plans. -/
theorem enterAll_eq (id : Nat) {cast : List (Nat × Nat)} (hopen : s.output.isOpen = true)
    (h : List.Forall₂ (fun c plan => ∃ p, s.performers[c.2]? = some p ∧
      planOf speed c.1 c.2 p.voice = .ok plan) cast plans) :
    enterAll id speed cast s = (.ok (), entered id plans s) := by
  induction cast generalizing s plans with
  | nil =>
    obtain rfl := List.forall₂_nil_left_iff.mp h
    rw [entered_nil]
    rfl
  | cons c cast ih =>
    obtain ⟨plan, plans, ⟨p, hp, hplan⟩, hrest, rfl⟩ := List.forall₂_cons_left_iff.mp h
    simp only [enterAll, hp, hplan, enter_eq hopen, ← entered_cons id plan plans]
    exact ih hopen hrest

/-! ## The opening -/

/-- A session with the parts of some plans. -/
def assembled (speed : Number) (plans : List Plan) : Session :=
  { Session.new speed with parts := plans.map (·.part) }

/-- The timers of a session, in the order in which they are set. -/
def agenda (now : Binary64) (id : Nat) (speed : Number) (plans : List Plan) : List (Timer Task) :=
  plans.flatMap (·.timers now id) ++ [timerAfter now (assembled speed plans).lastEnd id .complete]

/-- The state in which a session starts. -/
def opening (speed : Number) (plans : List Plan) (s : Playback) : Playback :=
  { s with
    sessions := s.sessions ++ [{ assembled speed plans with
      phase := .scheduled
      duration := (assembled speed plans).lastEnd }]
    current := some s.sessions.length
    clock := { s.clock with
      queue := insertAll (agenda s.clock.now s.sessions.length speed plans) s.clock.queue }
    log := s.log ++ plans.map (·.selection) }

theorem modify_concat {α : Type} (as : List α) (a : α) (f : α → α) :
    (as ++ [a]).modify as.length f = as ++ [f a] := by
  induction as with
  | nil => rfl
  | cons b as ih => exact congrArg (b :: ·) ih

/-- A session whose performers have entered is launched. -/
theorem launch_entered (speed : Number) (plans : List Plan) (s : Playback) :
    launch s.sessions.length (entered s.sessions.length plans (s.begin speed)) =
      s.opening speed plans := by
  have hsessions : (entered s.sessions.length plans (s.begin speed)).sessions =
      s.sessions ++ [assembled speed plans] := modify_concat ..
  have hnew : (entered s.sessions.length plans (s.begin speed)).sessions[s.sessions.length]? =
      some (assembled speed plans) := by
    rw [hsessions]
    exact List.getElem?_concat_length
  rw [launch, hnew]
  simp only [update, after_sessions, hsessions, modify_concat]
  rw [opening, agenda, insertAll_append]
  rfl

/-- Where no session is active, starting one leads to its opening. -/
theorem play_eq (hidle : s.current = none) (hopen : s.output.isOpen = true) (hspeed : ¬ speed ≤ 0)
    {performers : List Nat} (hcast : s.castOf performers ≠ [])
    (h : List.Forall₂ (fun c plan => ∃ p, s.performers[c.2]? = some p ∧
      planOf speed c.1 c.2 p.voice = .ok plan) (s.castOf performers) plans)
    (emit : Report → Playback → Playback) :
    play emit performers speed s = (.ok s.sessions.length, s.opening speed plans) := by
  have hstop : stop emit s = s := by rw [stop, hidle]
  have henter := enterAll_eq (s := s.begin speed) s.sessions.length hopen h
  rw [play, if_neg hspeed, if_neg (by simpa using hcast)]
  simp only [hstop, clear_eq emit _ hidle, henter, launch_entered]

/-! ## The voices that play -/

theorem mem_eligible {voices : List Voice} {i : Nat} (h : i ∈ eligible voices) : i < voices.length := by
  obtain ⟨p, hp, rfl⟩ := List.mem_map.mp h
  exact List.snd_lt_of_mem_zipIdx (List.mem_filter.mp hp).1

theorem nodup_eligible (voices : List Voice) : (eligible voices).Nodup := by
  have hsub : (eligible voices).Sublist (voices.zipIdx.map (·.2)) := List.filter_sublist.map _
  rw [List.zipIdx_map_snd] at hsub
  exact List.Nodup.sublist hsub List.nodup_range'

/-- The voices of performers that there are. -/
theorem voicesOf_eq {performers : List Nat} (h : ∀ i ∈ performers, i < s.performers.length) :
    (s.voicesOf performers).length = performers.length ∧ ∀ i : Nat, (s.voicesOf performers)[i]? =
      (performers[i]?).bind fun j => (s.performers[j]?).map (·.voice) := by
  induction performers with
  | nil => exact ⟨rfl, fun _ => rfl⟩
  | cons j performers ih =>
    obtain ⟨hj, hrest⟩ := List.forall_mem_cons.mp h
    obtain ⟨hlength, hget⟩ := ih hrest
    have hcons : s.voicesOf (j :: performers) = s.performers[j].voice :: s.voicesOf performers := by
      rw [voicesOf, List.filterMap_cons, List.getElem?_eq_getElem hj]
      rfl
    rw [hcons]
    refine ⟨congrArg Nat.succ hlength, fun i => ?_⟩
    cases i with
    | zero => exact (congrArg (·.map Performer.voice) (List.getElem?_eq_getElem hj)).symm
    | succ i => exact hget i

/-- The places of a cast are those of the voices that play. -/
theorem castOf_fst {performers : List Nat} (h : ∀ i ∈ performers, i < s.performers.length) :
    (s.castOf performers).map (·.1) = eligible (s.voicesOf performers) := by
  rw [castOf, List.map_filterMap]
  refine (List.filterMap_congr (g := some) fun i hi => ?_).trans List.filterMap_some
  have hlt : i < performers.length := (voicesOf_eq h).1 ▸ mem_eligible hi
  rw [List.getElem?_eq_getElem hlt]
  rfl

/-- No plan comes twice where the places of the parts differ. -/
theorem Plan.ne_of_append {before after : List Plan}
    (h : ((before ++ plan :: after).map (·.part.index)).Nodup) :
    (∀ q ∈ before, q ≠ plan) ∧ ∀ q ∈ after, q ≠ plan := by
  have hpairwise := List.pairwise_append.mp (List.Nodup.of_map _ h)
  refine ⟨fun q hq => hpairwise.2.2 q hq plan List.mem_cons_self, fun q hq => ?_⟩
  exact ((List.pairwise_cons.mp hpairwise.2.1).1 q hq).symm

/-- Plans for the voices that play. -/
structure Forms (s : Playback) (r : Binary64) (voices : List Voice) (plans : List Plan) : Prop where
  indices : plans.map (·.part.index) = eligible voices
  plan : ∀ plan ∈ plans, ∃ v, voices[plan.part.index]? = some v ∧ plan.IsFor s r v

/-- Voices that are performable have plans. -/
theorem exists_forms {performers : List Nat} (h : ∀ i ∈ performers, i < s.performers.length)
    (hvoices : ∀ i ∈ eligible (s.voicesOf performers), ∀ v ∈ (s.voicesOf performers)[i]?,
      v.IsPerformable)
    (hr : speed.toReal = .ok r) (hpos : 0 < r) :
    ∃ plans, Forms s r (s.voicesOf performers) plans ∧
      List.Forall₂ (fun c plan => ∃ p, s.performers[c.2]? = some p ∧
        planOf speed c.1 c.2 p.voice = .ok plan) (s.castOf performers) plans := by
  have hplans : ∀ c ∈ s.castOf performers, ∃ plan : Plan, plan.part.index = c.1 ∧
      (∃ v, (s.voicesOf performers)[plan.part.index]? = some v ∧ plan.IsFor s r v) ∧
      ∃ p, s.performers[c.2]? = some p ∧ planOf speed c.1 c.2 p.voice = .ok plan := by
    intro c hc
    obtain ⟨i, hi, hplace⟩ := List.mem_filterMap.mp hc
    obtain ⟨j, hj, rfl⟩ := Option.map_eq_some_iff.mp hplace
    have hlt := h j (List.mem_of_getElem? hj)
    have hp := List.getElem?_eq_getElem hlt
    have hvoice : (s.voicesOf performers)[i]? = some s.performers[j].voice := by
      rw [(voicesOf_eq h).2, hj, Option.bind_some, hp]
      rfl
    have hv := hvoices i hi _ hvoice
    obtain ⟨velocity, hvelocity, -⟩ := hv.velocity
    refine ⟨planBy r i j _ velocity, rfl, ⟨_, hvoice, ?_, hv, hvelocity, rfl⟩, _, hp, ?_⟩
    · exact congrArg (·.map Performer.voice) hp
    · exact planOf_eq hr hpos hvelocity i j
  -- one plan for each place of the cast, in its order
  obtain ⟨plans, hall⟩ := exists_forall₂ hplans
  refine ⟨plans, ⟨?_, fun plan hplan => ?_⟩, hall.imp fun _ _ h => h.2.2⟩
  · rw [← castOf_fst h]
    exact (map_eq_map_of_forall₂ hall fun _ _ h => h.1.symm).symm
  · obtain ⟨c, -, -, hv, -⟩ := exists_of_mem_right hall plan hplan
    exact hv

namespace Forms

variable {voices : List Voice}

theorem nodup_indices (hforms : Forms s r voices plans) : (plans.map (·.part.index)).Nodup :=
  hforms.indices ▸ nodup_eligible voices

variable (hforms : Forms s r voices plans)
include hforms

theorem eq_of_index {p q : Plan} (hp : p ∈ plans) (hq : q ∈ plans)
    (hindex : p.part.index = q.part.index) : p = q :=
  List.inj_on_of_nodup_map hforms.nodup_indices hp hq hindex

theorem channel_eq (hplan : plan ∈ plans) : plan.part.channel = .ofVoice plan.part.index := by
  obtain ⟨v, -, hfor⟩ := hforms.plan plan hplan
  exact congrArg (·.part.channel) hfor.eq

/-- There are channels enough for fifteen voices. -/
theorem eq_of_channel (hcount : voices.length ≤ 15) {p q : Plan} (hp : p ∈ plans) (hq : q ∈ plans)
    (hchannel : p.part.channel = q.part.channel) : p = q := by
  have hlt {p : Plan} (hp : p ∈ plans) : p.part.index < 15 := by
    have hmem : p.part.index ∈ eligible voices := hforms.indices ▸ List.mem_map_of_mem hp
    exact (mem_eligible hmem).trans_le hcount
  rw [hforms.channel_eq hp, hforms.channel_eq hq] at hchannel
  exact hforms.eq_of_index hp hq (Midi.Channel.ofVoice_inj (hlt hp) (hlt hq) hchannel)

end Forms

end Monody.Playback
