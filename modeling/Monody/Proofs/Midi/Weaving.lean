import Monody.Midi.Export
import Monody.Midi.Pairing
import Monody.Proofs.Sorting

/-!
# Spans woven into a track

The messages of spans are written in the order of their ticks. Where spans overlap, the strokes of some
of them come before others have ended, so that a reader holds several spans at once, also of one note.
Since spans that start later do not end earlier, those that are held end in the order in which they were
struck, and a reader that lets go of the first stroke of a note lets go of the right one.

## Main definitions

* `Span.messages` — the messages of a span
* `Woven` — messages in an order in which every span is struck before it ends, and spans end in order
* `Holds` — the strokes that are held are those of some spans
* `Pairing.unmatched` — the events of a track that let go of a note that is not held

## Main results

* `woven_mergeSort` — sorted by their ticks, the messages of spans are woven
* `Woven.foldl_step` — of woven messages exactly the spans are read
-/

namespace Monody.Midi

variable {velocity : Data} {s : Span} {ss pending coming : List Span} {ms : List PlacedMessage}

namespace Span

/-- The message that strikes the note of a span. -/
def struck (velocity : Data) (s : Span) : PlacedMessage :=
  (s.start, .noteOn s.channel s.note velocity)

/-- The message that lets go of it. -/
def released (s : Span) : PlacedMessage := (s.stop, .noteOff s.channel s.note .zero)

/-- The messages of a span. -/
def messages (velocity : Data) (s : Span) : List PlacedMessage := [s.struck velocity, s.released]

end Span

/-! ## Sorting -/

namespace PlacedMessage

/-- The order that messages are sorted by. -/
theorem not_before_trans (a b c : PlacedMessage) (hab : decide (¬ b.Before a) = true)
    (hbc : decide (¬ c.Before b) = true) : decide (¬ c.Before a) = true := by
  simp only [decide_eq_true_eq, Before, not_or, not_and] at hab hbc ⊢
  omega

theorem not_before_total (a b : PlacedMessage) :
    (decide (¬ b.Before a) || decide (¬ a.Before b)) = true := by
  simp only [Bool.or_eq_true, decide_eq_true_eq, Before, not_or, not_and]
  omega

/-- Messages that were in order among themselves stay so when they are sorted with others. -/
theorem filter_mergeSort (p : PlacedMessage → Bool)
    (h : (ms.filter p).Pairwise fun a b => ¬ b.Before a) :
    (ms.mergeSort fun a b => ¬ Before b a).filter p = ms.filter p :=
  filter_mergeSort_of_pairwise not_before_trans not_before_total
    (h.imp fun hab => decide_eq_true hab)

theorem pairwise_mergeSort (ms : List PlacedMessage) :
    (ms.mergeSort fun a b => ¬ Before b a).Pairwise fun a b => ¬ b.Before a :=
  (List.pairwise_mergeSort not_before_trans not_before_total ms).imp of_decide_eq_true

/-- Whether a message does not let go of a note. -/
def strikes (m : PlacedMessage) : Bool := rank m.2 != 0

end PlacedMessage

open PlacedMessage (strikes)

/-- Messages in an order in which every span is struck before it ends, and spans end in order. Some spans
are held already, the others are still to come. -/
inductive Woven (velocity : Data) : List Span → List Span → List PlacedMessage → Prop
  | nil : Woven velocity [] [] []
  | strike {s : Span} {pending coming : List Span} {ms : List PlacedMessage}
      (h : Woven velocity (pending ++ [s]) coming ms) :
      Woven velocity pending (s :: coming) (s.struck velocity :: ms)
  | release {s : Span} {pending coming : List Span} {ms : List PlacedMessage}
      (h : Woven velocity pending coming ms) :
      Woven velocity (s :: pending) coming (s.released :: ms)

/-- Sorted messages that strike the spans in order and let go of them in order are woven. -/
theorem woven_of_pairwise (hsorted : ms.Pairwise fun a b => ¬ b.Before a)
    (hlong : ∀ s ∈ coming, s.start < s.stop) (hstruck : ms.filter strikes = coming.map (·.struck velocity))
    (hreleased : ms.filter (! strikes ·) = (pending ++ coming).map (·.released)) :
    Woven velocity pending coming ms := by
  induction ms generalizing pending coming with
  | nil =>
    obtain rfl := List.map_eq_nil_iff.mp hstruck.symm
    obtain ⟨rfl, -⟩ := List.append_eq_nil_iff.mp (List.map_eq_nil_iff.mp hreleased.symm)
    exact .nil
  | cons m ms ih =>
    obtain ⟨hfirst, hrestSorted⟩ := List.pairwise_cons.mp hsorted
    cases hm : strikes m with
    | true =>
      rw [List.filter_cons_of_pos hm] at hstruck
      rw [List.filter_cons_of_neg (by simp [hm])] at hreleased
      obtain ⟨s, coming, rfl, rfl, hrest⟩ := List.map_eq_cons_iff.mp hstruck.symm
      refine .strike (ih hrestSorted (fun t ht => hlong t (List.mem_cons_of_mem _ ht)) hrest.symm ?_)
      rw [hreleased, List.append_assoc, List.singleton_append]
    | false =>
      rw [List.filter_cons_of_neg (by simp [hm])] at hstruck
      rw [List.filter_cons_of_pos (by simp [hm])] at hreleased
      obtain ⟨s, rest, hspans, rfl, hrest⟩ := List.map_eq_cons_iff.mp hreleased.symm
      cases pending with
      | cons =>
        obtain ⟨rfl, rfl⟩ := List.cons.inj hspans
        exact .release (ih hrestSorted hlong hstruck hrest.symm)
      | nil =>
        -- the span would end before it is struck
        rw [List.nil_append] at hspans
        have hmem : s.struck velocity ∈ ms := by
          have hmap : s.struck velocity ∈ ms.filter strikes := by
            rw [hstruck, hspans]
            exact List.mem_cons_self
          exact (List.mem_filter.mp hmap).1
        have hlt : s.start < s.stop := hlong s (hspans ▸ List.mem_cons_self)
        exact absurd (.inl hlt) (hfirst _ hmem)

theorem filter_strikes_messages :
    (ss.flatMap (·.messages velocity)).filter strikes = ss.map (·.struck velocity) := by
  induction ss with
  | nil => rfl
  | cons s ss ih =>
    rw [List.flatMap_cons, List.filter_append, ih]
    rfl

theorem filter_releases_messages :
    (ss.flatMap (·.messages velocity)).filter (! strikes ·) = ss.map (·.released) := by
  induction ss with
  | nil => rfl
  | cons s ss ih =>
    rw [List.flatMap_cons, List.filter_append, ih]
    rfl

/-- Spans each of which starts before it ends, and none of which starts or ends before one that stands in
front of it. -/
structure AreStaggered (ss : List Span) : Prop where
  long : ∀ s ∈ ss, s.start < s.stop
  starts : ss.Pairwise (·.start ≤ ·.start)
  stops : ss.Pairwise (·.stop ≤ ·.stop)

/-- Sorted by their ticks, the messages of staggered spans are woven. -/
theorem woven_mergeSort (h : AreStaggered ss) :
    Woven velocity [] ss
      ((ss.flatMap (·.messages velocity)).mergeSort fun a b => ¬ PlacedMessage.Before b a) := by
  refine woven_of_pairwise (PlacedMessage.pairwise_mergeSort _) h.long ?_ ?_
  · rw [PlacedMessage.filter_mergeSort strikes, filter_strikes_messages]
    rw [filter_strikes_messages, List.pairwise_map]
    refine h.starts.imp fun {s t} hst => ?_
    rintro (hlt | ⟨-, hrank⟩)
    · exact Int.not_lt.mpr hst hlt
    · exact Nat.lt_irrefl _ hrank
  · rw [PlacedMessage.filter_mergeSort (! strikes ·), filter_releases_messages, List.nil_append]
    rw [filter_releases_messages, List.pairwise_map]
    refine h.stops.imp fun {s t} hst => ?_
    rintro (hlt | ⟨-, hrank⟩)
    · exact Int.not_lt.mpr hst hlt
    · exact Nat.lt_irrefl _ hrank

/-- No event of sorted messages comes before the event in front of it. -/
theorem delta_nonneg_of_pairwise {last : Int} (hlow : ∀ m ∈ ms, last ≤ m.1)
    (hsorted : ms.Pairwise fun a b => ¬ b.Before a) : ∀ e ∈ eventsFrom last ms, 0 ≤ e.delta := by
  induction ms generalizing last with
  | nil => exact fun e he => absurd he List.not_mem_nil
  | cons m ms ih =>
    obtain ⟨hfirst, hsorted⟩ := List.pairwise_cons.mp hsorted
    refine List.forall_mem_cons.mpr ⟨Int.sub_nonneg_of_le (hlow m List.mem_cons_self), ?_⟩
    refine ih (fun m' hm' => ?_) hsorted
    exact Int.not_lt.mp fun hlt => hfirst m' hm' (.inl hlt)

/-! ## Reading -/

/-- The note of a held note with its channel. -/
def HeldNote.key (h : HeldNote) : Channel × Data := (h.channel, h.note)

namespace Pairing

variable {c : Channel} {n : Data} {held : List HeldNote} {tick : Int}

/-- The strokes of a note that are held. -/
def strokesOf (c : Channel) (n : Data) (held : List HeldNote) : List Int :=
  ((held.find? fun h => h.channel = c ∧ h.note = n).map (·.strokes)).getD []

theorem firstStroke?_eq_head? : firstStroke? c n held = (strokesOf c n held).head? := by
  rw [firstStroke?, strokesOf]
  cases held.find? fun h => h.channel = c ∧ h.note = n <;> rfl

theorem strokesOf_cons (h : HeldNote) :
    strokesOf c n (h :: held) = if h.channel = c ∧ h.note = n then h.strokes else strokesOf c n held := by
  rw [strokesOf, List.find?_cons]
  by_cases hsame : h.channel = c ∧ h.note = n
  · rw [if_pos hsame, decide_eq_true hsame]
    rfl
  · rw [if_neg hsame, decide_eq_false hsame]
    rfl

theorem strokesOf_strike_self : strokesOf c n (strike c n tick held) = strokesOf c n held ++ [tick] := by
  induction held with
  | nil => simp [strike, strokesOf]
  | cons h held ih =>
    rw [strike, strokesOf_cons]
    split
    · next hsame => rw [strokesOf_cons, if_pos hsame]
    · next hother => rw [strokesOf_cons, if_neg hother, ih]

/-- A stroke changes nothing about any other note. -/
theorem strokesOf_strike_of_ne {c' : Channel} {n' : Data} (hne : ¬ (c' = c ∧ n' = n)) :
    strokesOf c n (strike c' n' tick held) = strokesOf c n held := by
  induction held with
  | nil =>
    rw [strike, strokesOf_cons, if_neg hne]
  | cons h held ih =>
    rw [strike]
    split
    · next hsame =>
      have hother : ¬ (h.channel = c ∧ h.note = n) := by
        rw [hsame.1, hsame.2]
        exact hne
      rw [strokesOf_cons, strokesOf_cons, if_neg hother, if_neg hother]
    · rw [strokesOf_cons, strokesOf_cons, ih]

theorem strokesOf_letGo_self : strokesOf c n (letGo c n held) = (strokesOf c n held).tail := by
  induction held with
  | nil => rfl
  | cons h held ih =>
    rw [letGo, List.map_cons, ← letGo, strokesOf_cons, strokesOf_cons]
    by_cases hsame : h.channel = c ∧ h.note = n
    · rw [if_pos hsame, if_pos hsame, if_pos hsame]
    · rw [if_neg hsame, if_neg hsame, if_neg hsame, ih]

theorem strokesOf_letGo_of_ne {c' : Channel} {n' : Data} (hne : ¬ (c' = c ∧ n' = n)) :
    strokesOf c n (letGo c' n' held) = strokesOf c n held := by
  induction held with
  | nil => rfl
  | cons h held ih =>
    rw [letGo, List.map_cons, ← letGo, strokesOf_cons, strokesOf_cons, ih]
    by_cases hsame : h.channel = c' ∧ h.note = n'
    · have hother : ¬ (h.channel = c ∧ h.note = n) := by
        rw [hsame.1, hsame.2]
        exact hne
      rw [if_pos hsame, if_neg hother, if_neg hother]
    · rw [if_neg hsame]

theorem map_key_letGo : (letGo c n held).map HeldNote.key = held.map HeldNote.key := by
  rw [letGo, List.map_map]
  refine List.map_congr_left fun h _ => ?_
  dsimp only [Function.comp]
  split <;> rfl

/-- Each note is held in one place, also where it is struck again. -/
theorem nodup_key_strike (h : (held.map HeldNote.key).Nodup) :
    ((strike c n tick held).map HeldNote.key).Nodup ∧
      ∀ k ∈ (strike c n tick held).map HeldNote.key, k = (c, n) ∨ k ∈ held.map HeldNote.key := by
  induction held with
  | nil => exact ⟨List.pairwise_singleton _ _, fun k hk => .inl (List.mem_singleton.mp hk)⟩
  | cons first held ih =>
    obtain ⟨hfirst, hheld⟩ := List.nodup_cons.mp h
    obtain ⟨hnodup, hkeys⟩ := ih hheld
    rw [strike]
    split
    · exact ⟨h, fun k hk => .inr hk⟩
    · next hother =>
      refine ⟨List.nodup_cons.mpr ⟨fun hmem => ?_, hnodup⟩, List.forall_mem_cons.mpr ⟨?_, ?_⟩⟩
      · rcases hkeys _ hmem with heq | hmem
        · exact hother ⟨congrArg Prod.fst heq, congrArg Prod.snd heq⟩
        · exact hfirst hmem
      · exact .inr List.mem_cons_self
      · exact fun k hk => (hkeys k hk).imp_right (List.mem_cons_of_mem _)

theorem strokesOf_of_mem (hnodup : (held.map HeldNote.key).Nodup) {h : HeldNote} (hmem : h ∈ held) :
    strokesOf h.channel h.note held = h.strokes := by
  induction held with
  | nil => exact absurd hmem List.not_mem_nil
  | cons first held ih =>
    obtain ⟨hfirst, hheld⟩ := List.nodup_cons.mp hnodup
    rw [strokesOf_cons]
    rcases List.mem_cons.mp hmem with rfl | hmem
    · rw [if_pos ⟨rfl, rfl⟩]
    · rw [if_neg, ih hheld hmem]
      rintro ⟨hchannel, hnote⟩
      exact hfirst (List.mem_map.mpr ⟨h, hmem, Prod.ext hchannel.symm hnote.symm⟩)

/-- The strokes that are held are those of some spans, in their order. -/
structure Holds (pending : List Span) (held : List HeldNote) : Prop where
  nodup : (held.map HeldNote.key).Nodup
  strokes (c : Channel) (n : Data) : strokesOf c n held =
    (pending.filter fun s => s.channel = c ∧ s.note = n).map (·.start)

namespace Holds

theorem nil : Holds [] [] := ⟨List.nodup_nil, fun _ _ => rfl⟩

/-- One more span is held when it is struck. -/
theorem strike (h : Holds pending held) (s : Span) :
    Holds (pending ++ [s]) (Pairing.strike s.channel s.note s.start held) := by
  refine ⟨(nodup_key_strike h.nodup).1, fun c n => ?_⟩
  rw [List.filter_append, List.map_append, ← h.strokes]
  by_cases hsame : s.channel = c ∧ s.note = n
  · obtain ⟨rfl, rfl⟩ := hsame
    rw [strokesOf_strike_self, List.filter_cons_of_pos (by simp)]
    rfl
  · rw [strokesOf_strike_of_ne hsame, List.filter_cons_of_neg (by simpa using hsame)]
    exact (List.append_nil _).symm

/-- The first stroke of a note is that of the first span of this note. -/
theorem firstStroke? (h : Holds (s :: pending) held) :
    Pairing.firstStroke? s.channel s.note held = some s.start := by
  rw [firstStroke?_eq_head?, h.strokes, List.filter_cons_of_pos (by simp)]
  rfl

/-- The first span of all is held no longer when its note is let go of. -/
theorem letGo (h : Holds (s :: pending) held) :
    Holds pending (Pairing.letGo s.channel s.note held) := by
  refine ⟨?_, fun c n => ?_⟩
  · rw [map_key_letGo]
    exact h.nodup
  by_cases hsame : s.channel = c ∧ s.note = n
  · obtain ⟨rfl, rfl⟩ := hsame
    rw [strokesOf_letGo_self, h.strokes, List.filter_cons_of_pos (by simp)]
    rfl
  · rw [strokesOf_letGo_of_ne hsame, h.strokes, List.filter_cons_of_neg (by simpa using hsame)]

theorem rest_eq_nil {p : Pairing} (h : Holds [] p.held) : p.rest = [] := by
  rw [rest, List.flatMap_eq_nil_iff]
  intro note hmem
  rw [← strokesOf_of_mem h.nodup hmem, h.strokes]
  rfl

end Holds

/-- An event lets go of a note that is not held. -/
def IsStray (p : Pairing) (e : TimedEvent) : Bool :=
  match e.event with
  | .message (.noteOn c n velocity) => velocity = .zero ∧ Pairing.firstStroke? c n p.held = none
  | .message (.noteOff c n _) => Pairing.firstStroke? c n p.held = none
  | _ => false

/-- The events of a track that let go of a note that is not held. -/
def unmatched : Pairing → Track → List TimedEvent
  | _, [] => []
  | p, e :: t => if p.IsStray e then e :: unmatched (p.step e) t else unmatched (p.step e) t

end Pairing

open Pairing

/-- Of woven messages exactly the spans are read, and each message that lets go of a note finds it
held. -/
theorem Woven.foldl_step (hvelocity : velocity ≠ .zero) (h : Woven velocity pending coming ms)
    {held : List HeldNote} (hheld : Holds pending held) (tick : Int) (spans : List Span) :
    unmatched ⟨tick, held, spans⟩ (eventsFrom tick ms) = [] ∧
      ((eventsFrom tick ms).foldl step ⟨tick, held, spans⟩).spans = spans ++ (pending ++ coming) ∧
      Holds [] ((eventsFrom tick ms).foldl step ⟨tick, held, spans⟩).held := by
  -- the invariant is that exactly the pending spans are held; a message is read in one step
  induction h generalizing held tick spans with
  | nil => exact ⟨rfl, (List.append_nil _).symm, hheld⟩
  | @strike s pending coming ms _ ih =>
    have hstep : Pairing.step ⟨tick, held, spans⟩
        ⟨s.start - tick, .message (.noteOn s.channel s.note velocity)⟩ =
        ⟨s.start, Pairing.strike s.channel s.note s.start held, spans⟩ := by
      have htick : tick + (s.start - tick) = s.start := by omega
      simp only [Pairing.step, htick, if_neg hvelocity]
    have hfound : IsStray ⟨tick, held, spans⟩
        ⟨s.start - tick, .message (.noteOn s.channel s.note velocity)⟩ = false := by
      simp [IsStray, hvelocity]
    obtain ⟨hunmatched, hspans, hrest⟩ := ih (hheld.strike s) s.start spans
    rw [Span.struck, eventsFrom, unmatched, hfound, List.foldl_cons, hstep]
    refine ⟨hunmatched, ?_, hrest⟩
    rw [hspans, List.append_assoc pending, List.singleton_append]
  | @release s pending coming ms _ ih =>
    have hstep : Pairing.step ⟨tick, held, spans⟩
        ⟨s.stop - tick, .message (.noteOff s.channel s.note .zero)⟩ =
        ⟨s.stop, Pairing.letGo s.channel s.note held, spans ++ [s]⟩ := by
      have htick : tick + (s.stop - tick) = s.stop := by omega
      simp only [Pairing.step, htick, endStroke, hheld.firstStroke?]
    have hfound : IsStray ⟨tick, held, spans⟩
        ⟨s.stop - tick, .message (.noteOff s.channel s.note .zero)⟩ = false := by
      simp [IsStray, hheld.firstStroke?]
    obtain ⟨hunmatched, hspans, hrest⟩ := ih hheld.letGo s.stop (spans ++ [s])
    rw [Span.released, eventsFrom, unmatched, hfound, List.foldl_cons, hstep]
    refine ⟨hunmatched, ?_, hrest⟩
    rw [hspans, List.append_assoc spans, List.singleton_append, List.cons_append]

end Monody.Midi
