import Mathlib.Algebra.Ring.Int.Defs
import Mathlib.Data.List.Forall2
import Monody.Midi.Track
import Monody.Proofs.Midi.Weaving

/-!
# Pairing

A track may strike a note again before it lets go of it, let go of a note that is not held, and end while
notes are held, on several channels at once. Still no stroke is lost and none is invented. Of each note on
each channel the strokes are the starts of its spans, in their order, and they end in the same order: at
the events that let go of the note while it is held, and at the end of the track where these are too few.
What happens to other notes makes no difference.

## Main definitions

* `Track.strokes`, `Track.releases` — the ticks at which a note is struck, and at which one that is held
  is let go of
* `pairs` — strokes with the ticks at which they end
* `Pairing.IsInTime` — nothing ends before it is struck
* `Track.IsAlikeFor` — tracks that differ in events of other notes

## Main results

* `Pairing.spansOf_foldl_step` — the spans of a note, from any point of a track on
* `Track.spans_pairs` — the spans of a track
-/

namespace Monody.Midi

variable {c c' : Channel} {n n' : Data} {p : Pairing} {e : TimedEvent} {t t' : Track} {last tick : ℤ}
  {starts stops : List ℤ} {held : List HeldNote}

/-! ## What a track does to one note -/

namespace TrackEvent

/-- The event strikes a note. -/
def strikes (c : Channel) (n : Data) : TrackEvent → Bool
  | .message (.noteOn channel note velocity) => channel = c ∧ note = n ∧ velocity ≠ Data.zero
  | _ => false

/-- The event lets go of a note, as does one that strikes it without force. -/
def letsGo (c : Channel) (n : Data) : TrackEvent → Bool
  | .message (.noteOn channel note velocity) => channel = c ∧ note = n ∧ velocity = Data.zero
  | .message (.noteOff channel note _) => channel = c ∧ note = n
  | _ => false

/-- The event strikes a note or lets go of it. -/
def concerns (c : Channel) (n : Data) (event : TrackEvent) : Bool := event.strikes c n || event.letsGo c n

end TrackEvent

/-- The ticks of the events that strike a note. -/
def strokesIn (c : Channel) (n : Data) (placed : List (ℤ × TrackEvent)) : List ℤ :=
  (placed.filter (·.2.strikes c n)).map (·.1)

/-- The ticks of the events that let go of a note while it is held. Some of its strokes are held from the
beginning. -/
def releasesIn (c : Channel) (n : Data) : ℕ → List (ℤ × TrackEvent) → List ℤ
  | _, [] => []
  | count, (tick, event) :: rest =>
    if event.strikes c n then releasesIn c n (count + 1) rest
    else if event.letsGo c n ∧ 0 < count then tick :: releasesIn c n (count - 1) rest
    else releasesIn c n count rest

namespace Track

/-- The ticks at which a note is struck. -/
def strokes (c : Channel) (n : Data) (t : Track) : List ℤ := strokesIn c n t.placed

/-- The ticks at which a note is let go of that is held. -/
def releases (c : Channel) (n : Data) (t : Track) : List ℤ := releasesIn c n 0 t.placed

/-- The tick of the last event. -/
def lastTick (t : Track) : ℤ := (t.map (·.delta)).sum

end Track

/-- The span is one of a note. -/
def Span.isOf (c : Channel) (n : Data) (s : Span) : Bool := s.channel = c ∧ s.note = n

/-- The spans of a note that is struck at some ticks and let go of at others, or at the last where these
are too few. -/
def pairs (c : Channel) (n : Data) (last : ℤ) (starts stops : List ℤ) : List Span :=
  starts.mapIdx fun i start => ⟨start, stops.getD i last, c, n⟩

theorem pairs_cons_cons (start stop : ℤ) :
    pairs c n last (start :: starts) (stop :: stops) =
      ⟨start, stop, c, n⟩ :: pairs c n last starts stops :=
  List.mapIdx_cons

theorem pairs_nil_right (starts : List ℤ) :
    pairs c n last starts [] = starts.map fun start => ⟨start, last, c, n⟩ := by
  induction starts with
  | nil => rfl
  | cons start starts ih =>
    rw [List.map_cons, ← ih]
    exact List.mapIdx_cons

theorem strokesIn_cons (event : TrackEvent) (rest : List (ℤ × TrackEvent)) :
    strokesIn c n ((tick, event) :: rest) =
      if event.strikes c n then tick :: strokesIn c n rest else strokesIn c n rest := by
  rw [strokesIn, List.filter_cons]
  split <;> rfl

/-- No more strokes of a note are let go of than there are. -/
theorem length_releasesIn_le (count : ℕ) (placed : List (ℤ × TrackEvent)) :
    (releasesIn c n count placed).length ≤ count + (strokesIn c n placed).length := by
  -- for any number of strokes held before, since every event may change it
  induction placed generalizing count with
  | nil => exact Nat.zero_le _
  | cons first rest ih =>
    obtain ⟨tick, event⟩ := first
    rw [releasesIn, strokesIn_cons]
    split
    · have hle := ih (count + 1)
      rw [List.length_cons]
      omega
    · split
      · have hle := ih (count - 1)
        rw [List.length_cons]
        omega
      · exact ih count

/-! ## One event -/

namespace Pairing

/-- The spans of a note that have ended or end now. -/
def spansOf (c : Channel) (n : Data) (p : Pairing) : List Span := (p.spans ++ p.rest).filter (·.isOf c n)

theorem isOf_self (start stop : ℤ) : (Span.mk start stop c n).isOf c n = true :=
  decide_eq_true ⟨rfl, rfl⟩

theorem isOf_of_ne (hne : ¬ (c' = c ∧ n' = n)) (start stop : ℤ) :
    (Span.mk start stop c' n').isOf c n = false :=
  decide_eq_false hne

/-- Letting go of a note ends its first stroke, if there is one. -/
theorem endStroke_self :
    strokesOf c n (p.endStroke c n).held = (strokesOf c n p.held).tail ∧
      (p.endStroke c n).spans =
        p.spans ++ ((strokesOf c n p.held).head?.map fun start => ⟨start, p.tick, c, n⟩).toList := by
  rw [endStroke, firstStroke?_eq_head?]
  cases hstrokes : strokesOf c n p.held with
  | nil => exact ⟨hstrokes, (List.append_nil _).symm⟩
  | cons start rest =>
    refine ⟨?_, rfl⟩
    dsimp only [List.head?_cons]
    rw [strokesOf_letGo_self, hstrokes]

/-- Letting go of a note changes nothing about any other. -/
theorem endStroke_of_ne (hne : ¬ (c' = c ∧ n' = n)) :
    strokesOf c n (p.endStroke c' n').held = strokesOf c n p.held ∧
      (p.endStroke c' n').spans.filter (·.isOf c n) = p.spans.filter (·.isOf c n) := by
  rw [endStroke]
  split
  · exact ⟨rfl, rfl⟩
  · refine ⟨strokesOf_letGo_of_ne hne, ?_⟩
    rw [List.filter_append, List.filter_cons_of_neg (by simp [isOf_of_ne hne])]
    exact List.append_nil _

theorem tick_endStroke : (p.endStroke c n).tick = p.tick := by
  rw [endStroke]
  split <;> rfl

/-- Striking a note adds a stroke, or ends one if it is struck without force. -/
theorem step_noteOn (delta : ℤ) (velocity : Data) :
    p.step ⟨delta, .message (.noteOn c n velocity)⟩ =
      if velocity = Data.zero then { p with tick := p.tick + delta }.endStroke c n
      else ⟨p.tick + delta, strike c n (p.tick + delta) p.held, p.spans⟩ := rfl

theorem tick_step : (p.step e).tick = p.tick + e.delta := by
  obtain ⟨delta, event⟩ := e
  cases event with
  | message m =>
    cases m with
    | noteOn c n velocity =>
      rw [step_noteOn]
      split
      · exact tick_endStroke
      · rfl
    | noteOff c n velocity => exact tick_endStroke
    | control | program => rfl
  | name | tempo | other => rfl

/-- An event that strikes a note adds a stroke. -/
theorem step_of_strikes (h : e.event.strikes c n) :
    strokesOf c n (p.step e).held = strokesOf c n p.held ++ [p.tick + e.delta] ∧
      (p.step e).spans = p.spans := by
  obtain ⟨delta, event⟩ := e
  cases event with
  | message m =>
    cases m with
    | noteOn channel note velocity =>
      obtain ⟨rfl, rfl, hvelocity⟩ := of_decide_eq_true h
      rw [step_noteOn, if_neg hvelocity]
      exact ⟨strokesOf_strike_self, rfl⟩
    | noteOff | control | program => cases h
  | name | tempo | other => cases h

/-- An event that lets go of a note ends its first stroke. -/
theorem step_of_letsGo (h : e.event.letsGo c n) :
    strokesOf c n (p.step e).held = (strokesOf c n p.held).tail ∧
      (p.step e).spans = p.spans ++
        ((strokesOf c n p.held).head?.map fun start => ⟨start, p.tick + e.delta, c, n⟩).toList := by
  obtain ⟨delta, event⟩ := e
  cases event with
  | message m =>
    cases m with
    | noteOn channel note velocity =>
      obtain ⟨rfl, rfl, hvelocity⟩ := of_decide_eq_true h
      rw [step_noteOn, if_pos hvelocity]
      exact endStroke_self
    | noteOff channel note velocity =>
      obtain ⟨rfl, rfl⟩ := of_decide_eq_true h
      exact endStroke_self
    | control | program => cases h
  | name | tempo | other => cases h

/-- An event of another note changes nothing. -/
theorem step_of_concerns_eq_false (h : e.event.concerns c n = false) :
    strokesOf c n (p.step e).held = strokesOf c n p.held ∧
      (p.step e).spans.filter (·.isOf c n) = p.spans.filter (·.isOf c n) := by
  obtain ⟨hstrikes, hletsGo⟩ := Bool.or_eq_false_iff.mp h
  obtain ⟨delta, event⟩ := e
  cases event with
  | message m =>
    cases m with
    | noteOn channel note velocity =>
      rw [step_noteOn]
      split
      · next hvelocity =>
        refine endStroke_of_ne fun hsame => ?_
        exact of_decide_eq_false hletsGo ⟨hsame.1, hsame.2, hvelocity⟩
      · next hvelocity =>
        refine ⟨strokesOf_strike_of_ne fun hsame => ?_, rfl⟩
        exact of_decide_eq_false hstrikes ⟨hsame.1, hsame.2, hvelocity⟩
    | noteOff channel note velocity => exact endStroke_of_ne (of_decide_eq_false hletsGo)
    | control | program => exact ⟨rfl, rfl⟩
  | name | tempo | other => exact ⟨rfl, rfl⟩

theorem nodup_key_endStroke (h : (p.held.map HeldNote.key).Nodup) :
    ((p.endStroke c n).held.map HeldNote.key).Nodup := by
  rw [endStroke]
  split
  · exact h
  · dsimp only
    rw [map_key_letGo]
    exact h

/-- Each note is held in one place. -/
theorem nodup_key_step (h : (p.held.map HeldNote.key).Nodup) :
    ((p.step e).held.map HeldNote.key).Nodup := by
  obtain ⟨delta, event⟩ := e
  cases event with
  | message m =>
    cases m with
    | noteOn c n velocity =>
      rw [step_noteOn]
      split
      · exact nodup_key_endStroke h
      · exact (nodup_key_strike h).1
    | noteOff c n velocity => exact nodup_key_endStroke h
    | control | program => exact h
  | name | tempo | other => exact h

/-! ## Held notes -/

theorem strokesOf_of_not_mem (h : (c, n) ∉ held.map HeldNote.key) : strokesOf c n held = [] := by
  induction held with
  | nil => rfl
  | cons first held ih =>
    rw [List.map_cons, List.mem_cons, not_or] at h
    have hother : ¬ (first.channel = c ∧ first.note = n) :=
      fun hsame => h.1 (Prod.ext hsame.1.symm hsame.2.symm)
    rw [strokesOf_cons, if_neg hother]
    exact ih h.2

/-- The strokes of a note that are still held end now. -/
theorem filter_rest (h : (p.held.map HeldNote.key).Nodup) :
    p.rest.filter (·.isOf c n) = (strokesOf c n p.held).map fun start => ⟨start, p.tick, c, n⟩ := by
  rw [rest]
  generalize p.held = held at h
  induction held with
  | nil => rfl
  | cons first held ih =>
    obtain ⟨hfirst, hheld⟩ := List.nodup_cons.mp h
    rw [List.flatMap_cons, List.filter_append, ih hheld, strokesOf_cons]
    split
    · next hsame =>
      obtain ⟨rfl, rfl⟩ := hsame
      -- the note is held in no other place
      rw [strokesOf_of_not_mem hfirst, List.map_nil, List.append_nil, List.filter_eq_self]
      intro s hs
      obtain ⟨start, -, rfl⟩ := List.mem_map.mp hs
      exact isOf_self ..
    · next hother =>
      rw [List.filter_eq_nil_iff.mpr, List.nil_append]
      intro s hs
      obtain ⟨start, -, rfl⟩ := List.mem_map.mp hs
      simp [isOf_of_ne hother]

/-- The spans of a note that have ended, and those of its strokes that are held, which end now. -/
theorem spansOf_eq (h : (p.held.map HeldNote.key).Nodup) :
    p.spansOf c n = p.spans.filter (·.isOf c n) ++
      pairs c n p.tick (strokesOf c n p.held) [] := by
  rw [spansOf, List.filter_append, filter_rest h, pairs_nil_right]

/-! ## Runs -/

/-- From any point of a track on, the strokes of a note that are held and those that follow end in turn,
where the note is let go of, or at the end of the track. -/
theorem spansOf_foldl_step (t : Track) (h : (p.held.map HeldNote.key).Nodup) :
    (t.foldl step p).spansOf c n = p.spans.filter (·.isOf c n) ++
      pairs c n (p.tick + Track.lastTick t)
        (strokesOf c n p.held ++ strokesIn c n (Track.placedFrom p.tick t))
        (releasesIn c n (strokesOf c n p.held).length (Track.placedFrom p.tick t)) := by
  induction t generalizing p with
  | nil =>
    have hlast : p.tick + Track.lastTick [] = p.tick := Int.add_zero p.tick
    rw [List.foldl_nil, spansOf_eq h, hlast]
    exact congrArg (_ ++ pairs c n p.tick · []) (List.append_nil _).symm
  | cons e t ih =>
    have hlast : (p.step e).tick + Track.lastTick t = p.tick + Track.lastTick (e :: t) := by
      rw [tick_step, Track.lastTick, Track.lastTick, List.map_cons, List.sum_cons, Int.add_assoc]
    have hplaced : Track.placedFrom p.tick (e :: t) =
        (p.tick + e.delta, e.event) :: Track.placedFrom (p.step e).tick t := by
      rw [tick_step]
      rfl
    rw [List.foldl_cons, ih (nodup_key_step h), hlast, hplaced, strokesIn_cons, releasesIn]
    -- the event strikes the note, lets go of it, or is none of its events
    cases hstrikes : e.event.strikes c n with
    | true =>
      obtain ⟨hheld, hspans⟩ := step_of_strikes (p := p) hstrikes
      rw [hheld, hspans, if_pos rfl, if_pos rfl, List.append_assoc, List.singleton_append,
        List.length_append, List.length_singleton]
    | false =>
      rw [if_neg Bool.false_ne_true, if_neg Bool.false_ne_true]
      cases hletsGo : e.event.letsGo c n with
      | true =>
        obtain ⟨hheld, hspans⟩ := step_of_letsGo (p := p) hletsGo
        rw [hheld, hspans]
        cases strokesOf c n p.held with
        | nil =>
          -- nothing is held that could be let go of
          rw [List.length_nil, if_neg fun hboth => Nat.lt_irrefl 0 hboth.2]
          exact congrArg (List.filter _ · ++ _) (List.append_nil p.spans)
        | cons start rest =>
          rw [List.length_cons, if_pos ⟨rfl, Nat.succ_pos _⟩, List.cons_append, pairs_cons_cons,
            List.filter_append, List.append_assoc]
          dsimp only [List.head?_cons, List.tail_cons, Option.map_some, Option.toList_some]
          rw [List.filter_cons_of_pos (isOf_self start _), List.filter_nil, List.singleton_append]
          rfl
      | false =>
        obtain ⟨hheld, hspans⟩ := step_of_concerns_eq_false (p := p)
          (Bool.or_eq_false_iff.mpr ⟨hstrikes, hletsGo⟩)
        rw [hheld, hspans, if_neg fun hboth => Bool.false_ne_true hboth.1]

/-- Nothing that is held was struck later than now, and nothing has ended before it was struck. -/
structure IsInTime (p : Pairing) : Prop where
  held : ∀ h ∈ p.held, ∀ start ∈ h.strokes, start ≤ p.tick
  spans : ∀ s ∈ p.spans, s.start ≤ s.stop

theorem mem_strike {h : HeldNote} (hh : h ∈ strike c n tick held) :
    h.strokes = [tick] ∨ h ∈ held ∨ ∃ g ∈ held, h.strokes = g.strokes ++ [tick] := by
  induction held with
  | nil =>
    obtain rfl := List.mem_singleton.mp hh
    exact .inl rfl
  | cons g held ih =>
    rw [strike] at hh
    split at hh
    · obtain rfl | hh := List.mem_cons.mp hh
      · exact .inr (.inr ⟨g, List.mem_cons_self, rfl⟩)
      · exact .inr (.inl (List.mem_cons_of_mem _ hh))
    · obtain rfl | hh := List.mem_cons.mp hh
      · exact .inr (.inl List.mem_cons_self)
      · obtain hnew | hold | ⟨g', hg', hmore⟩ := ih hh
        · exact .inl hnew
        · exact .inr (.inl (List.mem_cons_of_mem _ hold))
        · exact .inr (.inr ⟨g', List.mem_cons_of_mem _ hg', hmore⟩)

namespace IsInTime

theorem start_le_of_firstStroke? {start : ℤ} (h : p.IsInTime)
    (hfirst : firstStroke? c n p.held = some start) : start ≤ p.tick := by
  obtain ⟨g, hg, hhead⟩ := Option.bind_eq_some_iff.mp hfirst
  exact h.held g (List.mem_of_find?_eq_some hg) start (List.mem_of_mem_head? hhead)

theorem endStroke (h : p.IsInTime) : (p.endStroke c n).IsInTime := by
  rw [Pairing.endStroke]
  split
  · exact h
  · next start hfirst =>
    refine ⟨fun g hg stroke hstroke => ?_, fun s hs => ?_⟩
    · obtain ⟨g, hmem, rfl⟩ := List.mem_map.mp hg
      split at hstroke
      · exact h.held g hmem stroke (List.mem_of_mem_tail hstroke)
      · exact h.held g hmem stroke hstroke
    · obtain hs | hs := List.mem_append.mp hs
      · exact h.spans s hs
      · obtain rfl := List.mem_singleton.mp hs
        exact h.start_le_of_firstStroke? hfirst

theorem strike (h : p.IsInTime) : IsInTime { p with held := Pairing.strike c n p.tick p.held } := by
  refine ⟨fun g hg stroke hstroke => ?_, h.spans⟩
  obtain hnew | hold | ⟨g', hg', hmore⟩ := mem_strike hg
  · rw [hnew, List.mem_singleton] at hstroke
    exact Int.le_of_eq hstroke
  · exact h.held g hold stroke hstroke
  · rw [hmore, List.mem_append, List.mem_singleton] at hstroke
    obtain hstroke | rfl := hstroke
    · exact h.held g' hg' stroke hstroke
    · exact Int.le_refl _

theorem later {delta : ℤ} (h : p.IsInTime) (hdelta : 0 ≤ delta) :
    IsInTime { p with tick := p.tick + delta } where
  held g hg start hstart := Int.le_trans (h.held g hg start hstart) (Int.le_add_of_nonneg_right hdelta)
  spans := h.spans

theorem step (h : p.IsInTime) (hdelta : 0 ≤ e.delta) : (p.step e).IsInTime := by
  have hlater := h.later hdelta
  obtain ⟨delta, event⟩ := e
  cases event with
  | message m =>
    cases m with
    | noteOn c n velocity =>
      rw [step_noteOn]
      split
      · exact hlater.endStroke
      · exact hlater.strike
    | noteOff c n velocity => exact hlater.endStroke
    | control | program => exact hlater
  | name | tempo | other => exact hlater

theorem foldl_step (t : Track) (h : p.IsInTime) (hdelta : ∀ e ∈ t, 0 ≤ e.delta) :
    IsInTime (t.foldl Pairing.step p) := by
  induction t generalizing p with
  | nil => exact h
  | cons e t ih =>
    obtain ⟨hfirst, hrest⟩ := List.forall_mem_cons.mp hdelta
    exact ih (h.step hfirst) hrest

theorem rest (h : p.IsInTime) : ∀ s ∈ p.rest, s.start ≤ s.stop := by
  intro s hs
  obtain ⟨g, hg, hs⟩ := List.mem_flatMap.mp hs
  obtain ⟨start, hstart, rfl⟩ := List.mem_map.mp hs
  exact h.held g hg start hstart

end IsInTime

end Pairing

/-! ## Whole tracks -/

namespace Track

/-- No span ends before it starts. -/
theorem start_le_stop_of_mem_spans (h : ∀ e ∈ t, 0 ≤ e.delta) {s : Span} (hs : s ∈ t.spans) :
    s.start ≤ s.stop := by
  have hempty : Pairing.empty.IsInTime := ⟨List.forall_mem_nil _, List.forall_mem_nil _⟩
  have hrun := hempty.foldl_step t h
  obtain hs | hs := List.mem_append.mp hs
  · exact hrun.spans s hs
  · exact hrun.rest s hs

/-- The spans of a note are its strokes, with the ticks at which they end. -/
theorem filter_spans (t : Track) :
    t.spans.filter (·.isOf c n) = pairs c n t.lastTick (t.strokes c n) (t.releases c n) := by
  have hrun := Pairing.spansOf_foldl_step (c := c) (n := n) (p := .empty) t List.nodup_nil
  rw [show Pairing.empty.tick + t.lastTick = t.lastTick from Int.zero_add _] at hrun
  exact hrun

/-- Tracks that differ only in events of other notes, and only in what these are. -/
def IsAlikeFor (c : Channel) (n : Data) (t t' : Track) : Prop :=
  List.Forall₂ (fun e e' => e.delta = e'.delta ∧
    (e.event = e'.event ∨ e.event.concerns c n = false ∧ e'.event.concerns c n = false)) t t'

/-- What is struck and let go of, and when, is the same in tracks that are alike. -/
theorem IsAlikeFor.placedFrom (h : IsAlikeFor c n t t') (tick : ℤ) (count : ℕ) :
    strokesIn c n (t.placedFrom tick) = strokesIn c n (t'.placedFrom tick) ∧
      releasesIn c n count (t.placedFrom tick) = releasesIn c n count (t'.placedFrom tick) := by
  induction h generalizing tick count with
  | nil => exact ⟨rfl, rfl⟩
  | @cons e e' t t' hfirst hrest ih =>
    obtain ⟨hdelta, hevent⟩ := hfirst
    rw [Track.placedFrom, Track.placedFrom, ← hdelta, strokesIn_cons, strokesIn_cons, releasesIn,
      releasesIn]
    have hboth : e.event.strikes c n = e'.event.strikes c n ∧ e.event.letsGo c n = e'.event.letsGo c n := by
      obtain hsame | ⟨hother, hother'⟩ := hevent
      · rw [hsame]
        exact ⟨rfl, rfl⟩
      · obtain ⟨hstrikes, hletsGo⟩ := Bool.or_eq_false_iff.mp hother
        obtain ⟨hstrikes', hletsGo'⟩ := Bool.or_eq_false_iff.mp hother'
        exact ⟨hstrikes.trans hstrikes'.symm, hletsGo.trans hletsGo'.symm⟩
    rw [hboth.1, hboth.2, (ih _ count).1, (ih _ count).2, (ih _ (count + 1)).2, (ih _ (count - 1)).2]
    exact ⟨rfl, rfl⟩

theorem IsAlikeFor.lastTick (h : IsAlikeFor c n t t') : t.lastTick = t'.lastTick := by
  refine congrArg List.sum ?_
  induction h with
  | nil => rfl
  | cons hfirst hrest ih => rw [List.map_cons, List.map_cons, hfirst.1, ih]

/-- Where no event comes before the event in front of it, no stroke is lost and none is invented. The
strokes of a note on a channel are the starts of its spans, the `i`-th of which ends at the `i`-th event
that lets go of the note while it is held, or with the track if there is none. There are no more of these
events than strokes, no span ends before it starts, and other notes make no difference. -/
theorem spans_pairs (t : Track) (h : ∀ e ∈ t, 0 ≤ e.delta) :
    (∀ c n, t.spans.filter (·.isOf c n) = pairs c n t.lastTick (t.strokes c n) (t.releases c n) ∧
      (t.releases c n).length ≤ (t.strokes c n).length) ∧
    (∀ s ∈ t.spans, s.start ≤ s.stop) ∧
    ∀ c n t', IsAlikeFor c n t t' → t'.spans.filter (·.isOf c n) = t.spans.filter (·.isOf c n) := by
  refine ⟨fun c n => ⟨filter_spans t, ?_⟩, fun s => start_le_stop_of_mem_spans h, ?_⟩
  · have hle := length_releasesIn_le (c := c) (n := n) 0 t.placed
    rwa [Nat.zero_add] at hle
  · intro c n t' halike
    obtain ⟨hstrokes, hreleases⟩ := halike.placedFrom 0 0
    rw [filter_spans, filter_spans, halike.lastTick]
    exact congrArg₂ (pairs c n t'.lastTick) hstrokes.symm hreleases.symm

/-- A note that is let go of before it is struck, struck twice, let go of once by a stroke without force,
and struck again, while the same note of another channel is held. -/
def restless : Track :=
  [⟨5, .message (.noteOff 0 60 0)⟩, ⟨0, .message (.noteOn 0 60 90)⟩, ⟨5, .message (.noteOn 1 60 90)⟩,
    ⟨10, .message (.noteOn 0 60 70)⟩, ⟨10, .message (.noteOn 0 60 0)⟩, ⟨0, .message (.noteOff 1 60 0)⟩,
    ⟨10, .message (.noteOn 0 60 80)⟩, ⟨10, .other⟩]

/-- The same with the other channel at rest. -/
def restlessAlone : Track :=
  [⟨5, .message (.noteOff 0 60 0)⟩, ⟨0, .message (.noteOn 0 60 90)⟩, ⟨5, .other⟩,
    ⟨10, .message (.noteOn 0 60 70)⟩, ⟨10, .message (.noteOn 0 60 0)⟩, ⟨0, .message (.noteOff 0 72 0)⟩,
    ⟨10, .message (.noteOn 0 60 80)⟩, ⟨10, .other⟩]

theorem isAlikeFor_restlessAlone : IsAlikeFor 0 60 restless restlessAlone := by
  simp [IsAlikeFor, restless, restlessAlone, TrackEvent.concerns, TrackEvent.strikes, TrackEvent.letsGo]

/-- The first two strokes overlap and the last two are held to the end. -/
theorem spans_pairs_restless :
    restless.strokes 0 60 = [5, 20, 40] ∧ restless.releases 0 60 = [30] ∧ restless.lastTick = 50 ∧
      restless.spans.filter (·.isOf 0 60) = [⟨5, 30, 0, 60⟩, ⟨20, 50, 0, 60⟩, ⟨40, 50, 0, 60⟩] ∧
      (∀ s ∈ restless.spans, s.start ≤ s.stop) ∧
      restlessAlone.spans.filter (·.isOf 0 60) = restless.spans.filter (·.isOf 0 60) := by
  have hdeltas : ∀ e ∈ restless, 0 ≤ e.delta := by decide
  obtain ⟨hpairs, htime, halike⟩ := spans_pairs restless hdeltas
  refine ⟨by decide, by decide, by decide, ?_, htime, halike 0 60 _ isAlikeFor_restlessAlone⟩
  rw [(hpairs 0 60).1]
  decide

end Track

end Monody.Midi
