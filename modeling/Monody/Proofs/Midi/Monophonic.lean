import Monody.Proofs.Midi.Import
import Monody.Proofs.Midi.Readback
import Monody.Proofs.Midi.TickTimes

/-!
# One note at a time

A voice has one note at a time, and on its track each note has ended when the next one starts. There is one
exception: a note lasts at least a tick, and where the next one starts at the same tick, the two of them
overlap for that tick. Whether this is heard depends on the length of a tick. A note that is read lasts at
least half a millisecond, to the nearest number; where ticks are shorter than that, a note that lasts one
tick is left out, and the others are read as one line.

## Main definitions

* `Span.GivesWay` — a note that ends for the next one, but for the tick it has to last
* `Span.IsHeard` — a note that is long enough to be read

## Main results

* `isChain_givesWay` — the notes of a voice give way to each other
* `performance_eq` — at a steady tempo exactly the notes that are heard are read
* `lines_of_pairwise_stop` — notes that have ended when others start make one line
-/

namespace Monody.Midi

open Binary64
open Melody (Event)
open Performance (Note)

-- evaluated, the numbers of units are too long to be looked at
attribute [local irreducible] one bound

variable {c : Channel} {resolution : Number} {tempo : ℤ} {e e' : Event} {es : List Event} {s s' : Span}
  {ss : List Span} {m : TempoMap}

/-- A span ends before the next one starts, unless both start at one tick, after which it ends. -/
def Span.GivesWay (s s' : Span) : Prop :=
  s.stop ≤ s'.start ∨ s.start = s'.start ∧ s.stop = s.start + 1

instance (s s' : Span) : Decidable (s.GivesWay s') := inferInstanceAs (Decidable (_ ∨ _))

/-- A span lasts at least half a millisecond, so that it is read as a note. -/
def Span.IsHeard (m : TempoMap) (s : Span) : Prop :=
  ∃ x, m.toMs s.start = .ok x ∧ ∃ y, m.toMs s.stop = .ok y ∧
    ∃ k, Number.roundHalfUp (y - x) = .ok k ∧ 0 < k

instance (m : TempoMap) (s : Span) : Decidable (s.IsHeard m) :=
  inferInstanceAs (Decidable (∃ _, _ ∧ _))

/-! ## Writing -/

/-- A note gives way to the next one. -/
theorem IsSpanOf.givesWay (hresolution : 0 < resolution) (htempo : 0 < tempo)
    (h : IsSpanOf c resolution tempo e s) (h' : IsSpanOf c resolution tempo e' s') (he : e.IsAfter 0)
    (he' : e'.IsAfter 0) (hturn : e.stop ≤ e'.start) : s.GivesWay s' := by
  obtain ⟨off, hoff, hstop⟩ := h.stop
  have hstart := (h.le hresolution htempo h' he he' hturn).1
  have hbetween : off ≤ s'.start := tick_le_tick hresolution htempo he.stop he'.start hturn hoff h'.start
  -- only the tick that a note has to last can reach beyond the start of the next one
  rw [Span.GivesWay]
  omega

/-- The notes of a voice give way to each other. -/
theorem isChain_givesWay (hresolution : 0 < resolution) (htempo : 0 < tempo)
    (h : List.Forall₂ (IsSpanOf c resolution tempo) es ss) (hafter : ∀ e ∈ es, e.IsAfter 0)
    (hturn : es.Pairwise (·.stop ≤ ·.start)) : ss.IsChain Span.GivesWay := by
  induction h with
  | nil => exact .nil
  | @cons e s es ss hs hss ih =>
    obtain ⟨he, hafter⟩ := List.forall_mem_cons.mp hafter
    obtain ⟨hfirst, hturn⟩ := List.pairwise_cons.mp hturn
    cases hss with
    | nil => exact .singleton s
    | @cons e' s' es ss hs' hss =>
      have hway := hs.givesWay hresolution htempo hs' he (hafter e' List.mem_cons_self)
        (hfirst e' List.mem_cons_self)
      exact List.isChain_cons_cons.mpr ⟨hway, ih hafter hturn⟩

/-- Where no note that is heard shares its tick with the next one, they have ended when others start. -/
theorem pairwise_of_givesWay (hstarts : ss.Pairwise (·.start ≤ ·.start))
    (hway : ss.IsChain Span.GivesWay)
    (happart : ss.IsChain fun s s' => s.IsHeard m → s.start < s'.start) :
    ss.Pairwise fun s s' => s.IsHeard m → s.stop ≤ s'.start := by
  induction ss with
  | nil => exact .nil
  | cons s ss ih =>
    obtain ⟨-, hstarts⟩ := List.pairwise_cons.mp hstarts
    refine List.pairwise_cons.mpr ⟨fun s' hs' hheard => ?_, ih hstarts hway.tail happart.tail⟩
    cases ss with
    | nil => exact absurd hs' List.not_mem_nil
    | cons next ss =>
      have hnext : s.stop ≤ next.start := by
        rcases (List.isChain_cons_cons.mp hway).1 with hstop | ⟨hsame, -⟩
        · exact hstop
        · exact absurd hsame ((List.isChain_cons_cons.mp happart).1 hheard).ne
      rcases List.mem_cons.mp hs' with rfl | hs'
      · exact hnext
      -- the others start no earlier than the next one
      · exact hnext.trans ((List.pairwise_cons.mp hstarts).1 s' hs')

/-! ## Reading -/

/-- A performance has the notes of the spans that make one. -/
theorem performance_of_forall {t : Track} {p : Span → Prop} [DecidablePred p] {f : Span → Note}
    (h : ∀ s ∈ t.spans, noteOfSpan m s = .ok (if p s then some (f s) else none)) :
    performance m t = .ok ((t.spans.filter p).map f) := by
  have hnotes : t.spans.mapM (noteOfSpan m) = .ok (t.spans.map fun s => if p s then some (f s) else none) := by
    rw [mapM_eq_ok_iff, List.forall₂_map_right_iff, List.forall₂_same]
    exact h
  rw [performance, hnotes]
  refine congrArg Except.ok ?_
  generalize t.spans = ss
  induction ss with
  | nil => rfl
  | cons s ss ih =>
    rw [List.map_cons, List.filterMap_cons, List.filter_cons, ih]
    by_cases hs : p s
    · rw [if_pos hs, if_pos (decide_eq_true hs)]
      rfl
    · rw [if_neg hs, if_neg (by rwa [decide_eq_true_iff])]
      rfl

section Reading

variable {ticks beat : ℕ} {i j : ℤ} {t : Track} {text : List Char} {v : Voice} {bytes : List UInt8}

/-- A tick with a finite time. -/
structure HasTime (ticks beat : ℕ) (i : ℤ) : Prop where
  nonneg : 0 ≤ i
  held : (Binary64.ofInt i).isFinite
  finite : (timeOfTick ticks beat i.toNat).isFinite

/-- A span that can be read: its ticks have finite times, and its note can be written. -/
structure Span.IsReadable (ticks beat : ℕ) (s : Span) : Prop where
  start : HasTime ticks beat s.start
  stop : HasTime ticks beat s.stop
  long : s.start < s.stop
  pitch : Pitch.Representable s.note.val

/-- A span as a note at a steady tempo. -/
def Span.playedAt (ticks beat : ℕ) (s : Span) : Note :=
  ⟨.real (timeOfTick ticks beat s.start.toNat), .real (timeOfTick ticks beat s.stop.toNat), s.note.val,
    s.channel.val⟩

theorem HasTime.toMs_eq (hi : HasTime ticks beat i) (h : IsStatable ticks beat) :
    (steadyMap ticks beat).toMs i = .ok (timeOfTick ticks beat i.toNat) := by
  obtain ⟨k, rfl⟩ := Int.eq_ofNat_of_zero_le hi.nonneg
  exact Midi.toMs_eq h hi.held

theorem timeOfTick_le_of_le (h : IsStatable ticks beat) (hij : i ≤ j) :
    timeOfTick ticks beat i.toNat ≤ timeOfTick ticks beat j.toNat :=
  timeOfTick_le_timeOfTick h (Int.toNat_le_toNat hij)

/-- The ticks that notes are written at have times. -/
theorem hasTime_of_ticksOfMs {x : Binary64} (h : IsStatable ticks beat) (hx : IsTime x)
    (hi : ticksOfMs x (.whole ticks) beat = .ok i) : HasTime ticks beat i ∧ HasTime ticks beat (i + 1) := by
  have hnonneg := tick_nonneg (Number.whole_pos (Int.natCast_pos.mpr h.resolution_pos))
    (Int.natCast_pos.mpr h.tempo_pos) hx hi
  obtain ⟨k, rfl⟩ := Int.eq_ofNat_of_zero_le hnonneg
  have htime {j : ℕ} (hj : j ≤ k + 1) : HasTime ticks beat j :=
    have hfinite := isFinite_timeOfTick h hx hi hj
    ⟨Int.natCast_nonneg j, hfinite.1, hfinite.2⟩
  exact ⟨htime (Nat.le_succ k), htime le_rfl⟩

/-- The notes of a voice are written as spans that can be read. -/
theorem IsSpanOf.isReadable (hs : IsSpanOf c (.whole ticks) beat e s) (h : IsStatable ticks beat)
    (he : e.IsAfter 0) (hpitch : ∃ n, e.noteNumber? = .ok (some n) ∧ Pitch.Representable n) :
    s.IsReadable ticks beat := by
  obtain ⟨off, hoff, hstop⟩ := hs.stop
  obtain ⟨n, hn, hpitch⟩ := hpitch
  obtain rfl := Option.some.inj (Except.ok.inj (hn.symm.trans hs.note))
  refine ⟨(hasTime_of_ticksOfMs h he.start hs.start).1, ?_, hs.start_lt_stop, hpitch⟩
  rcases max_choice (s.start + 1) off with hmax | hmax
  · rw [hstop, hmax]
    exact (hasTime_of_ticksOfMs h he.start hs.start).2
  · rw [hstop, hmax]
    exact (hasTime_of_ticksOfMs h he.stop hoff).1

/-- A span that can be read makes a note exactly if it is heard. -/
theorem Span.IsReadable.noteOfSpan_eq (hs : s.IsReadable ticks beat) (h : IsStatable ticks beat) :
    noteOfSpan (steadyMap ticks beat) s =
      .ok (if s.IsHeard (steadyMap ticks beat) then some (s.playedAt ticks beat) else none) := by
  have hstart := hs.start.toMs_eq h
  have hstop := hs.stop.toMs_eq h
  have hle := timeOfTick_le_of_le h hs.long.le
  obtain ⟨k, hk⟩ := exists_roundHalfUp ((timeOfTick_eq h s.start.toNat).1.isFinite_sub
    (timeOfTick_eq h s.stop.toNat).1 hs.stop.finite hle)
  -- both ask for the same number of milliseconds
  have hheard : s.IsHeard (steadyMap ticks beat) ↔ 0 < k := by
    constructor
    · rintro ⟨x, hx, y, hy, j, hj, hpos⟩
      obtain rfl := Except.ok.inj (hstart.symm.trans hx)
      obtain rfl := Except.ok.inj (hstop.symm.trans hy)
      obtain rfl := Except.ok.inj (hk.symm.trans hj)
      exact hpos
    · exact fun hpos => ⟨_, hstart, _, hstop, k, hk, hpos⟩
  rw [noteOfSpan, hstart, ok_bind, hstop, ok_bind, hk, ok_bind]
  by_cases hpos : 0 < k
  · rw [if_neg (by rw [not_or, not_not]; exact ⟨Int.not_le.mpr hpos, hs.pitch⟩), if_pos (hheard.mpr hpos)]
    rfl
  · rw [if_pos (.inl (Int.not_lt.mp hpos)), if_neg (mt hheard.mp hpos)]
    rfl

/-- At a steady tempo exactly the notes that are heard are read. -/
theorem performance_eq (h : IsStatable ticks beat) (hspans : ∀ s ∈ t.spans, s.IsReadable ticks beat) :
    performance (steadyMap ticks beat) t =
      .ok ((t.spans.filter fun s => s.IsHeard (steadyMap ticks beat)).map (Span.playedAt ticks beat)) :=
  performance_of_forall fun s hs => (hspans s hs).noteOfSpan_eq h

/-- A note that is heard takes time. -/
theorem Span.IsHeard.start_lt_stop (hheard : s.IsHeard (steadyMap ticks beat)) (h : IsStatable ticks beat)
    (hs : s.IsReadable ticks beat) :
    timeOfTick ticks beat s.start.toNat < timeOfTick ticks beat s.stop.toNat := by
  obtain ⟨x, hx, y, hy, k, hk, hpos⟩ := hheard
  obtain rfl := Except.ok.inj ((hs.start.toMs_eq h).symm.trans hx)
  obtain rfl := Except.ok.inj ((hs.stop.toMs_eq h).symm.trans hy)
  have hstart := (timeOfTick_eq h s.start.toNat).1
  have hstop := (timeOfTick_eq h s.stop.toNat).1
  have hle := timeOfTick_le_of_le h hs.long.le
  have hfinite := hs.stop.finite
  by_contra hnot
  -- otherwise it would start when it ends, and have no length
  rw [Binary64.not_lt hstart.ne_nan hstop.ne_nan] at hnot
  rw [hstart.le_antisymm hstop hle hnot] at hk
  generalize timeOfTick ticks beat s.stop.toNat = x at hk hstop hfinite
  cases hstop with
  | infinite => cases hfinite
  | finite hn =>
    have hzero : Number.roundHalfUp 0 = .ok 0 := by decide +kernel
    rw [finite_sub_self, hzero] at hk
    exact absurd (Except.ok.inj hk) hpos.ne

/-- Notes that have ended when others start make one line. -/
theorem lines_of_pairwise_stop (h : IsStatable ticks beat)
    (hspans : ∀ s ∈ ss, s.IsReadable ticks beat ∧ s.IsHeard (steadyMap ticks beat))
    (hturn : ss.Pairwise (·.stop ≤ ·.start)) (hne : ss ≠ []) :
    Performance.lines (ss.map (Span.playedAt ticks beat)) = .ok [ss.map (Span.playedAt ticks beat)] := by
  have htimes : ss.Pairwise fun s s' =>
      timeOfTick ticks beat s.start.toNat < timeOfTick ticks beat s'.start.toNat ∧
      timeOfTick ticks beat s.stop.toNat ≤ timeOfTick ticks beat s'.start.toNat := by
    refine hturn.imp_of_mem fun {s s'} hs _ hle => ?_
    have hstop := timeOfTick_le_of_le h hle
    obtain ⟨hs, hheard⟩ := hspans s hs
    exact ⟨Binary64.lt_of_lt_of_le (hheard.start_lt_stop h hs) hstop, hstop⟩
  refine Performance.lines_of_isChain (List.pairwise_map.mpr (htimes.imp fun {s s'} htime => ?_)) ?_
    (mt List.map_eq_nil_iff.mp hne)
  · exact Note.not_before_of_lt rfl rfl htime.1
  · refine (List.pairwise_map.mpr (htimes.imp fun {s s'} htime => ?_)).isChain
    exact ⟨_, rfl, Binary64.le_trans htime.2 ((timeOfTick_eq h _).1.le_add isTime_half)⟩

end Reading

end Monody.Midi
