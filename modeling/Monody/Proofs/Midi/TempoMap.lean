import Monody.Proofs.Midi.Changes
import Monody.Proofs.Midi.Stretches

/-!
# The clock of a tempo map

A tempo map is a clock: it begins with zero and never runs back, whatever the tempi are and however the
lengths of ticks are rounded. It tells the time in the stretch of the change that holds at a tick. In what
order changes at different ticks are listed makes no difference to it.

It is so for all changes whose ticks have times, and these are at least those whose numbers reals hold.

## Main definitions

* `TempoMap.IsJoined` — stretches of changes, joined from the beginning on
* `TempoMap.IsClock` — what a tempo map says about its changes

## Main results

* `isJoined_of_ofChanges` — the stretches of changes are joined if all changes have times
* `IsJoined.isClock` — joined stretches are a clock
* `exists_ofChanges` — changes that reals hold have a map
* `isClock_of_ofChanges` — the map of some changes is a clock
-/

namespace Monody.Midi.TempoMap

open Binary64

-- evaluated, the numbers of units are too long to be looked at
attribute [local irreducible] one bound

variable {resolution tick : ℤ} {x y : Binary64} {s t : Segment} {ts : List Segment} {m : TempoMap}
  {changes cs ds : List (ℤ × ℤ)} {c : ℤ × ℤ}

/-! ## The map of some changes -/

/-- A stretch begins with its change, at the time which the one before it has reached. -/
theorem next_eq : next resolution s c = (s.timeAt resolution c.1).map (⟨c.1, c.2, ·⟩) := by
  rw [next, Segment.timeAt]
  cases msOfTicks (c.1 - s.start) resolution s.tempo <;> rfl

theorem next_eq_ok_iff : next resolution s c = .ok t ↔
    t.change = c ∧ s.timeAt resolution t.start = .ok t.elapsed := by
  rw [next_eq]
  constructor
  · intro h
    cases hx : s.timeAt resolution c.1 with
    | error fault =>
      rw [hx] at h
      cases h
    | ok x =>
      rw [hx] at h
      obtain rfl := Except.ok.inj h
      exact ⟨rfl, hx⟩
  · rintro ⟨rfl, hx⟩
    exact congrArg (Except.map _) hx

/-- Each of the stretches begins with its change, and joins the one before it. -/
theorem joins_of_segmentsFrom (h : segmentsFrom resolution s changes = .ok ts)
    (horder : (s.change :: changes).Pairwise (·.1 ≤ ·.1)) :
    ts.map Segment.change = changes ∧ (s :: ts).IsChain (Joins resolution) := by
  induction changes generalizing s ts with
  | nil =>
    obtain rfl := Except.ok.inj h
    exact ⟨rfl, .singleton s⟩
  | cons c changes ih =>
    obtain ⟨t, ht, h⟩ := exists_of_bind_eq_ok h
    obtain ⟨rest, hrest, h⟩ := exists_of_bind_eq_ok h
    obtain rfl := Except.ok.inj h
    obtain ⟨rfl, hend⟩ := next_eq_ok_iff.mp ht
    obtain ⟨hle, horder⟩ := List.pairwise_cons.mp horder
    obtain ⟨hlisted, hjoins⟩ := ih hrest horder
    exact ⟨congrArg (t.change :: ·) hlisted,
      List.isChain_cons_cons.mpr ⟨⟨hle t.change List.mem_cons_self, hend⟩, hjoins⟩⟩

/-- All stretches have times if the last one does. -/
theorem isTimed_of_joins (hresolution : 0 < resolution) (hjoins : (s :: ts).IsChain (Joins resolution))
    (htempo : ∀ t ∈ s :: ts, 0 ≤ t.tempo) (hs : IsTime s.elapsed)
    (hlast : ∀ t ∈ (s :: ts).getLast?, ∃ tick x, t.timeAt resolution tick = .ok x) :
    ∀ t ∈ s :: ts, t.IsTimed resolution := by
  induction ts generalizing s with
  | nil =>
    obtain ⟨tick, x, hx⟩ := hlast s rfl
    exact List.forall_mem_singleton.mpr (isTimed_of_timeAt hresolution (htempo s List.mem_cons_self) hs hx)
  | cons t ts ih =>
    obtain ⟨⟨horder, hend⟩, hjoins⟩ := List.isChain_cons_cons.mp hjoins
    obtain ⟨hnonneg, htempo⟩ := List.forall_mem_cons.mp htempo
    have htimed := isTimed_of_timeAt hresolution hnonneg hs hend
    refine List.forall_mem_cons.mpr ⟨htimed, ih hjoins htempo (htimed.isTime hresolution horder hend) ?_⟩
    rwa [List.getLast?_cons_cons] at hlast

/-- The last stretch goes on for ever. -/
theorem segmentAt_last (horder : m.segments.Pairwise (·.start ≤ ·.start))
    (ht : m.segments.getLast? = some t) : m.segmentAt t.start = t := by
  have hle : ∀ s ∈ m.segments, s.start ≤ t.start := fun s hs => key_le_of_getLast? horder ht hs
  have hall : m.segments.filter (·.start ≤ t.start) = m.segments :=
    List.filter_eq_self.mpr fun s hs => decide_eq_true (hle s hs)
  have hfirst : m.first.start ≤ t.start := hle m.first List.mem_cons_self
  have hfound := getLast?_filter_start horder hfirst
  rw [segmentAt_eq_lastFrom horder hfirst]
  exact (Option.some.inj (ht.symm.trans (hall ▸ hfound))).symm

/-- Stretches of changes are in the order of their starts. -/
theorem pairwise_segments (h : m.segments.map Segment.change = ordered changes) :
    m.segments.Pairwise (·.start ≤ ·.start) := by
  have horder := pairwise_ordered changes
  rw [← h, List.pairwise_map] at horder
  exact horder

/-- Stretches of changes, joined from the beginning on. -/
structure IsJoined (changes : List (ℤ × ℤ)) (m : TempoMap) : Prop where
  listed : m.segments.map Segment.change = ordered changes
  joins : m.segments.IsChain (Joins m.resolution)
  timed : ∀ s ∈ m.segments, s.IsTimed m.resolution
  start : m.first.start = 0
  elapsed : m.first.elapsed = 0

theorem IsJoined.pairwise (h : m.IsJoined changes) : m.segments.Pairwise (·.start ≤ ·.start) :=
  pairwise_segments h.listed

/-- The first stretch begins with no time. -/
theorem first_of_ofChanges (hresolution : 0 < resolution) (htempo : 0 ≤ (inOrder changes).1.2)
    (h : ofChanges resolution changes = .ok m) :
    m.resolution = resolution ∧ m.first.change = (inOrder changes).1 ∧ m.first.elapsed = 0 ∧
      m.first.timeAt resolution m.first.start = .ok 0 ∧
      segmentsFrom resolution m.first (inOrder changes).2 = .ok m.rest := by
  rw [ofChanges] at h
  generalize inOrder changes = order at h htempo
  obtain ⟨⟨start, tempo⟩, rest⟩ := order
  obtain ⟨s, hs, h⟩ := exists_of_bind_eq_ok h
  obtain ⟨ts, hts, h⟩ := exists_of_bind_eq_ok h
  obtain rfl := Except.ok.inj h
  obtain ⟨hchange, hend⟩ := next_eq_ok_iff.mp hs
  obtain ⟨rfl, rfl⟩ := Prod.mk.inj hchange
  -- what it begins with are no ticks of its own tempo
  have htimed : Segment.IsTimed resolution ⟨s.start, s.tempo, 0⟩ :=
    isTimed_of_timeAt hresolution htempo isTime_zero hend
  have helapsed : s.elapsed = 0 := Except.ok.inj (hend.symm.trans htimed.timeAt_start)
  refine ⟨rfl, rfl, helapsed, ?_, hts⟩
  rw [Segment.timeAt, helapsed]
  exact htimed.timeAt_start

/-- Whether they have times or not, the stretches are those of the changes, from the beginning on. -/
theorem segments_of_ofChanges (hresolution : 0 < resolution) (hchanges : ∀ c ∈ changes, 0 ≤ c.1 ∧ 0 ≤ c.2)
    (h : ofChanges resolution changes = .ok m) :
    m.resolution = resolution ∧ m.segments.map Segment.change = ordered changes ∧
      m.segments.IsChain (Joins resolution) ∧ m.first.start = 0 := by
  have hnonneg := nonneg_of_mem_ordered hchanges
  obtain ⟨hm, hchange, -, -, hrest⟩ :=
    first_of_ofChanges hresolution (hnonneg _ List.mem_cons_self).2 h
  obtain ⟨hlisted, hjoins⟩ := joins_of_segmentsFrom hrest (hchange ▸ pairwise_ordered changes)
  refine ⟨hm, ?_, hjoins, ?_⟩
  · rw [ordered, ← hchange, ← hlisted]
    rfl
  · exact (congrArg Prod.fst hchange).trans (head_ordered fun c hc => (hchanges c hc).1)

/-- The last stretch has times if its change has one. -/
theorem exists_timeAt_last (hlisted : m.segments.map Segment.change = ordered changes)
    (hfirst : m.first.timeAt m.resolution m.first.start = .ok 0)
    (htimes : ∀ c ∈ changes, (m.toMs c.1).isOk) :
    ∀ t ∈ m.segments.getLast?, ∃ tick x, t.timeAt m.resolution tick = .ok x := by
  intro t ht
  cases hsplit : m.rest with
  | nil =>
    rw [segments, hsplit] at ht
    obtain rfl := Option.some.inj ht
    exact ⟨m.first.start, 0, hfirst⟩
  | cons t' ts =>
    have hmem : t ∈ m.rest := by
      rw [segments, hsplit, List.getLast?_cons_cons] at ht
      rw [hsplit]
      exact List.mem_of_getLast? ht
    have htail : t.change ∈ (ordered changes).tail := by
      rw [← hlisted]
      exact List.mem_map_of_mem hmem
    obtain ⟨x, hx⟩ := exists_ok_of_isOk (htimes t.change (mem_of_mem_tail_ordered htail))
    rw [← segmentAt_last (pairwise_segments hlisted) ht]
    exact ⟨t.start, x, hx⟩

/-- The stretches of changes are joined if all changes have times. -/
theorem isJoined_of_ofChanges (hresolution : 0 < resolution) (hchanges : ∀ c ∈ changes, 0 ≤ c.1 ∧ 0 ≤ c.2)
    (hm : ofChanges resolution changes = .ok m) (htimes : ∀ c ∈ changes, (m.toMs c.1).isOk) :
    m.resolution = resolution ∧ m.IsJoined changes := by
  have hnonneg := nonneg_of_mem_ordered hchanges
  obtain ⟨-, -, helapsed, hfirst, -⟩ :=
    first_of_ofChanges hresolution (hnonneg _ List.mem_cons_self).2 hm
  obtain ⟨rfl, hlisted, hjoins, hstart⟩ := segments_of_ofChanges hresolution hchanges hm
  have htempo : ∀ t ∈ m.segments, 0 ≤ t.tempo := fun t ht =>
    (hnonneg t.change (hlisted ▸ List.mem_map_of_mem ht)).2
  exact ⟨rfl, hlisted, hjoins, isTimed_of_joins hresolution hjoins htempo (helapsed ▸ isTime_zero)
    (exists_timeAt_last hlisted hfirst htimes), hstart, helapsed⟩

/-! ## The clock -/

/-- What a tempo map says about the changes of tempo that it is the clock of. -/
structure IsClock (changes : List (ℤ × ℤ)) (m : TempoMap) : Prop where
  /-- It begins with zero. -/
  zero : m.toMs 0 = .ok 0
  /-- It never runs back: before a tick that has a time, all ticks have times that are not later. -/
  mono : ∀ j k y, 0 ≤ j → j ≤ k → m.toMs k = .ok y → ∃ x, m.toMs j = .ok x ∧ x ≤ y
  /-- Every change of tempo starts a stretch. -/
  listed : ∀ c ∈ changes, ∃ s ∈ m.segments, s.start = c.1 ∧ s.tempo = c.2
  /-- Where one stretch ends and the next one starts, both have the same time. -/
  continuous : m.segments.IsChain fun s t =>
    ∃ x, s.timeAt m.resolution t.start = .ok x ∧ t.timeAt m.resolution t.start = .ok x
  /-- The time of a tick is that in the stretch which a scan finds last among those that start at or before
  it, which is the stretch of the change that a scan of all changes settles on. -/
  scan : ∀ tick, 0 ≤ tick → ∃ s, (m.segments.filter (·.start ≤ tick)).getLast? = some s ∧
    m.toMs tick = s.timeAt m.resolution tick ∧ (s.start, s.tempo) = lastChange changes tick

/-- Joined stretches of changes are a clock. -/
theorem IsJoined.isClock (h : m.IsJoined changes) (hresolution : 0 < m.resolution)
    (hchanges : ∀ c ∈ changes, 0 ≤ c.1) : m.IsClock changes := by
  have hfirst {tick : ℤ} (htick : 0 ≤ tick) : m.first.start ≤ tick := h.start.trans_le htick
  have htoMs {tick : ℤ} (htick : 0 ≤ tick) :
      m.toMs tick = (lastFrom tick m.first m.rest).timeAt m.resolution tick := by
    rw [← segmentAt_eq_lastFrom h.pairwise (hfirst htick)]
    rfl
  refine ⟨?_, fun j k y hj hjk hy => ?_, fun c hc => ?_, ?_, fun tick htick => ?_⟩
  · have hzero := timeAt_lastFrom_start h.joins h.timed
    rw [h.start, h.elapsed] at hzero
    exact (htoMs le_rfl).trans hzero
  · rw [htoMs (hj.trans hjk)] at hy
    obtain ⟨x, hx, -, hle⟩ :=
      timeAt_lastFrom_mono hresolution h.joins h.timed (hfirst hj) hjk hy
    exact ⟨x, (htoMs hj).trans hx, hle⟩
  · have hmem := mem_ordered hc
    rw [← h.listed] at hmem
    obtain ⟨s, hs, rfl⟩ := List.mem_map.mp hmem
    exact ⟨s, hs, rfl, rfl⟩
  · exact h.joins.imp_of_mem_imp fun s t _ ht hst => ⟨t.elapsed, hst.2, (h.timed t ht).timeAt_start⟩
  · have hfound := getLast?_filter_start h.pairwise (hfirst htick)
    refine ⟨_, hfound, htoMs htick, ?_⟩
    -- the stretch that is found is the latest of the ordered changes, and there is one such change
    have hlatest : IsLatest (ordered changes) tick (lastFrom tick m.first m.rest).change := by
      refine .of_pairwise (pairwise_ordered changes) ?_
      rw [← h.listed, List.filter_map, List.getLast?_map]
      exact congrArg (Option.map Segment.change) hfound
    exact hlatest.unique (.foldl htick) (getLast?_filter_ordered hchanges)

/-- Changes with the same ones at each tick have the same map. -/
theorem ofChanges_congr (h : ∀ k, cs.filter (·.1 = k) = ds.filter (·.1 = k)) :
    ofChanges resolution cs = ofChanges resolution ds := by
  have hsorted := @mergeSort_key_congr _ _ _ (Prod.fst : ℤ × ℤ → ℤ) cs ds h
  have horder : inOrder cs = inOrder ds := by rw [inOrder, hsorted]; rfl
  rw [ofChanges, horder]
  rfl

/-- Whole numbers that are not negative and that reals hold. -/
structure IsHeldChange (c : ℤ × ℤ) : Prop where
  nonneg : 0 ≤ c.1 ∧ 0 ≤ c.2
  tick : (Number.realOfInt c.1).isOk
  tempo : (Number.realOfInt c.2).isOk

theorem isHeldChange_of_mem_ordered (hchanges : ∀ c ∈ changes, IsHeldChange c) :
    ∀ c ∈ ordered changes, IsHeldChange c := by
  intro c hc
  rcases mem_of_mem_ordered hc with rfl | hmem
  · refine ⟨⟨le_rfl, by decide⟩, ?_, ?_⟩ <;> rw [Number.realOfInt_of_natAbs_le (by decide)] <;> rfl
  · exact hchanges c hmem

section Held

variable (hresolution : 0 < resolution) (hr : (Number.realOfInt resolution).isOk)
include hresolution hr

theorem exists_segmentsFrom (horder : (s.change :: changes).Pairwise (·.1 ≤ ·.1))
    (hchanges : ∀ c ∈ s.change :: changes, IsHeldChange c) :
    ∃ ts, segmentsFrom resolution s changes = .ok ts := by
  induction changes generalizing s with
  | nil => exact ⟨[], rfl⟩
  | cons c changes ih =>
    obtain ⟨hs, hchanges⟩ := List.forall_mem_cons.mp hchanges
    obtain ⟨hle, horder⟩ := List.pairwise_cons.mp horder
    obtain ⟨x, hx⟩ := exists_ok_of_isOk (isOk_timeAt hresolution hr hs.nonneg.2 hs.tempo hs.nonneg.1
      (hle c List.mem_cons_self) (hchanges c List.mem_cons_self).tick)
    have hnext : next resolution s c = .ok ⟨c.1, c.2, x⟩ := next_eq_ok_iff.mpr ⟨rfl, hx⟩
    obtain ⟨ts, hts⟩ := @ih ⟨c.1, c.2, x⟩ horder hchanges
    refine ⟨⟨c.1, c.2, x⟩ :: ts, ?_⟩
    rw [segmentsFrom, hnext, ok_bind, hts]
    rfl

/-- Changes that reals hold have a map, and so have all ticks that a real holds a time. -/
theorem exists_ofChanges (hchanges : ∀ c ∈ changes, IsHeldChange c) :
    ∃ m, ofChanges resolution changes = .ok m ∧
      ∀ tick, 0 ≤ tick → (Number.realOfInt tick).isOk → (m.toMs tick).isOk := by
  have hheld := isHeldChange_of_mem_ordered hchanges
  have horder := pairwise_ordered changes
  obtain ⟨m, hm⟩ : ∃ m, ofChanges resolution changes = .ok m := by
    rw [ofChanges]
    -- the first stretch starts where its change does, at no time yet
    rw [ordered] at hheld horder
    generalize inOrder changes = order at hheld horder
    obtain ⟨first, rest⟩ := order
    have hfirst := hheld first List.mem_cons_self
    obtain ⟨x, hx⟩ := exists_ok_of_isOk (@isOk_timeAt resolution first.1 ⟨first.1, first.2, 0⟩ hresolution hr
      hfirst.nonneg.2 hfirst.tempo hfirst.nonneg.1 le_rfl hfirst.tick)
    have hnext : next resolution ⟨first.1, first.2, 0⟩ first = .ok ⟨first.1, first.2, x⟩ :=
      next_eq_ok_iff.mpr ⟨rfl, hx⟩
    obtain ⟨ts, hts⟩ := @exists_segmentsFrom _ ⟨first.1, first.2, x⟩ _ hresolution hr horder hheld
    refine ⟨⟨resolution, ⟨first.1, first.2, x⟩, ts⟩, ?_⟩
    dsimp only
    rw [hnext, ok_bind, hts]
    rfl
  refine ⟨m, hm, fun tick htick hk => ?_⟩
  obtain ⟨rfl, hlisted, -, hstart⟩ :=
    segments_of_ofChanges hresolution (fun c hc => (hchanges c hc).nonneg) hm
  have hfirst : m.first.start ≤ tick := hstart.trans_le htick
  -- the stretch that a tick lies in is that of a change, which is held
  have hfound := getLast?_filter_start (pairwise_segments hlisted) hfirst
  rw [← segmentAt_eq_lastFrom (pairwise_segments hlisted) hfirst] at hfound
  obtain ⟨hmem, hle⟩ := List.mem_filter.mp (List.mem_of_getLast? hfound)
  have hs := hheld _ (hlisted ▸ List.mem_map_of_mem hmem)
  exact isOk_timeAt hresolution hr hs.nonneg.2 hs.tempo hs.nonneg.1 (of_decide_eq_true hle) hk

end Held

/-- **A tempo map is a monotone, continuous clock.** It is so for any changes, whatever their order, as long
as their ticks have times. Those at different ticks may change places. -/
theorem isClock_of_ofChanges (hresolution : 0 < resolution) (hchanges : ∀ c ∈ changes, 0 ≤ c.1 ∧ 0 ≤ c.2)
    (hm : ofChanges resolution changes = .ok m) (htimes : ∀ c ∈ changes, (m.toMs c.1).isOk) :
    m.IsClock changes ∧
    (∀ changes' : List (ℤ × ℤ), changes'.Perm changes → (changes.map (·.1)).Nodup →
      ofChanges resolution changes' = .ok m) ∧
    ∀ changes' : List (ℤ × ℤ), (∀ k, changes'.filter (·.1 = k) = changes.filter (·.1 = k)) →
      ofChanges resolution changes' = .ok m := by
  obtain ⟨rfl, hjoined⟩ := isJoined_of_ofChanges hresolution hchanges hm htimes
  refine ⟨hjoined.isClock hresolution fun c hc => (hchanges c hc).1, fun changes' hperm hkeys => ?_,
    fun changes' hsame => ?_⟩
  · exact (ofChanges_congr (filter_key_of_perm hperm hkeys)).trans hm
  · exact (ofChanges_congr hsame).trans hm

/-- Changes that are not listed in order, two of them at one tick, and the last of these to a tempo at which
time stands still. -/
theorem isClock_of_ofChanges_gallop :
    ∃ m, ofChanges 48 [(96, 250000), (0, 600000), (48, 300000), (48, 0)] = .ok m ∧
      m.toMs 96 = .ok (Binary64.ofInt 600) ∧
      m.IsClock [(96, 250000), (0, 600000), (48, 300000), (48, 0)] ∧
      ofChanges 48 [(0, 600000), (48, 300000), (48, 0), (96, 250000)] = .ok m := by
  have horder : inOrder [(96, 250000), (0, 600000), (48, 300000), (48, 0)] =
      ((0, 600000), [(48, 300000), (48, 0), (96, 250000)]) := by
    simp [inOrder, List.mergeSort]
  have htimes : (ofChanges 48 [(96, 250000), (0, 600000), (48, 300000), (48, 0)]).toOption.any (fun m =>
      decide (m.toMs 96 = .ok (Binary64.ofInt 600) ∧
        ∀ c ∈ [((96 : ℤ), (250000 : ℤ)), (0, 600000), (48, 300000), (48, 0)], (m.toMs c.1).isOk)) = true := by
    rw [ofChanges, horder]
    decide +kernel
  obtain ⟨m, hm, htimes⟩ := (Option.any_eq_true ..).mp htimes
  have hm := toOption_eq_some_iff.mp hm
  obtain ⟨hends, htimes⟩ := of_decide_eq_true htimes
  obtain ⟨hclock, -, hsame⟩ := isClock_of_ofChanges (by decide) (by decide) hm htimes
  refine ⟨m, hm, hends, hclock, hsame _ fun k => ?_⟩
  simp only [List.filter_cons, decide_eq_true_eq]
  split_ifs <;> first | rfl | omega

end Monody.Midi.TempoMap
