import Monody.Proofs.Midi.TickTimes

/-!
# Stretches of one tempo

Within a stretch of one tempo the clock does not run back: the length of ticks is a product, and rounding
keeps products in order, however small the rate is. Nor does it run back from one stretch to the next, since
a stretch begins with the very time at which the one before it ends.

Of the stretches in order, the search by halving finds the one that a scan of all of them finds last.

## Main definitions

* `Segment.timeAt` — the time of a tick in a stretch that goes on
* `Joins` — a stretch begins where and when another ends
* `lastFrom` — the last stretch that starts at or before a tick

## Main results

* `msOfTicks_mono` — at one tempo, more ticks do not take less time
* `timeAt_lastFrom_mono` — from stretch to stretch the clock does not run back
* `bisect_spec` — the search finds how many ticks are not after a certain one
* `segmentAt_eq_lastFrom` — it finds the stretch that a scan finds
-/

namespace Monody.Midi

open Binary64

-- evaluated, the numbers of units are too long to be looked at
attribute [local irreducible] one bound

variable {resolution tempo j k tick : ℤ} {x y : Binary64}

/-! ## The length of ticks -/

/-- A real holds what is less than a number that it holds. -/
theorem realOfInt_mono (hj : 0 ≤ j) (hjk : j ≤ k) (hy : Number.realOfInt k = .ok y) :
    ∃ x, Number.realOfInt j = .ok x ∧ IsTime x ∧ IsTime y ∧ y.isFinite ∧ x ≤ y := by
  obtain ⟨j, rfl⟩ := Int.eq_ofNat_of_zero_le hj
  obtain ⟨k, rfl⟩ := Int.eq_ofNat_of_zero_le (hj.trans hjk)
  obtain ⟨hfinite, rfl⟩ := Number.realOfInt_eq_ok_iff.mp hy
  have hle := ofInt_le_ofInt (Int.ofNat_le.mp hjk)
  have hfinite' := (isTime_ofInt j).isFinite_of_le hfinite hle
  exact ⟨_, Number.realOfInt_eq_ok_iff.mpr ⟨hfinite', rfl⟩, isTime_ofInt j, isTime_ofInt k, hfinite, hle⟩

/-- Ticks of a tempo that a real holds have lengths at a finite rate, which is zero if the tempo is. -/
theorem exists_rate_of_held {b r : Binary64} (hresolution : 0 < resolution) (htempo : 0 ≤ tempo)
    (hr : Number.realOfInt resolution = .ok r) (hb : Number.realOfInt tempo = .ok b) :
    ∃ rate : Binary64, IsTime rate ∧ rate.isFinite ∧ ∀ ticks, msOfTicks ticks resolution tempo =
      (Number.realOfInt ticks).map (· * rate * thousand) := by
  have hunits : unitPlaces = 1074 := rfl
  have hrange : rangePlaces = 2098 := rfl
  obtain ⟨-, -, -, hbtime, hbfinite, -⟩ := realOfInt_mono le_rfl htempo hb
  obtain ⟨n, hn, rfl, hpos, hone⟩ : ∃ n hn, r = .finite false n hn ∧ 0 < n ∧ one ≤ n := by
    obtain ⟨hrfinite, rfl⟩ := Number.realOfInt_eq_ok_iff.mp hr
    obtain ⟨resolution, rfl⟩ := Int.eq_ofNat_of_zero_le hresolution.le
    obtain ⟨n, hn, heq, hpos, hdvd, -⟩ :=
      exists_ofInt_eq_finite (Int.natCast_pos.mp hresolution) hrfinite
    exact ⟨n, hn, heq, hpos, Nat.le_of_dvd hpos hdvd⟩
  -- a millionth makes up for the places that a quotient may not have
  have hbeat : IsUnder (rangePlaces - 19) (b * Tempo.millionth) :=
    (hbtime.isUnder hbfinite).mul Tempo.isUnder_millionth (by omega) (by omega)
  have hrate := hbeat.div_of_one_le (by omega) hn hone
  have hnonzero : (finite false n hn).isZero = false := beq_eq_false_iff_ne.mpr hpos.ne'
  refine ⟨_, hrate.isTime, hrate.isFinite, fun ticks => ?_⟩
  rw [msOfTicks, Tempo.secondsOfTicks_eq hb hr, Number.divide, hnonzero, if_neg Bool.false_ne_true, ok_bind]
  cases Number.realOfInt ticks <;> rfl

/-- Where any ticks have a length, all have one that a real holds. -/
theorem exists_rate (hresolution : 0 < resolution) (htempo : 0 ≤ tempo)
    (h : msOfTicks k resolution tempo = .ok y) :
    ∃ rate : Binary64, IsTime rate ∧ rate.isFinite ∧ ∀ ticks, msOfTicks ticks resolution tempo =
      (Number.realOfInt ticks).map (· * rate * thousand) := by
  rw [msOfTicks] at h
  obtain ⟨seconds, hseconds, -⟩ := exists_of_bind_eq_ok h
  obtain ⟨b, r, hb, hr⟩ := Tempo.exists_of_secondsOfTicks hseconds
  exact exists_rate_of_held hresolution htempo hr hb

/-- At one tempo, more ticks do not take less time. -/
theorem msOfTicks_mono (hresolution : 0 < resolution) (htempo : 0 ≤ tempo) (hj : 0 ≤ j) (hjk : j ≤ k)
    (h : msOfTicks k resolution tempo = .ok y) :
    ∃ x, msOfTicks j resolution tempo = .ok x ∧ IsTime x ∧ IsTime y ∧ x ≤ y := by
  obtain ⟨rate, hrate, hfinite, hms⟩ := exists_rate hresolution htempo h
  rw [hms] at h
  cases hk : Number.realOfInt k with
  | error fault =>
    rw [hk] at h
    cases h
  | ok b =>
    rw [hk] at h
    obtain rfl := Except.ok.inj h
    obtain ⟨a, ha, hatime, hbtime, hbfinite, hle⟩ := realOfInt_mono hj hjk hk
    obtain ⟨hx, hy, hle⟩ := hatime.mul_le_mul_of_isFinite hbtime hbfinite hle hrate hfinite
    refine ⟨a * rate * thousand, by rw [hms, ha]; rfl, hx.mul thousand_pos.1 thousand_pos.2,
      hy.mul thousand_pos.1 thousand_pos.2, hx.mul_le_mul thousand_pos.1 thousand_pos.2 hy hle⟩

/-- Where any ticks have a length, no ticks have none. -/
theorem msOfTicks_zero (hresolution : 0 < resolution) (htempo : 0 ≤ tempo)
    (h : msOfTicks k resolution tempo = .ok y) : msOfTicks 0 resolution tempo = .ok 0 := by
  obtain ⟨rate, hrate, hfinite, hms⟩ := exists_rate hresolution htempo h
  have hzero : Number.realOfInt 0 = .ok 0 :=
    Number.realOfInt_eq_ok_iff.mpr ⟨isFinite_ofInt (fits_mul_one (Nat.zero_le _)), rfl⟩
  have hthousand : IsTime thousand := isTime_ofInt 1000
  rw [hms, hzero]
  refine congrArg Except.ok ?_
  calc 0 * rate * thousand = 0 * thousand := congrArg (· * thousand) (hrate.zero_mul hfinite)
    _ = 0 := hthousand.zero_mul thousand_pos.1

/-! ## Stretches -/

/-- The time of a tick in a stretch that goes on. -/
def Segment.timeAt (s : Segment) (resolution tick : ℤ) : Except Number.Fault Binary64 := do
  return s.elapsed + (← msOfTicks (tick - s.start) resolution s.tempo)

/-- The change of tempo that a stretch begins with. -/
def Segment.change (s : Segment) : ℤ × ℤ := (s.start, s.tempo)

/-- A stretch that begins with the time that has passed until then, and not with less than nothing. -/
structure Segment.IsTimed (resolution : ℤ) (s : Segment) : Prop where
  tempo : 0 ≤ s.tempo
  elapsed : IsTime s.elapsed
  timeAt_start : s.timeAt resolution s.start = .ok s.elapsed

variable {s t : Segment} {ts : List Segment}

theorem timeAt_eq_ok_iff : s.timeAt resolution tick = .ok x ↔
    ∃ length, msOfTicks (tick - s.start) resolution s.tempo = .ok length ∧ s.elapsed + length = x := by
  rw [Segment.timeAt]
  cases msOfTicks (tick - s.start) resolution s.tempo with
  | error fault => exact iff_of_false nofun (by rintro ⟨length, hlength, -⟩; cases hlength)
  | ok length =>
    constructor
    · exact fun h => ⟨length, rfl, Except.ok.inj h⟩
    · rintro ⟨length, hlength, rfl⟩
      obtain rfl := Except.ok.inj hlength
      rfl

/-- The ticks of a stretch have times if reals hold them. -/
theorem isOk_timeAt (hresolution : 0 < resolution) (hr : (Number.realOfInt resolution).isOk)
    (htempo : 0 ≤ s.tempo) (hb : (Number.realOfInt s.tempo).isOk) (hstart : 0 ≤ s.start)
    (htick : s.start ≤ tick) (hk : (Number.realOfInt tick).isOk) : (s.timeAt resolution tick).isOk := by
  obtain ⟨r, hr⟩ := exists_ok_of_isOk hr
  obtain ⟨b, hb⟩ := exists_ok_of_isOk hb
  obtain ⟨x, hx⟩ := exists_ok_of_isOk hk
  obtain ⟨rate, -, -, hms⟩ := exists_rate_of_held hresolution htempo hr hb
  have hpassed : 0 ≤ tick - s.start := by omega
  obtain ⟨a, ha, -⟩ := realOfInt_mono hpassed (by omega) hx
  rw [Segment.timeAt, hms, ha]
  rfl

/-- A stretch with a time for some tick has one for its first. -/
theorem isTimed_of_timeAt (hresolution : 0 < resolution) (htempo : 0 ≤ s.tempo) (hs : IsTime s.elapsed)
    (h : s.timeAt resolution tick = .ok x) : s.IsTimed resolution := by
  obtain ⟨length, hlength, -⟩ := timeAt_eq_ok_iff.mp h
  refine ⟨htempo, hs, timeAt_eq_ok_iff.mpr ⟨0, ?_, hs.add_zero⟩⟩
  rw [Int.sub_self]
  exact msOfTicks_zero hresolution htempo hlength

theorem Segment.IsTimed.isTime (h : s.IsTimed resolution) (hresolution : 0 < resolution)
    (hk : s.start ≤ k) (hy : s.timeAt resolution k = .ok y) : IsTime y := by
  obtain ⟨b, hb, rfl⟩ := timeAt_eq_ok_iff.mp hy
  have hlength : 0 ≤ k - s.start := by omega
  obtain ⟨-, -, -, hbtime, -⟩ := msOfTicks_mono hresolution h.tempo hlength le_rfl hb
  exact h.elapsed.add hbtime

/-- Within a stretch the clock does not run back. -/
theorem Segment.IsTimed.timeAt_mono (h : s.IsTimed resolution) (hresolution : 0 < resolution)
    (hj : s.start ≤ j) (hjk : j ≤ k) (hy : s.timeAt resolution k = .ok y) :
    ∃ x, s.timeAt resolution j = .ok x ∧ s.elapsed ≤ x ∧ x ≤ y := by
  obtain ⟨b, hb, rfl⟩ := timeAt_eq_ok_iff.mp hy
  obtain ⟨a, ha, hatime, hbtime, hle⟩ :=
    msOfTicks_mono hresolution h.tempo (j := j - s.start) (by omega) (by omega) hb
  exact ⟨s.elapsed + a, timeAt_eq_ok_iff.mpr ⟨a, ha, rfl⟩, h.elapsed.le_add hatime,
    h.elapsed.add_mono hatime hbtime hle⟩

/-! ## Scans -/

/-- A stretch that starts no earlier than another, with the time at which that one ends. -/
def Joins (resolution : ℤ) (s t : Segment) : Prop :=
  s.start ≤ t.start ∧ s.timeAt resolution t.start = .ok t.elapsed

/-- The last stretch that starts at or before a tick, among a first one that does and those after it. -/
def lastFrom (tick : ℤ) (s : Segment) : List Segment → Segment
  | [] => s
  | t :: ts => if t.start ≤ tick then lastFrom tick t ts else s

/-- From stretch to stretch the clock does not run back. -/
theorem timeAt_lastFrom_mono (hresolution : 0 < resolution) (hjoins : (s :: ts).IsChain (Joins resolution))
    (htimed : ∀ t ∈ s :: ts, t.IsTimed resolution) (hj : s.start ≤ j) (hjk : j ≤ k)
    (hy : (lastFrom k s ts).timeAt resolution k = .ok y) :
    ∃ x, (lastFrom j s ts).timeAt resolution j = .ok x ∧ s.elapsed ≤ x ∧ x ≤ y := by
  induction ts generalizing s j with
  | nil =>
    exact (htimed s List.mem_cons_self).timeAt_mono hresolution hj hjk hy
  | cons t ts ih =>
    obtain ⟨⟨horder, hend⟩, hjoins⟩ := List.isChain_cons_cons.mp hjoins
    obtain ⟨hs, htimed⟩ := List.forall_mem_cons.mp htimed
    rw [lastFrom] at hy ⊢
    by_cases hk : t.start ≤ k
    · rw [if_pos hk] at hy
      by_cases hin : t.start ≤ j
      · obtain ⟨x, hx, hstart, hle⟩ := ih hjoins htimed hin hjk hy
        obtain ⟨begin, -, hbefore, hafter⟩ := hs.timeAt_mono hresolution le_rfl horder hend
        rw [if_pos hin]
        exact ⟨x, hx, Binary64.le_trans (Binary64.le_trans hbefore hafter) hstart, hle⟩
      · -- the first stretch ends between the two ticks
        obtain ⟨x, hx, hstart, hle⟩ := hs.timeAt_mono hresolution hj (by omega) hend
        obtain ⟨begin, -, hbefore, hafter⟩ := ih hjoins htimed le_rfl hk hy
        rw [if_neg hin]
        exact ⟨x, hx, hstart, Binary64.le_trans hle (Binary64.le_trans hbefore hafter)⟩
    · rw [if_neg hk] at hy
      rw [if_neg (by omega)]
      exact hs.timeAt_mono hresolution hj hjk hy

/-- At the first tick of a stretch, those that start there too go on with the same time. -/
theorem timeAt_lastFrom_start (hjoins : (s :: ts).IsChain (Joins resolution))
    (htimed : ∀ t ∈ s :: ts, t.IsTimed resolution) :
    (lastFrom s.start s ts).timeAt resolution s.start = .ok s.elapsed := by
  induction ts generalizing s with
  | nil => exact (htimed s List.mem_cons_self).timeAt_start
  | cons t ts ih =>
    obtain ⟨⟨horder, hend⟩, hjoins⟩ := List.isChain_cons_cons.mp hjoins
    obtain ⟨hs, htimed⟩ := List.forall_mem_cons.mp htimed
    rw [lastFrom]
    split
    · next ht =>
      have hsame : t.start = s.start := Int.le_antisymm ht horder
      rw [hsame] at hend
      have hzero : s.elapsed = t.elapsed := Except.ok.inj (hs.timeAt_start.symm.trans hend)
      rw [← hsame, hzero]
      exact ih hjoins htimed
    · exact hs.timeAt_start

/-- It is the one that a scan of all of them finds last. -/
theorem getLast?_filter_start (horder : (s :: ts).Pairwise (·.start ≤ ·.start)) (hs : s.start ≤ tick) :
    ((s :: ts).filter (·.start ≤ tick)).getLast? = some (lastFrom tick s ts) := by
  induction ts generalizing s with
  | nil => simp [hs, lastFrom]
  | cons t ts ih =>
    obtain ⟨-, hrest⟩ := List.pairwise_cons.mp horder
    have hkeep : (s :: t :: ts).filter (·.start ≤ tick) = s :: (t :: ts).filter (·.start ≤ tick) :=
      List.filter_cons_of_pos (decide_eq_true hs)
    rw [hkeep, lastFrom, List.getLast?_cons]
    by_cases ht : t.start ≤ tick
    · rw [ih hrest ht, if_pos ht]
      rfl
    · -- none of the others starts before this one
      have hnone : (t :: ts).filter (·.start ≤ tick) = [] := by
        refine List.filter_eq_nil_iff.mpr (List.forall_mem_cons.mpr ⟨by simpa using ht, fun u hu => ?_⟩)
        have hle := (List.pairwise_cons.mp hrest).1 u hu
        rw [decide_eq_true_eq]
        omega
      rw [hnone, if_neg ht]
      rfl

/-! ## The search by halving -/

/-- **The search finds** how many ticks are not after a certain one, if they are in order. -/
theorem bisect_spec {ticks : List ℤ} {low high : ℕ} (horder : ticks.Pairwise (· ≤ ·))
    (hhigh : high ≤ ticks.length) (hlow : low ≤ high)
    (hbefore : ∀ i (hi : i < ticks.length), i < low → ticks[i] ≤ tick)
    (hafter : ∀ i (hi : i < ticks.length), high ≤ i → tick < ticks[i]) :
    TempoMap.bisect ticks tick low high hhigh ≤ ticks.length ∧
      (∀ i (hi : i < ticks.length), i < TempoMap.bisect ticks tick low high hhigh → ticks[i] ≤ tick) ∧
      ∀ i (hi : i < ticks.length), TempoMap.bisect ticks tick low high hhigh ≤ i → tick < ticks[i] := by
  have hle : ∀ i j (hi : i < ticks.length) (hj : j < ticks.length), i ≤ j → ticks[i] ≤ ticks[j] := by
    intro i j hi hj hij
    rcases hij.eq_or_lt with rfl | hlt
    · exact le_rfl
    · exact List.pairwise_iff_getElem.mp horder i j hi hj hlt
  -- below the lower end no tick is too late, from the upper end on every tick is
  fun_induction TempoMap.bisect ticks tick low high hhigh with
  | case1 low high hhigh hlt hmiddle hearly ih =>
    refine ih (by omega) hbefore fun i hi hmi => ?_
    exact hearly.trans_le (hle _ i (by omega) hi hmi)
  | case2 low high hhigh hlt hmiddle hlate ih =>
    refine ih (by omega) (fun i hi him => ?_) hafter
    exact (hle i _ hi (by omega) (by omega)).trans (Int.not_lt.mp hlate)
  | case3 low high hhigh hend =>
    exact ⟨hlow.trans hhigh, hbefore, fun i hi hlowi => hafter i hi (by omega)⟩

theorem filter_eq_take {α : Type} {p : α → Bool} {xs : List α} {n : ℕ}
    (hkeep : ∀ i (hi : i < xs.length), i < n → p xs[i] = true)
    (hdrop : ∀ i (hi : i < xs.length), n ≤ i → p xs[i] = false) : xs.filter p = xs.take n := by
  have htake : (xs.take n).filter p = xs.take n := by
    refine List.filter_eq_self.mpr fun x hx => ?_
    obtain ⟨i, hi, rfl⟩ := List.mem_iff_getElem.mp hx
    rw [List.getElem_take]
    exact hkeep i _ (by rw [List.length_take] at hi; omega)
  have hrest : (xs.drop n).filter p = [] := by
    refine List.filter_eq_nil_iff.mpr fun x hx => ?_
    obtain ⟨i, hi, rfl⟩ := List.mem_iff_getElem.mp hx
    rw [List.getElem_drop, hdrop _ _ (by omega)]
    exact Bool.false_ne_true
  calc xs.filter p = (xs.take n ++ xs.drop n).filter p := by rw [List.take_append_drop]
    _ = xs.take n := by rw [List.filter_append, htake, hrest, List.append_nil]

namespace TempoMap

variable {m : TempoMap}

/-- The search finds the stretch that a scan finds. -/
theorem segmentAt_eq_lastFrom (horder : m.segments.Pairwise (·.start ≤ ·.start)) (hfirst : m.first.start ≤ tick) :
    m.segmentAt tick = lastFrom tick m.first m.rest := by
  have hspec := @bisect_spec tick (m.segments.map (·.start)) 0 _ (List.pairwise_map.mpr horder)
    le_rfl (Nat.zero_le _) (fun i _ hlow => absurd hlow (Nat.not_lt_zero i))
    (fun i hi hhigh => absurd hi (Nat.not_lt.mpr hhigh))
  rw [segmentAt]
  generalize bisect (m.segments.map (·.start)) tick 0 _ _ = place at hspec
  obtain ⟨hplace, hbefore, hafter⟩ := hspec
  simp only [List.length_map, List.getElem_map] at hplace hbefore hafter
  have hfilter : m.segments.filter (·.start ≤ tick) = m.segments.take place :=
    filter_eq_take (fun i hi hlt => decide_eq_true (hbefore i hi hlt))
      fun i hi hle => decide_eq_false (Int.not_le.mpr (hafter i hi hle))
  have hpos : place ≠ 0 := by
    rintro rfl
    exact absurd hfirst (Int.not_le.mpr (hafter 0 (Nat.zero_lt_succ _) le_rfl))
  have hfound : (m.segments.take place).getLast? = some (lastFrom tick m.first m.rest) := by
    rw [← hfilter]
    exact getLast?_filter_start horder hfirst
  rw [List.getLast?_take, if_neg hpos, List.getElem?_eq_getElem (by omega)] at hfound
  rw [List.getD_eq_getElem?_getD, List.getElem?_eq_getElem (by omega)]
  exact Option.some.inj hfound

end TempoMap

end Monody.Midi
