import Monody.Proofs.Performance.Score
import Monody.Proofs.Performance.Splitting

/-!
# Rounding along a line

Every duration of a line is rounded on its own, so that what is written of notes that touch runs ahead of
them or falls behind. A note after a gap is to be placed at its own rounded start. It is, if what is
written before it has ended by then. But where it has run ahead, by more than the gap, there is no pause
that could be written: the note begins where the one before it ends, late.

What is written is read exactly as far as whole milliseconds are, and where it reaches further than that it
does so when it is read too. So this holds of every note that starts within these, however long the line
was before.

## Main definitions

* `Note.IsSayable` — a note of known times that a score can say
* `IsClock` — the time that is read where so many milliseconds are written
* `Begins`, `BeginsAfter` — when a note is read to begin
* `BeginOnTime` — notes that begin at their rounded starts wherever they follow a gap

## Main results

* `Laid.cons_inv` — the first note of a line, and the line after it
* `Laid.isChain` — every note of a line begins as it should after the one before it
* `begins_of_lines` — the lines of a performance are written and read so
* `not_beginOnTime` — not every note after a gap begins at its rounded start
-/

namespace Monody.Performance

open Binary64 Melody

-- evaluated, the numbers of units are too long to be looked at
attribute [local irreducible] one bound

variable {n : Note} {ns : List Note} {gs : List ℕ} {ws : List (List Char)} {e : Event} {es : List Event}
  {p : Position} {time : Binary64} {c : ℕ} {pause : ℤ}

/-- A note that a score can say, with a start and an end that are finite and a start that is not
negative. -/
structure Note.IsSayable (n : Note) : Prop where
  start : n.start.IsBounded
  stop : n.stop.IsBounded
  nonneg : 0 ≤ n.start
  writable : n.IsWritable

theorem Note.IsSayable.isKnown (h : n.IsSayable) : n.IsKnown := by
  obtain ⟨y, hy, -⟩ := h.stop
  exact ⟨h.start, y, hy⟩

/-! ## The clock -/

/-- The time that is read where so many milliseconds are written. Up to `2 ^ 53` it is exact, and from there
on it is no less than that. -/
structure IsClock (time : Binary64) (c : ℕ) : Prop where
  isTime : IsTime time
  exact : c ≤ 2 ^ 53 → time = ofInt c
  beyond : 2 ^ 53 ≤ c → ofInt (2 ^ 53 : ℕ) ≤ time

namespace IsClock

theorem zero : IsClock 0 0 where
  isTime := isTime_zero
  exact _ := rfl
  beyond h := absurd h (by decide)

/-- What is read is no less than what is written, within the range. -/
theorem ofInt_le (h : IsClock time c) {start : ℕ} (hstart : start ≤ 2 ^ 53) (hle : start ≤ c) :
    ofInt start ≤ time := by
  obtain hc | hc := Nat.le_total c (2 ^ 53)
  · rw [h.exact hc]
    exact ofInt_le_ofInt hle
  · exact Binary64.le_trans (ofInt_le_ofInt hstart) (h.beyond hc)

/-- The clock runs on. -/
theorem add (h : IsClock time c) (k : ℕ) : IsClock (time + ofInt k) (c + k) where
  isTime := h.isTime.add (isTime_ofInt k)
  exact hsum := by
    have hc : c ≤ 2 ^ 53 := by omega
    have hk : k ≤ 2 ^ 53 := by omega
    rw [h.exact hc, ofInt_natCast hc, ofInt_natCast hk, ofInt_natCast hsum]
    exact ofNat_add_ofNat hc hk hsum
  beyond hsum := by
    obtain hc | hc := Nat.le_total c (2 ^ 53)
    · -- as far as the range there would be an exact sum
      have hrest : 2 ^ 53 - c ≤ 2 ^ 53 := by omega
      have hexact : time + ofInt (2 ^ 53 - c : ℕ) = ofInt (2 ^ 53 : ℕ) := by
        rw [h.exact hc, ofInt_natCast hc, ofInt_natCast hrest, ofNat_add_ofNat hc hrest (by omega),
          ofInt_natCast le_rfl]
        congr 1
        omega
      have hfinite : time.isFinite := by
        rw [h.exact hc, ofInt_natCast hc]
        rfl
      rw [← hexact]
      exact IsTime.add_le_add_left hfinite (isTime_ofInt _) (isTime_ofInt _)
        (ofInt_le_ofInt (by omega))
    · exact Binary64.le_trans (h.beyond hc) (h.isTime.le_add (isTime_ofInt k))

end IsClock

/-! ## Single notes -/

/-- A note starts at most half a millisecond after another has ended. -/
def Note.Touches (n prior : Note) : Prop := ∃ d, n.start.sub prior.stop = .ok d ∧ d ≤ .real Number.half

instance (n prior : Note) : Decidable (n.Touches prior) := inferInstanceAs (Decidable (∃ _, _ ∧ _))

theorem touches_iff {cursor : ℤ} {p : Note} :
    Position.touches ⟨cursor, some p.stop⟩ n = .ok true ↔ n.Touches p := by
  rw [Position.touches, Note.Touches]
  dsimp only
  constructor
  · intro h
    obtain ⟨d, hd, h⟩ := exists_of_bind_eq_ok h
    exact ⟨d, hd, of_decide_eq_true (Except.ok.inj h)⟩
  · rintro ⟨d, hd, hle⟩
    rw [hd, ok_bind, decide_eq_true hle]
    rfl

/-- When a note is read to begin, after others up to a time. If it touches them, it begins then. Otherwise
it begins at its own rounded start exactly if they have ended by that time, and else where they end. -/
structure Begins (touches : Prop) (time : Binary64) (n : Note) (e : Event) : Prop where
  touching : touches → e.start = time
  apart : ¬ touches → ∀ start, n.start.nearest = .ok start → start ≤ 2 ^ 53 →
    (e.start = .ofInt start ↔ time ≤ .ofInt start) ∧ (¬ time ≤ .ofInt start → e.start = time)

/-- When a note is read to begin, after another. -/
def BeginsAfter (prior next : Note × Event) : Prop :=
  Begins (next.1.Touches prior.1) prior.2.stop next.1 next.2

/-- A note begins after the pause before it. -/
theorem begins_of_gap (hgap : gap p n = .ok pause) (hclock : IsClock time c) (hp : p.cursor = c)
    (hnonneg : ∀ start, n.start.nearest = .ok start → 0 ≤ start)
    (hstart : e.start = if pause ≤ 0 then time else time + ofInt pause) :
    Begins (p.touches n = .ok true) time n e := by
  obtain ⟨touches, htouches, hgap⟩ := exists_of_bind_eq_ok hgap
  rw [htouches]
  cases touches with
  | true =>
    obtain rfl := Except.ok.inj hgap
    rw [if_pos le_rfl] at hstart
    exact ⟨fun _ => hstart, fun hnot => absurd rfl hnot⟩
  | false =>
    obtain ⟨start, hnearest, hgap⟩ := exists_of_bind_eq_ok hgap
    obtain rfl := Except.ok.inj hgap
    refine ⟨nofun, fun _ start' hnearest' hrange => ?_⟩
    obtain rfl := Except.ok.inj (hnearest.symm.trans hnearest')
    obtain ⟨s, rfl⟩ : ∃ s : ℕ, start = s := ⟨start.toNat, (Int.toNat_of_nonneg (hnonneg start hnearest)).symm⟩
    have hs : s ≤ 2 ^ 53 := by omega
    rw [hp] at hstart
    obtain hle | hlt := le_or_gt s c
    · -- what is written before the note has run as far as its start, or ahead of it
      rw [if_pos (by omega)] at hstart
      rw [hstart]
      refine ⟨⟨fun heq => ?_, fun hend => ?_⟩, fun _ => rfl⟩
      · rw [heq]
        exact Binary64.le_refl (isTime_ofInt s).ne_nan
      · exact hclock.isTime.le_antisymm (isTime_ofInt s) hend (hclock.ofInt_le hs hle)
    · have hpause : (s : ℤ) - c = (s - c : ℕ) := by omega
      have hread := hclock.add (s - c)
      rw [Nat.add_sub_cancel' hlt.le] at hread
      rw [if_neg (by omega), hpause, hread.exact hs] at hstart
      have hend : time ≤ ofInt s := by
        rw [hclock.exact (by omega)]
        exact ofInt_le_ofInt hlt.le
      exact ⟨iff_of_true hstart hend, fun hnot => absurd hend hnot⟩

/-! ## Lines -/

/-- The first note of a line begins after the pause before it, and the others are written from its end. -/
theorem Laid.cons_inv (h : Laid p time (n :: ns) gs ws es) :
    ∃ e es' gs' ws' pause, ∃ k : ℕ, es.filter (·.isPlayable) = e :: es'.filter (·.isPlayable) ∧
      gap p n = .ok pause ∧ (e.start = if pause ≤ 0 then time else time + ofInt pause) ∧
      e.stop = e.start + ofInt k ∧ Laid ⟨p.cursor + max 0 pause + k, some n.stop⟩ e.stop ns gs' ws' es' := by
  cases h with
  | @note _ _ _ _ gs w ws e es pause k hgap hnone hplayed hreading hstart hrest =>
    refine ⟨e, es, gs, ws, pause, k, List.filter_cons_of_pos hplayed.isPlayable, hgap, ?_, ?_, ?_⟩
    · rw [if_pos hnone]
      exact hstart.start
    · rw [hstart.stop, hstart.start, hreading.duration]
    · rw [max_eq_left hnone, Int.add_zero]
      exact hrest
  | @paused _ _ _ _ g gs v w ws e' e es k hgap hpause hstart' hplayed hreading hstart hrest =>
    have hpos : (0 : ℤ) < g := Int.natCast_pos.mpr hpause.pos
    refine ⟨e, es, gs, ws, g, k, ?_, hgap, ?_, ?_, ?_⟩
    · rw [List.filter_cons_of_neg (by simp [hpause.isPlayable]),
        List.filter_cons_of_pos hplayed.isPlayable]
    · rw [if_neg (Int.not_le.mpr hpos), hstart.start, hstart'.stop, hpause.duration]
    · rw [hstart.stop, hstart.start, hreading.duration]
    · rw [max_eq_right hpos.le]
      exact hrest

/-- Every note of a line begins as it should after the one before it, and so does the first one after what
is written before. -/
theorem Laid.isChain (h : Laid p time ns gs ws es) (hclock : IsClock time c) (hp : p.cursor = c)
    (hnonneg : ∀ n ∈ ns, ∀ start, n.start.nearest = .ok start → 0 ≤ start) :
    (∀ q ∈ (ns.zip (es.filter (·.isPlayable))).head?, Begins (p.touches q.1 = .ok true) time q.1 q.2) ∧
      (ns.zip (es.filter (·.isPlayable))).IsChain BeginsAfter := by
  -- the clock carries the induction: it tells the time as long as that can be told exactly
  induction ns generalizing p time c gs ws es with
  | nil =>
    rw [List.zip_nil_left]
    exact ⟨fun q hq => absurd hq (Option.not_mem_none q), .nil⟩
  | cons n ns ih =>
    obtain ⟨hn, hnonneg⟩ := List.forall_mem_cons.mp hnonneg
    obtain ⟨e, es', gs', ws', pause, k, hplayable, hgap, hstart, hstop, hrest⟩ := h.cons_inv
    have hbegin : IsClock e.start (c + (max 0 pause).toNat) := by
      rw [hstart]
      split
      · next hnone =>
        rw [max_eq_left hnone]
        exact hclock
      · next hpos =>
        have hread := hclock.add pause.toNat
        rw [Int.toNat_of_nonneg (by omega)] at hread
        rw [max_eq_right (by omega)]
        exact hread
    have hend := hbegin.add k
    rw [← hstop] at hend
    obtain ⟨hnext, hchain⟩ := ih hrest hend (by dsimp only; omega) hnonneg
    rw [hplayable, List.zip_cons_cons]
    refine ⟨fun q hq => ?_, List.isChain_cons.mpr ⟨fun q hq => ?_, hchain⟩⟩
    · obtain rfl := Option.some.inj hq
      exact begins_of_gap hgap hclock hp hn hstart
    · have hq' := hnext q hq
      rw [touches_iff (p := n)] at hq'
      exact hq'

/-- The first note of a line begins at its rounded start. -/
theorem Laid.start_head (h : Laid ⟨0, none⟩ 0 (n :: ns) gs ws es) (start : ℤ)
    (hstart : n.start.nearest = .ok start) (hnonneg : 0 ≤ start) :
    ∀ e ∈ (es.filter (·.isPlayable)).head?, e.start = .ofInt start := by
  obtain ⟨e, es', gs', ws', pause, k, hplayable, hgap, hbegin, -⟩ := h.cons_inv
  obtain ⟨touches, htouches, hgap⟩ := exists_of_bind_eq_ok hgap
  obtain rfl : false = touches := Except.ok.inj htouches
  obtain ⟨start', hstart', hgap⟩ := exists_of_bind_eq_ok hgap
  obtain rfl := Except.ok.inj (hstart.symm.trans hstart')
  obtain rfl := Except.ok.inj hgap
  rw [hplayable]
  intro e' he'
  obtain rfl := Option.some.inj he'
  rw [hbegin]
  dsimp only
  rw [Int.sub_zero]
  split
  · next hnone => rw [Int.le_antisymm hnone hnonneg]; rfl
  · obtain ⟨s, rfl⟩ : ∃ s : ℕ, start = s := ⟨start.toNat, (Int.toNat_of_nonneg hnonneg).symm⟩
    exact (isTime_ofInt s).zero_add

/-- A performance has lines. Each is written as a score without flaws, which is read as its notes, each of
its rounded length. The first of them begins at its rounded start; any other that touches the one before
it begins where that ends; and one that does not begins at its own rounded start, unless what is written
before it has not ended by then. -/
theorem begins_of_lines (h : ∀ n ∈ ns, n.IsSayable) :
    ∃ ls, lines ns = .ok ls ∧ ∀ line ∈ ls, ∃ text m, score line = .ok text ∧ parse text = .ok m ∧
      (∀ e ∈ m.events, e.flaw = none) ∧
      List.Forall₂ (fun n e => ∃ w, Note.IsPlayed n w e) line m.notes ∧
      (∀ q ∈ (line.zip m.notes).head?, ∀ start, q.1.start.nearest = .ok start →
        q.2.start = .ofInt start) ∧
      (line.zip m.notes).IsChain BeginsAfter := by
  obtain ⟨ls, classes, hls, -⟩ := exists_isPlaced fun n hn => (h n hn).start
  refine ⟨_, hls, fun line hline => ?_⟩
  obtain ⟨l, rfl, hlineof⟩ := exists_isLineOf hls hline
  have hsayable : ∀ n ∈ l.notes, n.IsSayable := fun n hn => h n (hlineof.mem_of_mem hn)
  have hwritable : ∀ n ∈ l.notes, n.IsWritable := fun n hn => (hsayable n hn).writable
  have hnonneg : ∀ n ∈ l.notes, ∀ start, n.start.nearest = .ok start → 0 ≤ start :=
    fun n hn start => Number.nearest_nonneg (hsayable n hn).start (hsayable n hn).nonneg
  obtain ⟨text, htext⟩ := exists_score hwritable fun n hn => (hsayable n hn).isKnown
  obtain ⟨m, gs, ws, hparse, -, -, -, hlaid⟩ := exists_laid_of_score hwritable htext
  have hscored := hlaid.scored le_rfl
  refine ⟨text, m, htext, hparse, hscored.sound, hscored.forall₂_notes, fun q hq start hstart => ?_,
    (hlaid.isChain IsClock.zero rfl hnonneg).2⟩
  -- the first note of a line has nothing before it but a pause up to its start
  generalize l.notes = line at hlaid hq hnonneg
  cases line with
  | nil => cases hq
  | cons n ns =>
    obtain ⟨e, es', -, -, -, -, hplayable, -⟩ := hlaid.cons_inv
    have hhead := hlaid.start_head start
    rw [Melody.notes, hplayable, List.zip_cons_cons] at hq
    obtain rfl := Option.some.inj hq
    rw [hplayable] at hhead
    exact hhead hstart (hnonneg n List.mem_cons_self start hstart) e rfl

/-- Three notes that touch, each of a length that is rounded up, and one after a gap. -/
def drifting : List Note :=
  [⟨0, .real (.ofDecimal false ⟨15, -1⟩), 60, 0⟩,
    ⟨.real (.ofDecimal false ⟨15, -1⟩), 3, 62, 0⟩,
    ⟨3, .real (.ofDecimal false ⟨45, -1⟩), 64, 0⟩,
    ⟨.real (.ofDecimal false ⟨525, -2⟩), .real (.ofDecimal false ⟨625, -2⟩), 65, 0⟩]

theorem isSayable_drifting : ∀ n ∈ drifting, n.IsSayable := by
  have hall : ∀ n ∈ drifting, n.start.IsBounded ∧ n.stop.IsBounded ∧ 0 ≤ n.start ∧
      (∃ k, n.length = .ok k ∧ 0 < k) ∧ Pitch.Representable n.pitch := by decide +kernel
  intro n hn
  obtain ⟨hstart, hstop, hnonneg, hlength, hpitch⟩ := hall n hn
  exact ⟨hstart, hstop, hnonneg, hlength, hpitch⟩

theorem lines_drifting : lines drifting = .ok [drifting] := by
  have hsorted : drifting.Pairwise fun a b => ¬ b.Before a := by decide +kernel
  rw [lines_of_pairwise hsorted]
  decide +kernel

theorem score_drifting : score drifting = .ok "C(2) D(2) E(2) F(1)".toList := by decide +kernel

/-- The last note begins where the one before it ends, and not at `5`. -/
theorem begins_of_lines_drifting :
    ∃ m, parse "C(2) D(2) E(2) F(1)".toList = .ok m ∧ m.notes.map (·.start) = [0, 2, 4, 6] ∧
      drifting.map (·.start.nearest) = [.ok 0, .ok 2, .ok 3, .ok 5] ∧
      (drifting.zip m.notes).IsChain BeginsAfter := by
  obtain ⟨ls, hls, hline⟩ := begins_of_lines isSayable_drifting
  obtain rfl := Except.ok.inj (lines_drifting.symm.trans hls)
  obtain ⟨text, m, htext, hparse, -, -, -, hchain⟩ := hline drifting List.mem_cons_self
  obtain rfl := Except.ok.inj (score_drifting.symm.trans htext)
  obtain ⟨m', hparse', hstarts⟩ : ∃ m, parse "C(2) D(2) E(2) F(1)".toList = .ok m ∧
      m.notes.map (·.start) = [0, 2, 4, 6] := by decide +kernel
  obtain rfl := Except.ok.inj (hparse.symm.trans hparse')
  exact ⟨m, hparse, hstarts, by decide +kernel, hchain⟩

/-- The first of the notes, and every one after a gap, begins at its rounded start. -/
structure BeginOnTime (ps : List (Note × Event)) : Prop where
  first : ∀ q ∈ ps.head?, ∀ start, q.1.start.nearest = .ok start → q.2.start = .ofInt start
  apart : ps.IsChain fun prior next => ¬ next.1.Touches prior.1 →
    ∀ start, next.1.start.nearest = .ok start → next.2.start = .ofInt start

/-- Not every note after a gap begins at its rounded start. -/
theorem not_beginOnTime :
    ¬ ∀ ns ls line text m, (∀ n ∈ ns, n.IsSayable) → lines ns = .ok ls → line ∈ ls →
      score line = .ok text → parse text = .ok m → BeginOnTime (line.zip m.notes) := by
  intro h
  obtain ⟨m, hparse, hstarts⟩ : ∃ m, parse "C(2) D(2) E(2) F(1)".toList = .ok m ∧
      m.notes.map (·.start) = [0, 2, 4, 6] := by decide +kernel
  have hontime := h drifting _ drifting _ m isSayable_drifting lines_drifting List.mem_cons_self
    score_drifting hparse
  -- the pair of the last two notes
  obtain ⟨e₀, es, hes, -, hstarts⟩ := List.map_eq_cons_iff.mp hstarts
  obtain ⟨e₁, es, rfl, -, hstarts⟩ := List.map_eq_cons_iff.mp hstarts
  obtain ⟨e₂, es, rfl, -, hstarts⟩ := List.map_eq_cons_iff.mp hstarts
  obtain ⟨e₃, es, rfl, hlate, -⟩ := List.map_eq_cons_iff.mp hstarts
  rw [hes] at hontime
  have hchain := hontime.apart
  rw [drifting, List.zip_cons_cons, List.zip_cons_cons, List.zip_cons_cons, List.zip_cons_cons,
    List.isChain_cons_cons, List.isChain_cons_cons, List.isChain_cons_cons] at hchain
  have hlast := hchain.2.2.1
  dsimp only at hlast
  have hne : (6 : Binary64) ≠ .ofInt 5 := by decide +kernel
  exact hne (hlate.symm.trans (hlast (by decide +kernel) 5 (by decide +kernel)))

end Monody.Performance
