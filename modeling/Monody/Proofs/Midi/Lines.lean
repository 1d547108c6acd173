import Monody.Proofs.Midi.Strokes
import Monody.Proofs.Performance.Lines

/-!
# Strokes as a line

Notes that are read from strokes one after another are all placed in one line, and the line is
written with the durations of the strokes and with the pauses between them, to the millisecond.

## Main definitions

* `IsClock` — times of ticks that can be told apart
* `IsAt` — where the writing of a line stands at a time

## Main results

* `lines_playedAt` — the notes make one line
* `gap_played` — the pause before a note is the time until its stroke
* `nearest_duration_played` — a note is written with the length of its stroke
-/

namespace Monody.Midi

open Binary64 Performance

-- evaluated, the numbers of units are too long to be looked at
attribute [local irreducible] one bound tickTime

variable {t : ℕ} {s : Stroke} {ss : List Stroke} {c : Channel}

theorem le_of_le_greatestTime {k : ℕ} (h : k ≤ greatestTime) : k ≤ 2 ^ 50 := by
  rw [greatestTime] at h
  omega

/-! ## Splitting -/

/-- Times of the ticks up to a limit, where later ticks have later times, and the time of a tick is
reached from half a millisecond past it. -/
structure IsClock (limit : ℕ) (time : ℕ → Binary64) : Prop where
  order_gt {i j : ℕ} (hlt : i < j) (hj : j ≤ limit) :
    Number.order (.real (time j)) (.real (time i)) = some .gt
  reach {i j : ℕ} (hle : i ≤ j) (hj : j ≤ limit) :
    Number.real (time i) ≤ .real (time j + Number.half)

theorem isClock_tickTime : IsClock greatestTime tickTime where
  order_gt hlt hj := (near_tickTime hj).order_gt (near_tickTime (hlt.le.trans hj)) hlt
  reach hle hj :=
    (near_tickTime (hle.trans hj)).le_add_half (near_tickTime hj) hle (le_of_le_greatestTime hj)

section Clock

variable {limit : ℕ} {time : ℕ → Binary64} (hclock : IsClock limit time)

include hclock

/-- Notes are placed in the order of their strokes. -/
theorem InTurn.pairwise_playedAt (h : InTurn limit t ss) :
    (ss.map (Stroke.playedAt time c)).Pairwise fun a b => ¬ b.Before a := by
  induction h with
  | nil => exact .nil
  | @cons t s ss _ hstop _ hrest ih =>
    refine List.pairwise_cons.mpr ⟨fun n hn => ?_, ih⟩
    obtain ⟨s', hs', rfl⟩ := List.mem_map.mp hn
    obtain ⟨hle, hstop', htime'⟩ := hrest.forall_mem s' hs'
    have horder : (s'.playedAt time c).start.order (s.playedAt time c).start = some .gt :=
      hclock.order_gt (hstop.trans_le hle) (hstop'.le.trans htime')
    rintro (hlt | ⟨hsame, -⟩)
    · exact absurd (horder.symm.trans hlt) (by decide)
    · exact absurd (horder.symm.trans hsame) (by decide)

/-- Each note may stand after the one before it. -/
theorem InTurn.isChain_playedAt (h : InTurn limit t ss) :
    (ss.map (Stroke.playedAt time c)).IsChain fun a b => b.Follows a := by
  induction h with
  | nil => exact .nil
  | @cons t s ss _ _ _ hrest ih =>
    refine List.isChain_cons.mpr ⟨fun n hn => ?_, ih⟩
    cases hrest with
    | nil => cases hn
    | @cons _ s' _ hstart hstop' htime' _ =>
      obtain rfl : s'.playedAt time c = n := Option.some.inj hn
      exact ⟨_, rfl, hclock.reach hstart (hstop'.le.trans htime')⟩

/-- The notes of strokes one after another make one line. -/
theorem lines_playedAt (h : InTurn limit t ss) (hne : ss ≠ []) :
    lines (ss.map (Stroke.playedAt time c)) = .ok [ss.map (Stroke.playedAt time c)] :=
  lines_of_isChain (h.pairwise_playedAt hclock) (h.isChain_playedAt hclock)
    (mt List.map_eq_nil_iff.mp hne)

end Clock

theorem lines_played (h : InTurn greatestTime t ss) (hne : ss ≠ []) :
    lines (ss.map (Stroke.played c)) = .ok [ss.map (Stroke.played c)] :=
  lines_playedAt isClock_tickTime h hne

/-! ## Writing -/

/-- A line is written up to a time, which is when its last note has ended, or the beginning. -/
inductive IsAt (t : ℕ) : Position → Prop
  | beginning (h : t = 0) : IsAt t ⟨t, none⟩
  | ended : IsAt t ⟨t, some (.real (tickTime t))⟩

/-- The pause before a note is the time until its stroke. -/
theorem gap_played {p : Position} (hp : IsAt t p) (hstart : t ≤ s.start)
    (htime : s.start ≤ greatestTime) : gap p (s.played c) = .ok ((s.start - t : ℕ) : ℤ) := by
  have hnear := near_tickTime htime
  have hsmall := le_of_le_greatestTime htime
  have hnearest : (s.played c).start.nearest = .ok s.start :=
    (Number.nearest_real _).trans (hnear.weaken.roundHalfUp hsmall)
  have hcursor : (s.start : ℤ) - t = (s.start - t : ℕ) := by omega
  cases hp with
  | beginning h =>
    rw [gap, Position.touches, ok_bind, if_neg Bool.false_ne_true, hnearest, ok_bind, hcursor]
    rfl
  | ended =>
    have htouches : Position.touches ⟨t, some (.real (tickTime t))⟩ (s.played c) =
        .ok (decide (Number.real (tickTime s.start - tickTime t) ≤ .real Number.half)) := rfl
    -- notes that touch are written without a pause; others are at least a millisecond apart
    rcases hstart.eq_or_lt with heq | hlt
    · have hzero : tickTime s.start - tickTime t = 0 := by
        rw [heq]
        generalize tickTime s.start = x at hnear
        cases hnear with
        | intro hn => exact finite_sub_self hn
      rw [gap, htouches, hzero, ok_bind, if_pos (decide_eq_true zero_le_half), heq, Nat.sub_self]
      rfl
    · have hfar := (hnear.sub (near_tickTime (hstart.trans htime)) hlt hsmall).not_le_half (by omega)
      rw [gap, htouches, decide_eq_false hfar, ok_bind, if_neg Bool.false_ne_true, hnearest, ok_bind,
        hcursor]
      rfl

/-- A note is written with the length of its stroke. -/
theorem nearest_duration_played (hstop : s.start < s.stop) (htime : s.stop ≤ greatestTime) :
    ∃ d, (s.played c).duration = .ok d ∧ d.nearest = .ok ((s.stop - s.start : ℕ) : ℤ) := by
  have hsmall := le_of_le_greatestTime htime
  have hnear := (near_tickTime htime).sub (near_tickTime (hstop.le.trans htime)) hstop hsmall
  exact ⟨_, Number.real_sub_real _ _, (Number.nearest_real _).trans (hnear.roundHalfUp (by omega))⟩

end Monody.Midi
