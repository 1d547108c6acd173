import Mathlib.Data.List.Nodup
import Monody.Proofs.Number
import Monody.Proofs.Performance.Lines

/-!
# As few lines as possible

Every note is placed in the first line that it may follow, and in a new one where there is none. So no two
notes of a line are in each other's way, not only those that stand next to each other: notes are placed by
their starts, and what may follow a note may follow it also later.

No other splitting has fewer classes. Where a note is placed in a new line, the last notes of all lines are
in its way. They are in each other's way too, since the note starts no earlier than any of them. So there
are always as many notes as lines of which no two can be in one class.

## Main definitions

* `IsOrderOf` — the notes of a performance by start and pitch
* `IsSplitting` — classes of notes, of which the later of two may always stand after the earlier
* `classOf` — the notes of a class
* `IsPlaced` — lines with the classes of their notes, and notes that need as many classes

## Main results

* `follows_of_start_le` — what may follow a note may follow it also later
* `IsSplitting.length_le` — notes of which none may follow another are in different classes
* `exists_isPlaced_place`, `exists_isPlaced_foldl` — placing notes keeps all this
* `isBest_lines` — the lines of a performance are the classes of a splitting, and none has fewer
-/

namespace Monody.Performance

open Binary64

variable {a b n : Note} {ns os rest clique : List Note} {classes : List ℕ} {ls : List OpenLine}
  {reach : Binary64} {i k slot : ℕ}

/-! ## Order -/

/-- What notes are ordered by: where the start stands, and then the pitch. -/
def Note.standing (n : Note) : ℤ ×ₗ ℤ := toLex (n.start.rank, n.pitch)

theorem before_iff_standing (ha : a.start.IsBounded) (hb : b.start.IsBounded) :
    a.Before b ↔ a.standing < b.standing := by
  rw [Note.Before, Note.standing, Note.standing, Prod.Lex.toLex_lt_toLex,
    Number.lt_iff_rank ha.isFinite hb.isFinite, Number.same_iff_rank ha.isFinite hb.isFinite]

theorem start_le_of_standing (ha : a.start.IsBounded) (hb : b.start.IsBounded)
    (h : a.standing ≤ b.standing) : a.start ≤ b.start :=
  -- the first component of the standing comes first
  (Number.le_iff_rank ha.isFinite hb.isFinite).mpr (Prod.Lex.monotone_fst _ _ h)

/-- Notes with the same start and pitch. -/
def Note.IsLevelWith (a b : Note) : Prop := a.start.Same b.start ∧ a.pitch = b.pitch

instance (a b : Note) : Decidable (a.IsLevelWith b) := inferInstanceAs (Decidable (_ ∧ _))

/-- The notes of a performance by start and pitch. Those with the same start and pitch keep their order. -/
structure IsOrderOf (os ns : List Note) : Prop where
  perm : os.Perm ns
  sorted : os.Pairwise fun a b => ¬ b.Before a
  stable : ∀ n ∈ ns, os.filter (n.IsLevelWith ·) = ns.filter (n.IsLevelWith ·)

theorem inOrder_eq_mergeSort (h : ∀ n ∈ ns, n.start.IsBounded) :
    inOrder ns = ns.mergeSort fun a b => a.standing ≤ b.standing := by
  have hsame : ∀ a ∈ ns, ∀ b ∈ ns, decide (¬ b.Before a) = decide (a.standing ≤ b.standing) := by
    intro a ha b hb
    exact decide_eq_decide.mpr ((not_congr (before_iff_standing (h b hb) (h a ha))).trans not_lt)
  exact mergeSort_congr hsame

theorem pairwise_standing_inOrder (h : ∀ n ∈ ns, n.start.IsBounded) :
    (inOrder ns).Pairwise fun a b => a.standing ≤ b.standing := by
  rw [inOrder_eq_mergeSort h]
  exact pairwise_mergeSort_key ns

theorem isBounded_of_mem_inOrder (h : ∀ n ∈ ns, n.start.IsBounded) : ∀ n ∈ inOrder ns, n.start.IsBounded :=
  fun n hn => h n (List.mem_mergeSort.mp hn)

theorem isOrderOf_inOrder (h : ∀ n ∈ ns, n.start.IsBounded) : IsOrderOf (inOrder ns) ns := by
  have hperm : (inOrder ns).Perm ns := List.mergeSort_perm ns _
  have hordered := isBounded_of_mem_inOrder h
  refine ⟨hperm, ?_, fun n hn => ?_⟩
  · refine (pairwise_standing_inOrder h).imp_of_mem fun {a b} ha hb hab => ?_
    rw [before_iff_standing (hordered b hb) (hordered a ha)]
    exact not_lt.mpr hab
  · -- notes that are level stand at one place, so they are in order already
    have hlevel : (ns.filter (n.IsLevelWith ·)).Pairwise fun a b => decide (a.standing ≤ b.standing) := by
      have hstanding : ∀ a ∈ ns.filter (n.IsLevelWith ·), n.standing = a.standing := by
        intro a ha
        obtain ⟨ha, hsame⟩ := List.mem_filter.mp ha
        obtain ⟨hstart, hpitch⟩ := of_decide_eq_true hsame
        rw [Number.same_iff_rank (h n hn).isFinite (h a ha).isFinite] at hstart
        rw [Note.standing, Note.standing, hstart, hpitch]
      refine List.pairwise_of_forall_mem_list fun a ha b hb => ?_
      rw [← hstanding a ha, ← hstanding b hb]
      exact decide_eq_true le_rfl
    rw [inOrder_eq_mergeSort h]
    exact filter_mergeSort_of_pairwise key_trans key_total hlevel

/-- What may follow a note may follow it also later. -/
theorem follows_of_start_le (hb : b.start.IsBounded) (hn : n.start.IsBounded) (hle : b.start ≤ n.start)
    (h : b.Follows a) : n.Follows a := by
  obtain ⟨x, hx, hxfinite⟩ := hb
  obtain ⟨y, hy, hyfinite⟩ := hn
  obtain ⟨reach, hreach, hstop⟩ := h
  rw [Note.reach, hx] at hreach
  obtain rfl := Except.ok.inj hreach
  have hsum : x + Number.half ≤ y + Number.half :=
    add_le_add_of_le hxfinite hyfinite isFinite_half (Number.toReal_mono hx hxfinite hy hyfinite hle)
  refine ⟨y + Number.half, ?_, ?_⟩
  · rw [Note.reach, hy]
    rfl
  · exact Number.le_real_of_le (isFinite_add_half hxfinite) (isFinite_add_half hyfinite) hstop hsum

/-! ## Classes -/

/-- Notes in order with the class that each is put in. Of two notes of one class the later may stand after
the earlier. -/
structure IsSplitting (os : List Note) (classes : List ℕ) (k : ℕ) : Prop where
  length : classes.length = os.length
  lt : ∀ i ∈ classes, i < k
  follows : (os.zip classes).Pairwise fun p q => p.2 = q.2 → q.1.Follows p.1

/-- The notes of a class in order. -/
def classOf (os : List Note) (classes : List ℕ) (i : ℕ) : List Note :=
  ((os.zip classes).filter (·.2 = i)).map (·.1)

theorem classOf_concat (hlength : classes.length = os.length) :
    classOf (os ++ [n]) (classes ++ [slot]) i =
      classOf os classes i ++ if slot = i then [n] else [] := by
  rw [classOf, List.zip_append hlength.symm, List.filter_append, List.map_append, ← classOf,
    List.zip_cons_cons, List.zip_nil_left, List.filter_cons]
  dsimp only
  by_cases hslot : slot = i
  · rw [if_pos hslot, decide_eq_true hslot]
    rfl
  · rw [if_neg hslot, decide_eq_false hslot]
    rfl

namespace IsSplitting

theorem pairwise_classOf (h : IsSplitting os classes k) (i : ℕ) :
    (classOf os classes i).Pairwise fun a b => b.Follows a := by
  rw [classOf, List.pairwise_map]
  refine (h.follows.filter _).imp_of_mem fun {p q} hp hq hpq => hpq ?_
  have hp' := of_decide_eq_true (List.mem_filter.mp hp).2
  have hq' := of_decide_eq_true (List.mem_filter.mp hq).2
  exact hp'.trans hq'.symm

theorem classOf_eq_nil (h : IsSplitting os classes k) : classOf os classes k = [] := by
  rw [classOf, List.map_eq_nil_iff, List.filter_eq_nil_iff]
  intro p hp hk
  have hlt := h.lt p.2 (List.of_mem_zip hp).2
  exact Nat.lt_irrefl k (of_decide_eq_true hk ▸ hlt)

/-- One more note is put in a class. -/
theorem concat {k' : ℕ} (h : IsSplitting os classes k) (hk : k ≤ k') (hslot : slot < k')
    (hfollows : ∀ a ∈ classOf os classes slot, n.Follows a) :
    IsSplitting (os ++ [n]) (classes ++ [slot]) k' where
  length := by rw [List.length_append, List.length_append, h.length]; rfl
  lt := by
    intro i hmem
    obtain hmem | hmem := List.mem_append.mp hmem
    · exact (h.lt i hmem).trans_le hk
    · exact List.mem_singleton.mp hmem ▸ hslot
  follows := by
    rw [List.zip_append h.length.symm]
    refine List.pairwise_append.mpr ⟨h.follows, List.pairwise_singleton .., ?_⟩
    intro p hp q hq hsame
    obtain rfl := List.mem_singleton.mp hq
    refine hfollows p.1 (List.mem_map_of_mem (List.mem_filter.mpr ⟨hp, ?_⟩))
    exact decide_eq_true hsame

/-- Notes of which none may follow another are in different classes. -/
theorem length_le (h : IsSplitting os classes k) (hsub : clique.Sublist os)
    (hclique : clique.Pairwise fun a b => ¬ b.Follows a) : clique.length ≤ k := by
  rw [← List.map_fst_zip h.length.ge] at hsub
  obtain ⟨ps, hps, rfl⟩ := List.sublist_map_iff.mp hsub
  rw [List.pairwise_map] at hclique
  -- two of them in one class would be such that the later may follow the earlier
  have hnodup : (ps.map (·.2)).Nodup := by
    rw [List.Nodup, List.pairwise_map]
    exact ((h.follows.sublist hps).and hclique).imp fun hboth hsame => hboth.2 (hboth.1 hsame)
  have hrange : ps.map (·.2) ⊆ List.range k := by
    intro i hmem
    obtain ⟨p, hp, rfl⟩ := List.mem_map.mp hmem
    exact List.mem_range.mpr (h.lt p.2 (List.of_mem_zip (hps.subset hp)).2)
  have hle := (hnodup.subperm hrange).length_le
  rw [List.length_range, List.length_map] at hle
  rwa [List.length_map]

end IsSplitting

/-! ## Placing -/

/-- A note is placed in a line that it may follow, or in a new one if there is none. -/
theorem place_cases (n : Note) (reach : Binary64) (ls : List OpenLine) :
    (∃ (slot : ℕ) (h : slot < ls.length), ls[slot].last.stop ≤ .real reach ∧
      place n reach ls = ls.set slot ⟨n, ls[slot].last :: ls[slot].earlier⟩) ∨
    (∀ l ∈ ls, ¬ l.last.stop ≤ .real reach) ∧ place n reach ls = ls ++ [⟨n, []⟩] := by
  induction ls with
  | nil => exact .inr ⟨List.forall_mem_nil _, rfl⟩
  | cons l ls ih =>
    rw [place]
    split
    · next hstop => exact .inl ⟨0, Nat.succ_pos _, hstop, rfl⟩
    · next hstop =>
      obtain ⟨slot, hslot, hlast, heq⟩ | ⟨hnone, heq⟩ := ih
      · exact .inl ⟨slot + 1, Nat.succ_lt_succ hslot, hlast, congrArg (l :: ·) heq⟩
      · exact .inr ⟨List.forall_mem_cons.mpr ⟨hstop, hnone⟩, congrArg (l :: ·) heq⟩

/-- Lines with the classes of their notes. There are as many notes as lines of which none may follow
another. -/
structure IsPlaced (os : List Note) (classes : List ℕ) (ls : List OpenLine) : Prop where
  splitting : IsSplitting os classes ls.length
  notes : ∀ (slot : ℕ) (h : slot < ls.length), ls[slot].notes = classOf os classes slot
  lasts : (ls.map (·.last)).Subperm os
  clique : ∃ clique : List Note, clique.Sublist os ∧ clique.length = ls.length ∧
    clique.Pairwise fun a b => ¬ b.Follows a

theorem isPlaced_nil : IsPlaced [] [] [] where
  splitting := ⟨rfl, List.forall_mem_nil _, .nil⟩
  notes slot h := absurd h (Nat.not_lt_zero slot)
  lasts := List.Subperm.refl _
  clique := ⟨[], .refl _, rfl, .nil⟩

namespace IsPlaced

/-- The later of two notes of a line may stand after the earlier. -/
theorem follows_last (h : IsPlaced os classes ls) (hslot : slot < ls.length) :
    ∀ a ∈ ls[slot].earlier, ls[slot].last.Follows a := by
  have hpairwise := h.splitting.pairwise_classOf slot
  rw [← h.notes slot hslot, OpenLine.notes_eq] at hpairwise
  intro a ha
  exact (List.pairwise_append.mp hpairwise).2.2 a (List.mem_reverse.mpr ha) _ (List.mem_singleton_self _)

/-- A note that may follow the last note of a line may follow all of its notes. -/
theorem follows_of_mem_classOf (h : IsPlaced os classes ls) (hslot : slot < ls.length)
    (hn : n.start.IsBounded) (hlate : ∀ a ∈ os, a.start.IsBounded ∧ a.start ≤ n.start)
    (hlast : n.Follows ls[slot].last) : ∀ a ∈ classOf os classes slot, n.Follows a := by
  intro a ha
  rw [← h.notes slot hslot, OpenLine.notes_eq, List.mem_append, List.mem_reverse,
    List.mem_singleton] at ha
  obtain ha | rfl := ha
  · have hmem : ls[slot].last ∈ os :=
      h.lasts.subset (List.mem_map_of_mem (List.getElem_mem hslot))
    obtain ⟨hbounded, hle⟩ := hlate _ hmem
    exact follows_of_start_le hbounded hn hle (h.follows_last hslot a ha)
  · exact hlast

/-- Where a note may follow no line, the last notes of the lines are in each other's way. -/
theorem exists_clique (h : IsPlaced os classes ls) (hn : n.start.IsBounded)
    (hlate : ∀ a ∈ os, a.start.IsBounded ∧ a.start ≤ n.start)
    (hnone : ∀ l ∈ ls, ¬ n.Follows l.last) :
    ∃ clique : List Note, clique.Sublist (os ++ [n]) ∧ clique.length = ls.length + 1 ∧
      clique.Pairwise fun a b => ¬ b.Follows a := by
  obtain ⟨lasts, hperm, hsub⟩ := h.lasts
  have hnot : ∀ a ∈ lasts, ¬ n.Follows a := by
    intro a ha
    obtain ⟨l, hl, rfl⟩ := List.mem_map.mp (hperm.mem_iff.mp ha)
    exact hnone l hl
  refine ⟨lasts ++ [n], hsub.append (.refl _), ?_, List.pairwise_append.mpr ⟨?_, ?_, ?_⟩⟩
  · rw [List.length_append, hperm.length_eq, List.length_map]
    rfl
  · -- what may follow one of them could be followed by the note too
    refine List.pairwise_of_forall_mem_list fun a ha b hb hfollows => hnot a ha ?_
    obtain ⟨hbounded, hle⟩ := hlate b (hsub.subset hb)
    exact follows_of_start_le hbounded hn hle hfollows
  · exact List.pairwise_singleton ..
  · intro a ha b hb
    obtain rfl := List.mem_singleton.mp hb
    exact hnot a ha

/-- A note is placed in a line whose last note it may follow. -/
theorem set (h : IsPlaced os classes ls) (hslot : slot < ls.length) (hn : n.start.IsBounded)
    (hlate : ∀ a ∈ os, a.start.IsBounded ∧ a.start ≤ n.start) (hlast : n.Follows ls[slot].last) :
    IsPlaced (os ++ [n]) (classes ++ [slot]) (ls.set slot ⟨n, ls[slot].last :: ls[slot].earlier⟩) where
  splitting := by
    rw [List.length_set]
    exact h.splitting.concat le_rfl hslot (h.follows_of_mem_classOf hslot hn hlate hlast)
  notes := by
    intro i hclass
    rw [List.length_set] at hclass
    rw [classOf_concat h.splitting.length, List.getElem_set]
    split
    · next hsame =>
      subst hsame
      rw [← h.notes slot hslot, OpenLine.notes_eq, OpenLine.notes_eq, List.reverse_cons]
    · rw [List.append_nil]
      exact h.notes i hclass
  lasts := by
    -- the note takes the place of the last note of its line
    have hothers : ((ls.map (·.last)).eraseIdx slot).Subperm os :=
      (List.eraseIdx_sublist ..).subperm.trans h.lasts
    have hset := List.set_perm_cons_eraseIdx (l := ls.map (·.last))
      (by rwa [List.length_map] : slot < (ls.map (·.last)).length) n
    rw [List.map_set]
    exact (hset.subperm.trans ((List.subperm_cons n).mpr hothers)).trans
      (List.perm_append_singleton n os).symm.subperm
  clique := by
    obtain ⟨clique, hsub, hlength, hclique⟩ := h.clique
    refine ⟨clique, hsub.trans (List.sublist_append_left ..), ?_, hclique⟩
    rw [hlength, List.length_set]

/-- A note that may follow no line is placed in a new one. -/
theorem concat (h : IsPlaced os classes ls) (hn : n.start.IsBounded)
    (hlate : ∀ a ∈ os, a.start.IsBounded ∧ a.start ≤ n.start) (hnone : ∀ l ∈ ls, ¬ n.Follows l.last) :
    IsPlaced (os ++ [n]) (classes ++ [ls.length]) (ls ++ [⟨n, []⟩]) where
  splitting := by
    rw [List.length_append]
    refine h.splitting.concat (Nat.le_succ _) (Nat.lt_succ_self _) ?_
    rw [h.splitting.classOf_eq_nil]
    exact List.forall_mem_nil _
  notes := by
    intro i hclass
    rw [classOf_concat h.splitting.length]
    -- the old lines are what they were, and the new class holds the new note alone
    obtain hlt | rfl : i < ls.length ∨ i = ls.length := by
      rw [List.length_append, List.length_singleton] at hclass
      omega
    · rw [List.getElem_append_left hlt, if_neg hlt.ne', List.append_nil]
      exact h.notes i hlt
    · rw [List.getElem_concat_length rfl, if_pos rfl, h.splitting.classOf_eq_nil]
      rfl
  lasts := by
    rw [List.map_append]
    exact h.lasts.append (List.Subperm.refl [n])
  clique := by
    rw [List.length_append]
    exact h.exists_clique hn hlate hnone

end IsPlaced

/-- Placing a note keeps lines with their classes. -/
theorem exists_isPlaced_place (h : IsPlaced os classes ls) (hreach : n.reach = .ok reach)
    (hn : n.start.IsBounded) (hlate : ∀ a ∈ os, a.start.IsBounded ∧ a.start ≤ n.start) :
    ∃ slot, IsPlaced (os ++ [n]) (classes ++ [slot]) (place n reach ls) := by
  obtain ⟨slot, hslot, hstop, heq⟩ | ⟨hnone, heq⟩ := place_cases n reach ls
  · rw [heq]
    exact ⟨slot, h.set hslot hn hlate ⟨reach, hreach, hstop⟩⟩
  · rw [heq]
    refine ⟨ls.length, h.concat hn hlate ?_⟩
    rintro l hl ⟨reach', hreach', hstop⟩
    obtain rfl := Except.ok.inj (hreach.symm.trans hreach')
    exact hnone l hl hstop

/-- Placing notes in the order of their starts keeps lines with their classes. -/
theorem exists_isPlaced_foldl {reaches : List Binary64} (h : IsPlaced os classes ls)
    (hreaches : rest.mapM Note.reach = .ok reaches) (hbounded : ∀ n ∈ os ++ rest, n.start.IsBounded)
    (hsorted : (os ++ rest).Pairwise fun a b => a.start ≤ b.start) :
    ∃ classes', IsPlaced (os ++ rest) classes'
      ((rest.zip reaches).foldl (fun ls p => place p.1 p.2 ls) ls) := by
  -- the note that comes next starts no earlier than all that are placed
  induction rest generalizing os classes ls reaches with
  | nil =>
    rw [List.append_nil]
    exact ⟨classes, h⟩
  | cons n rest ih =>
    rw [List.mapM_cons] at hreaches
    obtain ⟨reach, hreach, hreaches⟩ := exists_of_bind_eq_ok hreaches
    obtain ⟨reaches, hrest, hreaches⟩ := exists_of_bind_eq_ok hreaches
    obtain rfl := Except.ok.inj hreaches
    have hlate : ∀ a ∈ os, a.start.IsBounded ∧ a.start ≤ n.start := by
      intro a ha
      refine ⟨hbounded a (List.mem_append_left _ ha), ?_⟩
      exact (List.pairwise_append.mp hsorted).2.2 a ha n List.mem_cons_self
    have hn := hbounded n (List.mem_append_right _ List.mem_cons_self)
    obtain ⟨slot, hplaced⟩ := exists_isPlaced_place h hreach hn hlate
    rw [List.append_cons] at hbounded hsorted ⊢
    exact ih hplaced hrest hbounded hsorted

/-- The first note is placed in a line of its own, as there is none that it might follow. -/
theorem placeAll_eq {reaches : List Binary64} (h : ns.mapM Note.reach = .ok reaches) :
    placeAll ns = .ok ((ns.zip reaches).foldl (fun ls p => place p.1 p.2 ls) []) := by
  cases ns with
  | nil => rfl
  | cons first rest =>
    rw [List.mapM_cons] at h
    obtain ⟨reach, -, h⟩ := exists_of_bind_eq_ok h
    obtain ⟨reaches', hrest, h⟩ := exists_of_bind_eq_ok h
    obtain rfl := Except.ok.inj h
    rw [placeAll, hrest]
    rfl

theorem exists_reach (h : n.start.IsBounded) : ∃ reach, n.reach = .ok reach := by
  obtain ⟨x, hx, -⟩ := h
  exact ⟨x + Number.half, by rw [Note.reach, hx]; rfl⟩

/-- The notes of a performance are placed in lines with their classes. -/
theorem exists_isPlaced (h : ∀ n ∈ ns, n.start.IsBounded) :
    ∃ ls classes, lines ns = .ok (ls.map (·.notes)) ∧ IsPlaced (inOrder ns) classes ls := by
  have hbounded := isBounded_of_mem_inOrder h
  have hsorted : (inOrder ns).Pairwise fun a b => a.start ≤ b.start :=
    (pairwise_standing_inOrder h).imp_of_mem fun {a b} ha hb hab =>
      start_le_of_standing (hbounded a ha) (hbounded b hb) hab
  obtain ⟨reaches, hreaches⟩ := exists_forall₂ fun n hn => exists_reach (hbounded n hn)
  have hall := placeAll_eq (mapM_eq_ok_iff.mpr hreaches)
  obtain ⟨classes, hplaced⟩ :=
    exists_isPlaced_foldl isPlaced_nil (mapM_eq_ok_iff.mpr hreaches) hbounded hsorted
  refine ⟨_, classes, ?_, hplaced⟩
  rw [lines, hall]
  rfl

/-- A performance has lines. They are the classes of a splitting of its notes in order, none of them is
empty, and no splitting has fewer classes. -/
theorem isBest_lines (h : ∀ n ∈ ns, n.start.IsBounded) :
    IsOrderOf (inOrder ns) ns ∧ ∃ ls classes, lines ns = .ok ls ∧
      IsSplitting (inOrder ns) classes ls.length ∧
      ls = (List.range ls.length).map (classOf (inOrder ns) classes) ∧
      (∀ line ∈ ls, line ≠ [] ∧ line.Pairwise fun a b => b.Follows a) ∧
      ∀ k classes', IsSplitting (inOrder ns) classes' k → ls.length ≤ k := by
  obtain ⟨ls, classes, hls, hplaced⟩ := exists_isPlaced h
  refine ⟨isOrderOf_inOrder h, ls.map (·.notes), classes, hls, ?_, ?_, ?_, ?_⟩
  · rw [List.length_map]
    exact hplaced.splitting
  · refine List.ext_getElem (by simp) fun slot hslot _ => ?_
    rw [List.length_map] at hslot
    rw [List.getElem_map, List.getElem_map, List.getElem_range]
    exact hplaced.notes slot hslot
  · intro line hline
    obtain ⟨l, hl, rfl⟩ := List.mem_map.mp hline
    obtain ⟨slot, hslot, rfl⟩ := List.getElem_of_mem hl
    refine ⟨?_, ?_⟩
    · rw [OpenLine.notes_eq]
      exact List.append_ne_nil_of_right_ne_nil _ (List.cons_ne_nil _ _)
    · rw [hplaced.notes slot hslot]
      exact hplaced.splitting.pairwise_classOf slot
  · intro k classes' hsplitting
    -- the last line was opened when no other could take its note: those are notes of one line each
    obtain ⟨clique, hsub, hlength, hclique⟩ := hplaced.clique
    rw [List.length_map, ← hlength]
    exact hsplitting.length_le hsub hclique

/-- Two notes at a time, the first of which ends a little after the next one starts, and a note within
that one. -/
def nested : List Note :=
  [⟨0, .real (.ofDecimal false ⟨5004, -1⟩), 60, 0⟩, ⟨0, 500, 64, 0⟩, ⟨500, 900, 67, 0⟩,
    ⟨600, 700, 72, 0⟩]

/-- Two lines are needed. -/
theorem isBest_lines_nested :
    lines nested = .ok [[⟨0, .real (.ofDecimal false ⟨5004, -1⟩), 60, 0⟩, ⟨500, 900, 67, 0⟩],
      [⟨0, 500, 64, 0⟩, ⟨600, 700, 72, 0⟩]] ∧
    (∃ classes, IsSplitting (inOrder nested) classes 2) ∧
      ∀ k classes, IsSplitting (inOrder nested) classes k → 2 ≤ k := by
  have hbounded : ∀ n ∈ nested, n.start.IsBounded := by decide +kernel
  have hsorted : nested.Pairwise fun a b => ¬ b.Before a := by decide +kernel
  have hlines : lines nested = .ok [[⟨0, .real (.ofDecimal false ⟨5004, -1⟩), 60, 0⟩,
      ⟨500, 900, 67, 0⟩], [⟨0, 500, 64, 0⟩, ⟨600, 700, 72, 0⟩]] := by
    rw [lines_of_pairwise hsorted]
    decide +kernel
  obtain ⟨-, ls, classes, hls, hsplitting, -, -, hbest⟩ := isBest_lines hbounded
  obtain rfl := Except.ok.inj (hlines.symm.trans hls)
  exact ⟨hlines, ⟨classes, hsplitting⟩, hbest⟩

end Monody.Performance
