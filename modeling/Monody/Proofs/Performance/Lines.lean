import Mathlib.Data.Prod.Lex
import Monody.Outcome
import Monody.Performance.Lines
import Monody.Proofs.Binary64.Order
import Monody.Proofs.Outcome
import Monody.Proofs.Sorting

/-!
# The lines of a performance

However many notes a performance has at a time, each of its lines has one: the notes of a line are
in the order of their starts, and each of them ends before the next one reaches back to it. A line is
never empty.

## Main definitions

* `Note.Follows` — a note that may stand after another in a line
* `OpenLine.IsLineOf` — a line of some of the notes, each after the one before

## Main results

* `pairwise_inOrder` — notes are placed in the order of their starts
* `place_isLineOf` — placing a note keeps lines
* `mem_lines` — what the lines of a performance are
* `exists_lines` — a performance of real times has lines
* `lines_of_isChain` — notes one after another are one line
-/

namespace Monody.Performance

open Binary64

variable {a b n : Note} {ns rest line : List Note} {l l' : OpenLine} {ls : List OpenLine}
  {reach : Binary64}

/-! ## Order -/

/-- The start of a note is a real other than `nan`. -/
def Note.IsTimed (n : Note) : Prop := ∃ x, n.start = .real x ∧ x ≠ .nan

/-- What notes are ordered by: the rank of the start, and then the pitch. -/
def Note.key (n : Note) : ℤ ×ₗ ℤ :=
  toLex (match n.start with
    | .whole _ => 0
    | .real x => x.rank, n.pitch)

theorem start_le_iff (ha : a.IsTimed) (hb : b.IsTimed) :
    a.start ≤ b.start ↔ (ofLex a.key).1 ≤ (ofLex b.key).1 := by
  obtain ⟨x, hx, hx'⟩ := ha
  obtain ⟨y, hy, hy'⟩ := hb
  simp only [Note.key, hx, hy, ofLex_toLex]
  exact le_iff_rank hx' hy'

theorem before_iff (ha : a.IsTimed) (hb : b.IsTimed) : a.Before b ↔ a.key < b.key := by
  obtain ⟨x, hx, hx'⟩ := ha
  obtain ⟨y, hy, hy'⟩ := hb
  simp only [Note.Before, Note.key, hx, hy, Prod.Lex.toLex_lt_toLex]
  exact or_congr (lt_iff_rank hx' hy') (and_congr_left' (same_iff_rank hx' hy'))

/-- A note that starts later does not come before. -/
theorem Note.not_before_of_lt {x y : Binary64} (ha : a.start = .real x) (hb : b.start = .real y)
    (h : x < y) : ¬ b.Before a := by
  obtain ⟨hx, hy⟩ := ne_nan_of_order h
  have hrank := (lt_iff_rank hx hy).mp h
  rw [Note.Before, ha, hb]
  rintro (hlt | ⟨hsame, -⟩)
  · exact hrank.not_gt ((lt_iff_rank hy hx).mp hlt)
  · exact hrank.ne' ((same_iff_rank hy hx).mp hsame)

/-- Notes are placed in the order of their starts. -/
theorem pairwise_inOrder (h : ∀ n ∈ ns, n.IsTimed) :
    (inOrder ns).Pairwise fun a b => a.start ≤ b.start := by
  have hkey : inOrder ns = ns.mergeSort fun a b => a.key ≤ b.key := by
    have hsame : ∀ a ∈ ns, ∀ b ∈ ns, decide (¬ b.Before a) = decide (a.key ≤ b.key) := by
      intro a ha b hb
      exact decide_eq_decide.mpr ((not_congr (before_iff (h b hb) (h a ha))).trans not_lt)
    exact mergeSort_congr hsame
  rw [hkey]
  refine (pairwise_mergeSort_key ns).imp_of_mem fun {a b} ha hb hab => ?_
  have ha' := h a (List.mem_mergeSort.mp ha)
  have hb' := h b (List.mem_mergeSort.mp hb)
  -- the first component of the key comes first
  exact (start_le_iff ha' hb').mpr (Prod.Lex.monotone_fst _ _ hab)

/-! ## Placing -/

/-- A note may stand after another in a line: that one ends at most half a millisecond after this one
starts. -/
def Note.Follows (b a : Note) : Prop := ∃ reach, b.reach = .ok reach ∧ a.stop ≤ .real reach

/-- A line of some notes in their order, each of which may stand after the one before it. -/
structure OpenLine.IsLineOf (l : OpenLine) (ns : List Note) : Prop where
  sublist : l.notes.Sublist ns
  chain : l.notes.IsChain fun a b => b.Follows a

theorem OpenLine.notes_eq (l : OpenLine) : l.notes = l.earlier.reverse ++ [l.last] :=
  List.reverse_cons

/-- A note is placed in a line that it may follow, or in a line of its own. -/
theorem mem_place (h : l ∈ place n reach ls) :
    l ∈ ls ∨ l = ⟨n, []⟩ ∨
      ∃ l' ∈ ls, l'.last.stop ≤ .real reach ∧ l = ⟨n, l'.last :: l'.earlier⟩ := by
  induction ls with
  | nil => exact .inr (.inl (List.mem_singleton.mp h))
  | cons l' ls ih =>
    rw [place] at h
    split at h
    · next hstop =>
      rcases List.mem_cons.mp h with rfl | h
      · exact .inr (.inr ⟨l', List.mem_cons_self, hstop, rfl⟩)
      · exact .inl (List.mem_cons_of_mem _ h)
    · rcases List.mem_cons.mp h with rfl | h
      · exact .inl List.mem_cons_self
      · rcases ih h with h | h | ⟨l'', h, hstop, heq⟩
        · exact .inl (List.mem_cons_of_mem _ h)
        · exact .inr (.inl h)
        · exact .inr (.inr ⟨l'', List.mem_cons_of_mem _ h, hstop, heq⟩)

/-- Placing a note after others keeps lines. -/
theorem place_isLineOf (hreach : n.reach = .ok reach) (h : ∀ l ∈ ls, l.IsLineOf ns) :
    ∀ l ∈ place n reach ls, l.IsLineOf (ns ++ [n]) := by
  intro l hl
  rcases mem_place hl with hl | rfl | ⟨l', hl', hstop, rfl⟩
  · have hline := h l hl
    exact ⟨hline.sublist.trans (List.sublist_append_left ..), hline.chain⟩
  · exact ⟨List.sublist_append_right .., .singleton n⟩
  · have hline := h l' hl'
    refine ⟨?_, ?_⟩
    · rw [OpenLine.notes_eq]
      exact hline.sublist.append (List.Sublist.refl [n])
    · rw [OpenLine.notes_eq]
      refine List.isChain_append.mpr ⟨hline.chain, .singleton n, ?_⟩
      intro a ha b hb
      obtain rfl : n = b := Option.some.inj hb
      rw [List.getLast?_reverse] at ha
      obtain rfl : l'.last = a := Option.some.inj ha
      exact ⟨reach, hreach, hstop⟩

/-- Placing notes one after another keeps lines. -/
theorem foldl_place_isLineOf {reaches : List Binary64} (hreaches : rest.mapM Note.reach = .ok reaches)
    (h : ∀ l ∈ ls, l.IsLineOf ns) :
    ∀ l ∈ (rest.zip reaches).foldl (fun ls p => place p.1 p.2 ls) ls, l.IsLineOf (ns ++ rest) := by
  induction rest generalizing ns ls reaches with
  | nil =>
    rw [List.append_nil]
    exact h
  | cons n rest ih =>
    rw [List.mapM_cons] at hreaches
    obtain ⟨reach, hreach, hreaches⟩ := exists_of_bind_eq_ok hreaches
    obtain ⟨reaches, hrest, hreaches⟩ := exists_of_bind_eq_ok hreaches
    obtain rfl := Except.ok.inj hreaches
    have hplaced := ih hrest (place_isLineOf hreach h)
    rw [List.append_assoc] at hplaced
    exact hplaced

theorem placeAll_isLineOf (h : placeAll ns = .ok ls) : ∀ l ∈ ls, l.IsLineOf ns := by
  cases ns with
  | nil =>
    obtain rfl := Except.ok.inj h
    exact fun l hl => absurd hl List.not_mem_nil
  | cons first rest =>
    obtain ⟨reaches, hreaches, h⟩ := exists_of_bind_eq_ok h
    obtain rfl := Except.ok.inj h
    have hfirst : ∀ l ∈ [OpenLine.mk first []], l.IsLineOf [first] :=
      List.forall_mem_singleton.mpr ⟨List.Sublist.refl _, .singleton first⟩
    exact foldl_place_isLineOf hreaches hfirst

/-- A line of a performance has some of its notes, and each of them may stand after the one before it. -/
theorem exists_isLineOf {lines' : List (List Note)} (h : lines ns = .ok lines') (hline : line ∈ lines') :
    ∃ l : OpenLine, l.notes = line ∧ l.IsLineOf (inOrder ns) := by
  obtain ⟨ls, hls, h⟩ := exists_of_bind_eq_ok h
  obtain rfl := Except.ok.inj h
  obtain ⟨l, hl, rfl⟩ := List.mem_map.mp hline
  exact ⟨l, rfl, placeAll_isLineOf hls l hl⟩

theorem OpenLine.IsLineOf.mem_of_mem (h : l.IsLineOf (inOrder ns)) (hn : n ∈ l.notes) : n ∈ ns :=
  List.mem_mergeSort.mp (h.sublist.subset hn)

/-- A line of a performance has some of its notes, at least one, in the order of their starts, and
each of them may stand after the one before it. -/
theorem mem_lines {lines' : List (List Note)} (h : lines ns = .ok lines')
    (htimed : ∀ n ∈ ns, n.IsTimed) (hline : line ∈ lines') :
    (∀ n ∈ line, n ∈ ns) ∧ line ≠ [] ∧ (line.Pairwise fun a b => a.start ≤ b.start) ∧
      line.IsChain fun a b => b.Follows a := by
  obtain ⟨l, rfl, hlineof⟩ := exists_isLineOf h hline
  refine ⟨fun n => hlineof.mem_of_mem, ?_, (pairwise_inOrder htimed).sublist hlineof.sublist,
    hlineof.chain⟩
  rw [OpenLine.notes_eq]
  exact List.append_ne_nil_of_right_ne_nil _ (List.cons_ne_nil _ _)

theorem exists_placeAll (h : ∀ n ∈ ns, n.IsTimed) : ∃ ls, placeAll ns = .ok ls := by
  cases ns with
  | nil => exact ⟨[], rfl⟩
  | cons first rest =>
    have hreach : ∀ n ∈ rest, ∃ reach, n.reach = .ok reach := by
      intro n hn
      obtain ⟨x, hx, -⟩ := h n (List.mem_cons_of_mem _ hn)
      exact ⟨x + Number.half, by rw [Note.reach, hx]; rfl⟩
    obtain ⟨reaches, hreaches⟩ := exists_forall₂ hreach
    rw [placeAll, mapM_eq_ok_iff.mpr hreaches]
    exact ⟨_, rfl⟩

/-- A performance of real times has lines. -/
theorem exists_lines (h : ∀ n ∈ ns, n.IsTimed) : ∃ ls, lines ns = .ok ls := by
  have hordered : ∀ n ∈ inOrder ns, n.IsTimed :=
    fun n hn => h n (List.mem_mergeSort.mp hn)
  obtain ⟨ls, hls⟩ := exists_placeAll hordered
  rw [lines, hls]
  exact ⟨_, rfl⟩

/-- Notes in order are placed as they come. -/
theorem lines_of_pairwise (h : ns.Pairwise fun a b => ¬ b.Before a) :
    lines ns = (placeAll ns).map fun ls => ls.map (·.notes) := by
  have horder : inOrder ns = ns := List.mergeSort_of_pairwise (h.imp fun hab => decide_eq_true hab)
  rw [lines, horder]
  cases placeAll ns <;> rfl

/-- Notes that each may stand after the one before are placed in one line. -/
theorem foldl_place_of_isChain (h : (n :: ns).IsChain fun a b => b.Follows a) (earlier : List Note) :
    ∃ reaches l, ns.mapM Note.reach = .ok reaches ∧
      (ns.zip reaches).foldl (fun ls p => place p.1 p.2 ls) [⟨n, earlier⟩] = [l] ∧
      l.notes = earlier.reverse ++ n :: ns := by
  induction ns generalizing n earlier with
  | nil => exact ⟨[], _, rfl, rfl, List.reverse_cons⟩
  | cons n' ns ih =>
    obtain ⟨⟨reach, hreach, hstop⟩, hrest⟩ := List.isChain_cons_cons.mp h
    obtain ⟨reaches, l, hreaches, hfold, hnotes⟩ := ih hrest (n :: earlier)
    refine ⟨reach :: reaches, l, ?_, ?_, ?_⟩
    · rw [List.mapM_cons, hreach, ok_bind, hreaches]
      rfl
    · rw [List.zip_cons_cons, List.foldl_cons, place, if_pos hstop]
      exact hfold
    · rw [hnotes, List.reverse_cons, List.append_assoc]
      rfl

/-- Notes in order, each of which may stand after the one before, are one line. -/
theorem lines_of_isChain (horder : ns.Pairwise fun a b => ¬ b.Before a)
    (h : ns.IsChain fun a b => b.Follows a) (hne : ns ≠ []) : lines ns = .ok [ns] := by
  obtain ⟨n, ns, rfl⟩ := List.exists_cons_of_ne_nil hne
  obtain ⟨reaches, l, hreaches, hfold, hnotes⟩ := foldl_place_of_isChain h []
  rw [lines_of_pairwise horder, placeAll, hreaches, ok_bind, hfold]
  exact congrArg (fun line => Except.ok [line]) hnotes

end Monody.Performance
