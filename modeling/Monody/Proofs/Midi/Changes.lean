import Mathlib.Data.Int.Order.Basic
import Monody.Midi.Tempo
import Monody.Proofs.Sorting

/-!
# Changes of tempo

Of the changes of tempo in a file, the latest at or before a tick holds there, and of those at one tick the
one that is listed last. A scan of the list settles on it, and so does the order in which a tempo map takes
the changes, with the default in front if none of them holds from the beginning.

## Main definitions

* `lastChange` — the change of tempo that a scan settles on
* `IsLatest` — the change that holds at a tick
* `TempoMap.ordered` — the changes in the order that a tempo map takes them in

## Main results

* `IsLatest.unique` — it depends only on the last changes at each tick
* `IsLatest.foldl` — a scan settles on it
* `IsLatest.of_pairwise` — of changes in order, it is the last one at or before the tick
-/

namespace Monody.Midi

variable {changes cs ds : List (ℤ × ℤ)} {b c d : ℤ × ℤ} {tick : ℤ}

/-- The later of two changes of tempo, unless it is after a tick. Of two at one tick it is the second. -/
def laterChange (tick : ℤ) (last change : ℤ × ℤ) : ℤ × ℤ :=
  if last.1 ≤ change.1 ∧ change.1 ≤ tick then change else last

/-- The change of tempo that a scan of all of them settles on. Before any change the default holds. -/
def lastChange (changes : List (ℤ × ℤ)) (tick : ℤ) : ℤ × ℤ :=
  changes.foldl (laterChange tick) (0, Tempo.default)

/-- The latest change at or before a tick, and the last of those at its own. -/
structure IsLatest (changes : List (ℤ × ℤ)) (tick : ℤ) (c : ℤ × ℤ) : Prop where
  le : c.1 ≤ tick
  latest : ∀ d ∈ changes, d.1 ≤ tick → d.1 ≤ c.1
  last : (changes.filter (·.1 = c.1)).getLast? = some c

namespace IsLatest

/-- It depends only on the last changes at each tick. -/
theorem unique (hc : IsLatest cs tick c) (hd : IsLatest ds tick d)
    (h : ∀ k, (cs.filter (·.1 = k)).getLast? = (ds.filter (·.1 = k)).getLast?) : c = d := by
  have hcmem : c ∈ ds := (List.mem_filter.mp (List.mem_of_getLast? ((h c.1).symm.trans hc.last))).1
  have hdmem : d ∈ cs := (List.mem_filter.mp (List.mem_of_getLast? ((h d.1).trans hd.last))).1
  have hsame : c.1 = d.1 := Int.le_antisymm (hd.latest c hcmem hc.le) (hc.latest d hdmem hd.le)
  have hlast := hc.last
  rw [h, hsame, hd.last] at hlast
  exact (Option.some.inj hlast).symm

/-- A change that is not the latest makes no difference in front of the others. -/
theorem cons (h : IsLatest cs tick c) (hb : b.1 ≤ c.1) : IsLatest (b :: cs) tick c := by
  refine ⟨h.le, List.forall_mem_cons.mpr ⟨fun _ => hb, h.latest⟩, ?_⟩
  rw [List.filter_cons]
  split
  · rw [List.getLast?_cons, h.last]
    rfl
  · exact h.last

/-- A scan settles on it. -/
theorem foldl (hb : b.1 ≤ tick) : IsLatest (b :: cs) tick (cs.foldl (laterChange tick) b) := by
  induction cs generalizing b with
  | nil => exact ⟨hb, by simp, by simp⟩
  | cons c cs ih =>
    rw [List.foldl_cons, laterChange]
    split
    · next hc =>
      have hfound := ih hc.2
      exact hfound.cons (hc.1.trans (hfound.latest c List.mem_cons_self hc.2))
    · next hc =>
      -- the change is passed over: it is after the tick, or before one that the scan has met
      have hfound := ih hb
      generalize cs.foldl _ b = found at hfound ⊢
      have hbound := hfound.latest b List.mem_cons_self hb
      have hle := hfound.le
      obtain ⟨-, hlatest⟩ := List.forall_mem_cons.mp hfound.latest
      refine ⟨hle, List.forall_mem_cons.mpr ⟨fun _ => hbound, List.forall_mem_cons.mpr
        ⟨fun hctick => by omega, hlatest⟩⟩, ?_⟩
      have hne : ¬ c.1 = found.1 := by omega
      have hlast := hfound.last
      simp only [List.filter_cons, hne, decide_false] at hlast ⊢
      exact hlast

/-- Of changes in order, it is the last one at or before the tick. -/
theorem of_pairwise (horder : cs.Pairwise (·.1 ≤ ·.1))
    (h : (cs.filter (·.1 ≤ tick)).getLast? = some c) : IsLatest cs tick c := by
  obtain ⟨before, hfilter⟩ := List.getLast?_eq_some_iff.mp h
  have hle : c.1 ≤ tick := of_decide_eq_true (List.mem_filter.mp (List.mem_of_getLast? h)).2
  refine ⟨hle, fun d hd hdtick => ?_, ?_⟩
  · have hmem : d ∈ cs.filter (·.1 ≤ tick) := List.mem_filter.mpr ⟨hd, decide_eq_true hdtick⟩
    exact key_le_of_getLast? (horder.sublist List.filter_sublist) h hmem
  · have hsame : cs.filter (·.1 = c.1) = (before ++ [c]).filter (·.1 = c.1) := by
      rw [← hfilter, List.filter_filter]
      refine List.filter_congr fun d _ => ?_
      by_cases hd : d.1 = c.1
      · simp [hd, hle]
      · simp [hd]
    rw [hsame, List.filter_append]
    simp

end IsLatest

namespace TempoMap

/-- All changes in order. -/
def ordered (changes : List (ℤ × ℤ)) : List (ℤ × ℤ) := (inOrder changes).1 :: (inOrder changes).2

/-- The default is put in front if all changes come later than the beginning. -/
theorem ordered_cases (changes : List (ℤ × ℤ)) :
    ((∀ c ∈ changes, 0 < c.1) ∧
        ordered changes = (0, Tempo.default) :: changes.mergeSort fun a b => a.1 ≤ b.1) ∨
      ((∃ c ∈ changes, c.1 ≤ 0) ∧ ordered changes = changes.mergeSort fun a b => a.1 ≤ b.1) := by
  have horder := @pairwise_mergeSort_key _ _ _ (Prod.fst : ℤ × ℤ → ℤ) changes
  have hmem {c : ℤ × ℤ} := @List.mem_mergeSort _ (fun a b : ℤ × ℤ => a.1 ≤ b.1) c changes
  rw [ordered, inOrder]
  generalize (changes.mergeSort fun a b => a.1 ≤ b.1) = sorted at horder hmem
  cases sorted with
  | nil => exact .inl ⟨fun c hc => absurd (hmem.mpr hc) List.not_mem_nil, rfl⟩
  | cons first rest =>
    by_cases hfirst : 0 < first.1
    · refine .inl ⟨fun c hc => ?_, by simp [hfirst]⟩
      rcases List.mem_cons.mp (hmem.mpr hc) with rfl | hrest
      · exact hfirst
      · exact hfirst.trans_le ((List.pairwise_cons.mp horder).1 c hrest)
    · exact .inr ⟨⟨first, hmem.mp List.mem_cons_self, by omega⟩, by simp [hfirst]⟩

theorem mem_ordered (hc : c ∈ changes) : c ∈ ordered changes := by
  rcases ordered_cases changes with ⟨-, heq⟩ | ⟨-, heq⟩ <;> rw [heq]
  · exact List.mem_cons_of_mem _ (List.mem_mergeSort.mpr hc)
  · exact List.mem_mergeSort.mpr hc

/-- Nothing but the default is added, and only in front. -/
theorem mem_of_mem_ordered (hc : c ∈ ordered changes) : c = (0, Tempo.default) ∨ c ∈ changes := by
  rcases ordered_cases changes with ⟨-, heq⟩ | ⟨-, heq⟩ <;> rw [heq] at hc
  · exact (List.mem_cons.mp hc).imp_right List.mem_mergeSort.mp
  · exact .inr (List.mem_mergeSort.mp hc)

theorem pairwise_ordered (changes : List (ℤ × ℤ)) : (ordered changes).Pairwise (·.1 ≤ ·.1) := by
  have horder := @pairwise_mergeSort_key _ _ _ (Prod.fst : ℤ × ℤ → ℤ) changes
  rcases ordered_cases changes with ⟨hlate, heq⟩ | ⟨-, heq⟩ <;> rw [heq]
  · refine List.pairwise_cons.mpr ⟨fun c hc => ?_, horder⟩
    exact (hlate c (List.mem_mergeSort.mp hc)).le
  · exact horder

theorem nonneg_of_mem_ordered (hchanges : ∀ c ∈ changes, 0 ≤ c.1 ∧ 0 ≤ c.2) :
    ∀ c ∈ ordered changes, 0 ≤ c.1 ∧ 0 ≤ c.2 := by
  intro c hc
  rcases mem_of_mem_ordered hc with rfl | hmem
  · exact ⟨le_rfl, by decide⟩
  · exact hchanges c hmem

/-- What comes after the first of them is a change of its own. -/
theorem mem_of_mem_tail_ordered (hc : c ∈ (ordered changes).tail) : c ∈ changes := by
  rcases ordered_cases changes with ⟨-, heq⟩ | ⟨-, heq⟩ <;> rw [heq] at hc
  · exact List.mem_mergeSort.mp hc
  · exact List.mem_mergeSort.mp (List.mem_of_mem_tail hc)

/-- The first of them holds from the beginning. -/
theorem head_ordered (hchanges : ∀ c ∈ changes, 0 ≤ c.1) : (inOrder changes).1.1 = 0 := by
  have hle : ∃ c ∈ ordered changes, c.1 ≤ 0 := by
    rcases ordered_cases changes with ⟨-, heq⟩ | ⟨⟨c, hc, hzero⟩, -⟩
    · exact ⟨(0, Tempo.default), heq ▸ List.mem_cons_self, le_rfl⟩
    · exact ⟨c, mem_ordered hc, hzero⟩
  obtain ⟨c, hc, hzero⟩ := hle
  have hfirst : (inOrder changes).1.1 ≤ c.1 := by
    rcases List.mem_cons.mp hc with rfl | hrest
    · exact le_rfl
    · exact (List.pairwise_cons.mp (pairwise_ordered changes)).1 c hrest
  rcases @mem_of_mem_ordered changes _ List.mem_cons_self with heq | hmem
  · rw [heq]
  · exact Int.le_antisymm (hfirst.trans hzero) (hchanges _ hmem)

/-- Changes in order have the same last one at each tick as the changes after the default. -/
theorem getLast?_filter_ordered (hchanges : ∀ c ∈ changes, 0 ≤ c.1) (k : ℤ) :
    ((ordered changes).filter (·.1 = k)).getLast? =
      (((0, Tempo.default) :: changes).filter (·.1 = k)).getLast? := by
  have hfilter := @filter_mergeSort_key _ _ _ (Prod.fst : ℤ × ℤ → ℤ) changes k
  rcases ordered_cases changes with ⟨-, heq⟩ | ⟨⟨c, hc, hearly⟩, heq⟩
  · rw [heq, List.filter_cons, List.filter_cons, hfilter]
  · rw [heq, hfilter, List.filter_cons]
    split
    · next hk =>
      -- some change holds from the beginning
      have hk : (0 : ℤ) = k := of_decide_eq_true hk
      have hzero : c.1 = k := by
        have hnonneg := hchanges c hc
        omega
      have hne : changes.filter (·.1 = k) ≠ [] :=
        List.ne_nil_of_mem (List.mem_filter.mpr ⟨hc, decide_eq_true hzero⟩)
      obtain ⟨d, hd⟩ := Option.ne_none_iff_exists'.mp (mt List.getLast?_eq_none_iff.mp hne)
      rw [List.getLast?_cons, hd]
      rfl
    · rfl

end TempoMap

end Monody.Midi
