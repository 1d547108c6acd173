import Mathlib.Data.List.Nodup
import Mathlib.Order.Lattice

/-!
# Stable sorting

Sorting keeps the order of elements that were in order already. So what comes out when a list is sorted by
a key depends only on what stands in the list at each key, in its order.

## Main results

* `filter_mergeSort_of_pairwise` — what was in order already stays as it is
* `key_le_of_getLast?` — the last of elements in order is the greatest
* `mergeSort_key_congr` — lists with the same elements at each key are sorted alike
* `filter_key_of_perm` — the order of elements with different keys makes no difference to this
-/

namespace Monody

variable {α κ : Type} [LinearOrder κ] {le : α → α → Bool} {p : α → Bool} {key : α → κ} {k : κ} {a b : α}
  {xs ys : List α}

/-- Only how the elements of the list itself compare matters. -/
theorem mergeSort_congr {le' : α → α → Bool} (h : ∀ a ∈ xs, ∀ b ∈ xs, le a b = le' a b) :
    xs.mergeSort le = xs.mergeSort le' := by
  have hmap : (xs.mergeSort le).map id = (xs.map id).mergeSort le' := List.map_mergeSort h
  rwa [List.map_id, List.map_id] at hmap

/-- What was in order already stays as it is when it is sorted with other elements. -/
theorem filter_mergeSort_of_pairwise (htrans : ∀ a b c, le a b = true → le b c = true → le a c = true)
    (htotal : ∀ a b, (le a b || le b a) = true) (h : (xs.filter p).Pairwise fun a b => le a b = true) :
    (xs.mergeSort le).filter p = xs.filter p := by
  have hkept : (xs.filter p).Sublist (xs.mergeSort le) :=
    List.sublist_mergeSort htrans htotal h List.filter_sublist
  have hsub := hkept.filter p
  rw [List.filter_filter, funext fun a => Bool.and_self (p a)] at hsub
  exact (hsub.eq_of_length ((List.mergeSort_perm xs le).filter p).length_eq.symm).symm

/-! ## Keys -/

theorem key_trans (a b c : α) (hab : decide (key a ≤ key b) = true) (hbc : decide (key b ≤ key c) = true) :
    decide (key a ≤ key c) = true :=
  decide_eq_true ((of_decide_eq_true hab).trans (of_decide_eq_true hbc))

theorem key_total (a b : α) : (decide (key a ≤ key b) || decide (key b ≤ key a)) = true := by
  rw [Bool.or_eq_true, decide_eq_true_iff, decide_eq_true_iff]
  exact le_total (key a) (key b)

theorem pairwise_mergeSort_key (xs : List α) :
    (xs.mergeSort fun a b => key a ≤ key b).Pairwise fun a b => key a ≤ key b :=
  (List.pairwise_mergeSort key_trans key_total xs).imp of_decide_eq_true

/-- The elements at a key keep their order. -/
theorem filter_mergeSort_key (k : κ) :
    (xs.mergeSort fun a b => key a ≤ key b).filter (key · = k) = xs.filter (key · = k) := by
  refine filter_mergeSort_of_pairwise key_trans key_total ?_
  refine List.pairwise_of_forall_mem_list fun a ha b hb => decide_eq_true ?_
  rw [of_decide_eq_true (List.mem_filter.mp ha).2, of_decide_eq_true (List.mem_filter.mp hb).2]

/-- Of elements in order, none comes after the last one. -/
theorem key_le_of_getLast? (h : xs.Pairwise fun a b => key a ≤ key b) (ha : xs.getLast? = some a)
    (hb : b ∈ xs) : key b ≤ key a := by
  obtain ⟨before, rfl⟩ := List.getLast?_eq_some_iff.mp ha
  rcases List.mem_append.mp hb with hbefore | hself
  · exact (List.pairwise_append.mp h).2.2 b hbefore a List.mem_cons_self
  · rw [List.mem_singleton.mp hself]

theorem mem_of_filter_key_eq (h : ∀ k, xs.filter (key · = k) = ys.filter (key · = k)) (ha : a ∈ xs) :
    a ∈ ys := by
  have hkey : a ∈ xs.filter (key · = key a) := List.mem_filter.mpr ⟨ha, decide_eq_true rfl⟩
  rw [h] at hkey
  exact (List.mem_filter.mp hkey).1

/-- Lists in the order of their keys are the same if they have the same elements at each key. -/
theorem eq_of_filter_key_eq (hxs : xs.Pairwise fun a b => key a ≤ key b)
    (hys : ys.Pairwise fun a b => key a ≤ key b)
    (h : ∀ k, xs.filter (key · = k) = ys.filter (key · = k)) : xs = ys := by
  induction xs generalizing ys with
  | nil =>
    refine (List.eq_nil_iff_forall_not_mem.mpr fun b hb => ?_).symm
    exact absurd (mem_of_filter_key_eq (fun k => (h k).symm) hb) List.not_mem_nil
  | cons a xs ih =>
    have ha := mem_of_filter_key_eq h List.mem_cons_self
    cases ys with
    | nil => exact absurd ha List.not_mem_nil
    | cons b ys =>
      obtain ⟨hale, hxsrest⟩ := List.pairwise_cons.mp hxs
      obtain ⟨hble, hysrest⟩ := List.pairwise_cons.mp hys
      have hb := mem_of_filter_key_eq (fun k => (h k).symm) (List.mem_cons_self (a := b))
      -- neither of the first elements comes after the other
      have hkey : key a = key b := by
        refine le_antisymm ?_ ?_
        · exact (List.mem_cons.mp hb).elim (fun heq => heq ▸ le_rfl) (hale b)
        · exact (List.mem_cons.mp ha).elim (fun heq => heq ▸ le_rfl) (hble a)
      have hfirst := h (key b)
      simp only [List.filter_cons, hkey, decide_true, if_true] at hfirst
      obtain rfl := (List.cons.inj hfirst).1
      refine congrArg (a :: ·) (ih hxsrest hysrest fun k => ?_)
      have hrest := h k
      simp only [List.filter_cons] at hrest
      split at hrest
      · exact (List.cons.inj hrest).2
      · exact hrest

/-- **Lists are sorted alike** if they have the same elements at each key. -/
theorem mergeSort_key_congr (h : ∀ k, xs.filter (key · = k) = ys.filter (key · = k)) :
    (xs.mergeSort fun a b => key a ≤ key b) = ys.mergeSort fun a b => key a ≤ key b := by
  refine eq_of_filter_key_eq (pairwise_mergeSort_key xs) (pairwise_mergeSort_key ys) fun k => ?_
  rw [filter_mergeSort_key, filter_mergeSort_key, h]

/-- Elements with different keys may change places. -/
theorem filter_key_of_perm (h : xs.Perm ys) (hkeys : (ys.map key).Nodup) (k : κ) :
    xs.filter (key · = k) = ys.filter (key · = k) := by
  have hnone (zs : List α) : zs.Pairwise fun _ _ => True :=
    List.pairwise_of_forall_mem_list fun _ _ _ _ => trivial
  refine (h.filter _).eq_of_pairwise (fun a b ha hb _ _ => ?_) (hnone _) (hnone _)
  obtain ⟨ha, hakey⟩ := List.mem_filter.mp ha
  obtain ⟨hb, hbkey⟩ := List.mem_filter.mp hb
  refine List.inj_on_of_nodup_map hkeys (h.mem_iff.mp ha) hb ?_
  rw [of_decide_eq_true hakey, of_decide_eq_true hbkey]

end Monody
