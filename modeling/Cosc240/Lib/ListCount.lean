import Mathlib.Algebra.BigOperators.Group.Finset.Basic
import Mathlib.Algebra.BigOperators.Group.Finset.Piecewise
import Mathlib.Algebra.GroupWithZero.Nat
import Mathlib.Data.List.Count

/-!
# Counting positions of a list

A trace is a list, and statements about it count instants: how often a value
occurs, at how many positions a predicate holds, summed over a family of
predicates in either order. Positions are read with `l[i]?`, so that what is said
about them needs no bounds.

- `countP_eq_card`, `count_eq_card`, `countP_mapIdx`: counting elements is counting positions.
- `sum_map_card_filter`: double counting. Pairs of an instant and a row are counted by row or by
  instant.
- `getElem?_concat_eq_some_iff`: a list with one element more has one position more.
- `count_take_lt`, `count_take_eq`, `count_take_add`: how many of the occurrences of an element are
  among the first `i` positions, and what a stretch of equal elements adds.
- `lt_of_count_le`: two stretches that have all the occurrences of an element between them are all
  that there is of it.
- `countP_eq_of_subset`: counting in a list without duplicates is counting in a part of it that
  has everything that counts.
-/

namespace Lib

variable {α β : Type*}

/-- A longer list has one more position. -/
theorem getElem?_concat_eq_some_iff {l : List α} {a b : α} {i : Nat} :
    (l ++ [b])[i]? = some a ↔ l[i]? = some a ∨ i = l.length ∧ b = a := by
  rcases Nat.lt_trichotomy i l.length with hi | rfl | hi
  · rw [List.getElem?_append_left hi]
    simp [Nat.ne_of_lt hi]
  · simp
  · have hnone : (l ++ [b])[i]? = none :=
      List.getElem?_eq_none (by simpa using Nat.succ_le_of_lt hi)
    rw [hnone, List.getElem?_eq_none hi.le]
    simp [Nat.ne_of_gt hi]

/-- Counting elements is counting positions. -/
theorem countP_eq_card (q : α → Bool) (l : List α) :
    l.countP q = ((Finset.range l.length).filter fun i => (l[i]?).any q = true).card := by
  induction l using List.reverseRecOn with
  | nil => rfl
  | append_singleton l a ih =>
    have hlast : ((l ++ [a])[l.length]?).any q = q a := by simp
    have hinit : (Finset.range l.length).filter (fun i => ((l ++ [a])[i]?).any q = true) =
        (Finset.range l.length).filter fun i => (l[i]?).any q = true := by
      refine Finset.filter_congr fun i hi => ?_
      rw [List.getElem?_append_left (Finset.mem_range.mp hi)]
    rw [List.countP_append, List.length_append, List.length_singleton, Finset.range_add_one,
      Finset.filter_insert, hlast, hinit, ih]
    by_cases hq : q a = true
    · rw [if_pos hq, Finset.card_insert_of_notMem (by simp)]
      simp [hq]
    · rw [if_neg hq]
      simp [hq]

theorem count_eq_card [DecidableEq α] (a : α) (l : List α) :
    l.count a = ((Finset.range l.length).filter fun i => l[i]? = some a).card := by
  rw [List.count, countP_eq_card]
  congr 1
  refine Finset.filter_congr fun i _ => ?_
  cases l[i]? <;> simp

/-- Counting over a numbered list is counting positions. -/
theorem countP_mapIdx (q : β → Bool) (f : Nat → α → β) (l : List α) :
    (l.mapIdx f).countP q =
      ((Finset.range l.length).filter fun i => (l[i]?).any (fun a => q (f i a)) = true).card := by
  rw [countP_eq_card, List.length_mapIdx]
  congr 1
  refine Finset.filter_congr fun i _ => ?_
  rw [List.getElem?_mapIdx]
  cases l[i]? <;> simp

/-- Double counting: pairs of an instant and a row, by row or by instant. -/
theorem sum_map_card_filter (n : Nat) (P : α → Nat → Bool) (l : List α) :
    (l.map fun a => ((Finset.range n).filter fun i => P a i = true).card).sum =
      ∑ i ∈ Finset.range n, l.countP fun a => P a i := by
  induction l with
  | nil => simp
  | cons a l ih =>
    rw [List.map_cons, List.sum_cons, ih, Finset.card_filter, ← Finset.sum_add_distrib]
    refine Finset.sum_congr rfl fun i _ => ?_
    rw [List.countP_cons, Nat.add_comm]

/-- An element at a position from `i` on is missing from the first `i`. -/
theorem count_take_lt [DecidableEq α] {l : List α} {a : α} {i j : Nat} (h : l[j]? = some a)
    (hij : i ≤ j) : (l.take i).count a < l.count a := by
  have hdrop : a ∈ l.drop i := by
    refine List.mem_of_getElem? (i := j - i) ?_
    rw [List.getElem?_drop, Nat.add_sub_cancel' hij, h]
  have hsplit : l.count a = (l.take i).count a + (l.drop i).count a := by
    rw [← List.count_append, List.take_append_drop]
  have := List.count_pos_iff.mpr hdrop
  omega

/-- If all positions of an element are below `i`, the first `i` have it all. -/
theorem count_take_eq [DecidableEq α] {l : List α} {a : α} {i : Nat}
    (h : ∀ j, l[j]? = some a → j < i) : (l.take i).count a = l.count a := by
  have hdrop : a ∉ l.drop i := by
    intro ha
    obtain ⟨k, hk⟩ := List.mem_iff_getElem?.mp ha
    rw [List.getElem?_drop] at hk
    have := h _ hk
    omega
  have hsplit : l.count a = (l.take i).count a + (l.drop i).count a := by
    rw [← List.count_append, List.take_append_drop]
  rw [List.count_eq_zero_of_not_mem hdrop] at hsplit
  omega

/-- A stretch of the same element. -/
theorem count_take_add [DecidableEq α] {l : List α} {a : α} {i n : Nat}
    (h : ∀ j < n, l[i + j]? = some a) : (l.take (i + n)).count a = (l.take i).count a + n := by
  induction n with
  | zero => rfl
  | succ n ih =>
    have hinit := ih fun j hj => h j (Nat.lt_succ_of_lt hj)
    rw [← Nat.add_assoc, List.take_add_one, h n (Nat.lt_succ_self n), List.count_append, hinit]
    simp [Nat.add_assoc]

/-- Two stretches that have all the occurrences of an element are all that there is. -/
theorem lt_of_count_le [DecidableEq α] {l : List α} {a : α} {i j k m n : Nat}
    (hfirst : ∀ d < k, l[i + d]? = some a) (hsecond : ∀ d < m, l[j + d]? = some a)
    (hij : i + k ≤ j) (hcount : l.count a ≤ k + m) (hn : l[n]? = some a) : n < j + m := by
  by_contra hle
  have hmore := count_take_lt hn (Nat.le_of_not_lt hle)
  have hmono : (l.take (i + k)).count a ≤ (l.take j).count a :=
    (List.take_sublist_take_left hij).count_le a
  rw [count_take_add hsecond] at hmore
  rw [count_take_add hfirst] at hmono
  omega

/-- Counting in a list is counting in a part of it that has all that counts. -/
theorem countP_eq_of_subset {l l' : List α} (p : α → Bool) (hl : l.Nodup) (hl' : l'.Nodup)
    (hsub : l' ⊆ l) (hp : ∀ a ∈ l, p a = true → a ∈ l') : l.countP p = l'.countP p := by
  rw [List.countP_eq_length_filter, List.countP_eq_length_filter]
  refine List.Perm.length_eq ((List.perm_ext_iff_of_nodup (hl.filter p) (hl'.filter p)).mpr ?_)
  intro a
  rw [List.mem_filter, List.mem_filter]
  constructor
  · rintro ⟨hmem, ha⟩
    exact ⟨hp a hmem ha, ha⟩
  · rintro ⟨hmem, ha⟩
    exact ⟨hsub hmem, ha⟩

end Lib
