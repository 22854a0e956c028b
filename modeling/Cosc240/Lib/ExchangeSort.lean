import Mathlib.Data.List.Basic
import Mathlib.Order.Lattice

/-!
# Sorting by exchanges

Two nested loops over the first `n` elements of an array. The outer loop goes over the
positions from left to right; the inner one compares the element at that position with each
later one, and exchanges the two if they are out of order. After the inner loop a least
element is in place, but the elements behind it have been moved around.

An access outside of the array has no result. The order is any linear order of keys, and the
elements are compared by their keys.

- `compareExchange`, `pass`, `exchangeSort`: the body of the inner loop, the inner loop and the
  outer loop, with the array as a list.
- `sift`: what the inner loop does to the element in place and to those behind it, as a recursion
  on these. It permutes them (`sift_perm`) and leaves a minimum in place (`sift_le_of_mem`).
- `foldlM_compareExchange`, `foldlM_pass`: the two loops from the middle on, behind the elements
  that they have already dealt with. These are the invariants.
- `exchangeSort_spec`: the first `n` elements end up sorted and are a permutation of what they
  were, and nothing else is touched.
-/

namespace Lib

namespace ExchangeSort

variable {α κ : Type*} [LinearOrder κ]

section Defs

variable (f : α → κ)

/-- The elements at `i` and `j` are exchanged if the first one is greater. -/
def compareExchange (i j : Nat) (arr : List α) : Option (List α) := do
  let x ← arr[i]?
  let y ← arr[j]?
  return if f y < f x then (arr.set i y).set j x else arr

/-- The inner loop: `j` goes from `i + 1` to `n - 1`. -/
def pass (n i : Nat) (arr : List α) : Option (List α) :=
  (List.range' (i + 1) (n - (i + 1))).foldlM (fun arr j => compareExchange f i j arr) arr

/-- The outer loop: `i` goes from `0` to `n - 1`. -/
def exchangeSort (n : Nat) (arr : List α) : Option (List α) :=
  (List.range n).foldlM (fun arr i => pass f n i arr) arr

/-- What the inner loop does to `x`, at position `i`, and the elements behind it. -/
def sift (x : α) : List α → α × List α
  | [] => (x, [])
  | y :: l =>
    if f y < f x then ((sift y l).1, x :: (sift y l).2)
    else ((sift x l).1, y :: (sift x l).2)

end Defs

variable {f : α → κ} {pre seen tail : List α}

/-! ## The inner loop -/

theorem sift_perm (x : α) (l : List α) : ((sift f x l).1 :: (sift f x l).2).Perm (x :: l) := by
  induction l generalizing x with
  | nil => exact List.Perm.refl _
  | cons y l ih =>
    rw [sift]
    split
    · exact (List.Perm.swap _ _ _).trans ((ih y).cons x)
    · exact (List.Perm.swap _ _ _).trans (((ih x).cons y).trans (List.Perm.swap _ _ _))

theorem length_sift (x : α) (l : List α) : (sift f x l).2.length = l.length := by
  have h := (sift_perm (f := f) x l).length_eq
  rwa [List.length_cons, List.length_cons, Nat.add_right_cancel_iff] at h

/-- The element in place is a minimum of what has been scanned. -/
theorem sift_le (x : α) (l : List α) :
    f (sift f x l).1 ≤ f x ∧ ∀ y ∈ l, f (sift f x l).1 ≤ f y := by
  induction l generalizing x with
  | nil => exact ⟨le_refl _, nofun⟩
  | cons y l ih =>
    rw [sift]
    split
    · next hlt =>
      obtain ⟨hle, hall⟩ := ih y
      exact ⟨hle.trans hlt.le, List.forall_mem_cons.mpr ⟨hle, hall⟩⟩
    · next hge =>
      obtain ⟨hle, hall⟩ := ih x
      exact ⟨hle, List.forall_mem_cons.mpr ⟨hle.trans (not_lt.mp hge), hall⟩⟩

theorem sift_le_of_mem {x y : α} {l : List α} (h : y ∈ (sift f x l).2) :
    f (sift f x l).1 ≤ f y := by
  have hmem : y ∈ x :: l := (sift_perm x l).mem_iff.mp (List.mem_cons_of_mem _ h)
  rcases List.mem_cons.mp hmem with rfl | hy
  · exact (sift_le y l).1
  · exact (sift_le x l).2 y hy

theorem compareExchange_eq (x y : α) :
    compareExchange f pre.length (pre.length + 1 + seen.length)
        (pre ++ x :: (seen ++ y :: tail)) =
      some (if f y < f x then pre ++ y :: (seen ++ x :: tail)
        else pre ++ x :: (seen ++ y :: tail)) := by
  have hsplit : pre ++ x :: (seen ++ y :: tail) = (pre ++ x :: seen) ++ y :: tail := by simp
  have hlength : pre.length + 1 + seen.length = (pre ++ x :: seen).length := by
    rw [List.length_append, List.length_cons]
    omega
  have hx : (pre ++ x :: (seen ++ y :: tail))[pre.length]? = some x := by simp
  have hy : (pre ++ x :: (seen ++ y :: tail))[pre.length + 1 + seen.length]? = some y := by
    rw [hsplit, hlength, List.getElem?_append_right (Nat.le_refl _), Nat.sub_self]
    rfl
  have hset : (((pre ++ x :: (seen ++ y :: tail)).set pre.length y).set
      (pre.length + 1 + seen.length) x) = pre ++ y :: (seen ++ x :: tail) := by
    have hleft : (pre ++ x :: (seen ++ y :: tail)).set pre.length y =
        (pre ++ y :: seen) ++ y :: tail := by simp
    have hlength' : pre.length + 1 + seen.length = (pre ++ y :: seen).length := by
      rw [List.length_append, List.length_cons]
      omega
    rw [hleft, hlength', List.set_append_right _ _ (Nat.le_refl _), Nat.sub_self]
    simp
  rw [compareExchange, hx, hy]
  show some (if f y < f x then _ else _) = _
  rw [hset]

/-- **The inner loop**, behind the elements it has seen. -/
theorem foldlM_compareExchange (seen : List α) (x : α) (l : List α) :
    (List.range' (pre.length + 1 + seen.length) l.length).foldlM
        (fun arr j => compareExchange f pre.length j arr) (pre ++ x :: (seen ++ (l ++ tail))) =
      some (pre ++ (sift f x l).1 :: (seen ++ ((sift f x l).2 ++ tail))) := by
  induction l generalizing x seen with
  | nil => rfl
  | cons y l ih =>
    have hnext : ∀ z : α, seen ++ z :: (l ++ tail) = (seen ++ [z]) ++ (l ++ tail) := by simp
    have hindex : ∀ z : α, pre.length + 1 + seen.length + 1 =
        pre.length + 1 + (seen ++ [z]).length := by
      intro z
      rw [List.length_append, List.length_singleton]
      rfl
    rw [List.length_cons, List.range'_succ, List.foldlM_cons, List.cons_append,
      compareExchange_eq, Option.bind_eq_bind, Option.bind_some, sift]
    split
    · rw [hnext x, hindex x, ih _ y]
      simp
    · rw [hnext y, hindex y, ih _ x]
      simp

theorem pass_eq (x : α) (l : List α) :
    pass f (pre.length + (l.length + 1)) pre.length (pre ++ x :: (l ++ tail)) =
      some (pre ++ (sift f x l).1 :: ((sift f x l).2 ++ tail)) := by
  have hcount : pre.length + (l.length + 1) - (pre.length + 1) = l.length := by omega
  rw [pass, hcount]
  exact foldlM_compareExchange [] x l

/-! ## The outer loop -/

/-- **The outer loop**, behind the elements that are in place. -/
theorem foldlM_pass (pre l tail : List α) :
    ∃ l', (List.range' pre.length l.length).foldlM
        (fun arr i => pass f (pre.length + l.length) i arr) (pre ++ (l ++ tail)) =
      some (pre ++ (l' ++ tail)) ∧ l'.Perm l ∧ l'.Pairwise fun x y => f x ≤ f y := by
  induction hn : l.length generalizing pre l with
  | zero =>
    obtain rfl := List.length_eq_zero_iff.mp hn
    exact ⟨[], rfl, List.Perm.refl _, List.Pairwise.nil⟩
  | succ n ih =>
    obtain ⟨x, l, rfl⟩ := List.exists_cons_of_length_eq_add_one hn
    rw [List.length_cons, Nat.add_right_cancel_iff] at hn
    subst hn
    -- the minimum joins the elements that are in place
    obtain ⟨l', hrun, hperm, hsorted⟩ :=
      ih (pre ++ [(sift f x l).1]) (sift f x l).2 (length_sift x l)
    rw [List.length_append, List.length_singleton, List.append_assoc, List.append_assoc,
      List.singleton_append, List.singleton_append, Nat.add_assoc, Nat.add_comm 1] at hrun
    refine ⟨(sift f x l).1 :: l', ?_, (hperm.cons _).trans (sift_perm x l), ?_⟩
    · rw [List.range'_succ, List.foldlM_cons, List.cons_append, pass_eq, Option.bind_eq_bind,
        Option.bind_some]
      exact hrun
    · exact List.pairwise_cons.mpr ⟨fun y hy => sift_le_of_mem (hperm.mem_iff.mp hy), hsorted⟩

/-- **What is sorted**: the first `n` elements, and nothing else is touched. -/
theorem exchangeSort_spec (f : α → κ) {n : Nat} {arr : List α} (hn : n ≤ arr.length) :
    ∃ arr', exchangeSort f n arr = some arr' ∧
      ((arr'.take n).Pairwise fun x y => f x ≤ f y) ∧ (arr'.take n).Perm (arr.take n) ∧
      arr'.drop n = arr.drop n := by
  have hlength : (arr.take n).length = n := List.length_take_of_le hn
  obtain ⟨l', hrun, hperm, hsorted⟩ := foldlM_pass (f := f) [] (arr.take n) (arr.drop n)
  have hlength' : l'.length = n := hperm.length_eq.trans hlength
  rw [List.nil_append, List.nil_append, List.take_append_drop, hlength, List.length_nil,
    Nat.zero_add, ← List.range_eq_range'] at hrun
  refine ⟨l' ++ arr.drop n, hrun, ?_, ?_, List.drop_left' hlength'⟩
  · rwa [List.take_left' hlength']
  · rwa [List.take_left' hlength']

end ExchangeSort

end Lib
