import Mathlib.Data.List.FinRange
import Mathlib.Data.List.Perm.Basic
import Mathlib.Logic.Function.Basic

/-!
# A family of queues

The contents of `n` queues, as one list, and what an update of one queue does
to them up to order. A scheduler with several levels keeps its processes in such a
family, and what it holds altogether is a permutation of what it held before.

- `allQueues`: everything in the queues, queue by queue. `otherQueues i` is everything in the
  queues but the `i`th.
- `allQueues_perm`: one queue in front of the others is everything, up to order.
- `allQueues_update_perm`: updating one queue replaces its contents, up to order;
  `otherQueues_update` says that the others are not touched.
- `mem_allQueues` and `allQueues_eq_nil`: what is in one of the queues, and when nothing is.
- `find?_not_isEmpty`: the scan for the first queue that is not empty.
-/

namespace Lib

variable {α β : Type*} {n : Nat}

/-- Everything in the queues, queue by queue. -/
def allQueues (q : Fin n → List α) : List α := (List.finRange n).flatMap q

/-- Everything in the queues but the `i`th. -/
def otherQueues (q : Fin n → List α) (i : Fin n) : List α := ((List.finRange n).erase i).flatMap q

theorem allQueues_perm (q : Fin n → List α) (i : Fin n) :
    (allQueues q).Perm (q i ++ otherQueues q i) := by
  have h : (List.finRange n).Perm (i :: (List.finRange n).erase i) :=
    List.perm_cons_erase (List.mem_finRange i)
  simpa [allQueues, otherQueues] using h.flatMap_right q

theorem otherQueues_update (q : Fin n → List α) (i : Fin n) (l : List α) :
    otherQueues (Function.update q i l) i = otherQueues q i := by
  refine List.flatMap_congr fun j hj => ?_
  have hne : j ≠ i := fun h => by
    rw [h] at hj
    exact (List.nodup_finRange n).not_mem_erase hj
  rw [Function.update_of_ne hne]

/-- Updating one queue replaces its contents. -/
theorem allQueues_update_perm (q : Fin n → List α) (i : Fin n) (l : List α) :
    (allQueues (Function.update q i l)).Perm (l ++ otherQueues q i) := by
  have h := allQueues_perm (Function.update q i l) i
  rwa [Function.update_self, otherQueues_update] at h

theorem mem_allQueues {q : Fin n → List α} {a : α} : a ∈ allQueues q ↔ ∃ i, a ∈ q i := by
  simp [allQueues]

theorem allQueues_eq_nil {q : Fin n → List α} : allQueues q = [] ↔ ∀ i, q i = [] := by
  simp [allQueues, List.flatMap_eq_nil_iff]

/-- The scan for the first queue that is not empty. -/
theorem find?_not_isEmpty {q : Fin n → List α} {k : Fin n} (hk : q k ≠ [])
    (hbefore : ∀ j < k, q j = []) :
    ((List.finRange n).find? fun k => !(q k).isEmpty) = some k := by
  rw [List.find?_eq_some_iff_getElem]
  refine ⟨by simpa using hk, k.val, by simp, by simp, fun j hj => ?_⟩
  have hnil : q ⟨j, hj.trans k.isLt⟩ = [] := hbefore _ hj
  simp [hnil]

end Lib
