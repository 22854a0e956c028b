import Cosc240.Lib.ExchangeSort
import Mathlib.Algebra.Order.Field.Rat

/-!
# `sort.c`

Three functions with the same two loops (tutorial5/sort.c:11–64): `sort` compares the elements
themselves, the other two compare one field of a record. The values of the measurements are taken
from any linear order, since nothing but comparisons is done with them.

- `Measurement`: the record, with its two fields.
- `sort`, `sortById`, `sortByValue`: each function is `exchangeSort` at its own key. The result is
  what it returns together with the array afterwards.
- `SortsFirst`: an array is another one with the first `n` elements in ascending order. They are a
  permutation of what they were, and nothing behind them has changed.

Main results:

- `sortsFirst_exchangeSort`: the loops do that for any key.
- `sort_sorts`: the three functions do, for every array and every `n` that is no larger than its
  length. What moves are whole records. The witness sorts the array of `main` (sort.c:66–106), short
  of its last element, and its measurements.
-/

namespace Cosc240

open Lib ExchangeSort

namespace Sorting

/-- `Measurement`. -/
structure Measurement (V : Type*) where
  id : Int
  value : V
  deriving DecidableEq, Repr

/-- `sort(arr, n)`: what it returns, and the array afterwards. -/
def sort (arr : List Int) (n : Int) : Option (Int × List Int) :=
  (exchangeSort id n.toNat arr).map fun arr => (1, arr)

section Measurements

variable {V : Type*}

/-- `sortById(arr, n)`. -/
def sortById (arr : List (Measurement V)) (n : Int) : Option (Int × List (Measurement V)) :=
  (exchangeSort Measurement.id n.toNat arr).map fun arr => (1, arr)

/-- `sortByValue(arr, n)`. -/
def sortByValue [LinearOrder V] (arr : List (Measurement V)) (n : Int) :
    Option (Int × List (Measurement V)) :=
  (exchangeSort Measurement.value n.toNat arr).map fun arr => (1, arr)

end Measurements

/-- `arr'` is `arr` with the first `n` elements in ascending order. -/
structure SortsFirst {α κ : Type*} [LE κ] (f : α → κ) (n : Int) (arr arr' : List α) : Prop where
  ascending : (arr'.take n.toNat).Pairwise fun x y => f x ≤ f y
  perm : (arr'.take n.toNat).Perm (arr.take n.toNat)
  unchanged : arr'.drop n.toNat = arr.drop n.toNat

theorem sortsFirst_exchangeSort {α κ : Type*} [LinearOrder κ] (f : α → κ) {n : Int} {arr : List α}
    (hn : n ≤ arr.length) :
    ∃ arr', ((exchangeSort f n.toNat arr).map fun arr => ((1 : Int), arr)) = some (1, arr') ∧
      SortsFirst f n arr arr' := by
  obtain ⟨arr', hrun, hsorted, hperm, hdrop⟩ :=
    exchangeSort_spec f (show n.toNat ≤ arr.length by omega)
  rw [hrun]
  exact ⟨arr', rfl, hsorted, hperm, hdrop⟩

/-- **The three functions sort** the first `n` elements. What moves are whole records. -/
theorem sort_sorts (V : Type*) [LinearOrder V] :
    (∀ (arr : List Int) (n : Int), 0 ≤ n → n ≤ arr.length →
      ∃ arr', sort arr n = some (1, arr') ∧ SortsFirst id n arr arr') ∧
    (∀ (arr : List (Measurement V)) (n : Int), 0 ≤ n → n ≤ arr.length →
      ∃ arr', sortById arr n = some (1, arr') ∧ SortsFirst Measurement.id n arr arr') ∧
    ∀ (arr : List (Measurement V)) (n : Int), 0 ≤ n → n ≤ arr.length →
      ∃ arr', sortByValue arr n = some (1, arr') ∧ SortsFirst Measurement.value n arr arr' :=
  ⟨fun _ _ _ hn => sortsFirst_exchangeSort id hn,
    fun _ _ _ hn => sortsFirst_exchangeSort Measurement.id hn,
    fun _ _ _ hn => sortsFirst_exchangeSort Measurement.value hn⟩

/-- The array of `main`, all but its last element, and its measurements. -/
theorem sort_sorts_main :
    (∃ arr', sort [5, 3, 2, 1, 4] 4 = some (1, arr') ∧ SortsFirst id 4 [5, 3, 2, 1, 4] arr') ∧
      ∃ arr', sortByValue [⟨2, 27 / 5⟩, ⟨1, 23 / 10⟩, ⟨3, 9 / 2⟩] 3 = some (1, arr') ∧
        SortsFirst Measurement.value 3 [⟨2, (27 / 5 : ℚ)⟩, ⟨1, 23 / 10⟩, ⟨3, 9 / 2⟩] arr' :=
  ⟨(sort_sorts ℚ).1 [5, 3, 2, 1, 4] 4 (by decide) (by decide),
    (sort_sorts ℚ).2.2 [⟨2, 27 / 5⟩, ⟨1, 23 / 10⟩, ⟨3, 9 / 2⟩] 3 (by decide) (by decide)⟩

example : sort [5, 3, 2, 1, 4] 4 = some (1, [1, 2, 3, 5, 4]) := by decide

end Sorting

end Cosc240
