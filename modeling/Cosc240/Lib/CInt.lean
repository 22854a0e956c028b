import Mathlib.Algebra.Order.BigOperators.Group.List
import Mathlib.Algebra.Ring.Int.Defs

/-!
# `int` arithmetic

C defines an operation on `int`s only if its exact result is an `int` again; otherwise
there is no result here. An accumulation is defined if every partial sum is.

- `intMin`, `intMax`, `InRange`: the range of a 32-bit `int`.
- `check`: the value of an expression whose exact value is known, if it is in the range; `add` and
  `mul` are the two operations through it.
- `ofSize`: the conversion of a `size_t`, which is not undefined but reduces modulo `2 ^ 32`.
- `addAll`: the loop `total += a` over a list of numbers.

Main results:

- `addAll_eq_some`: a loop that has a result has the exact sum as its result, and
  `inRange_addAll` puts that sum in the range.
- `addAll_of_nonneg`: for numbers that are not negative, nothing but the whole sum has to be in
  the range, since partial sums only grow.
-/

namespace Lib

namespace CInt

/-- `INT_MIN`. -/
def intMin : Int := -2147483648

/-- `INT_MAX`. -/
def intMax : Int := 2147483647

/-- `n` is an `int`. -/
def InRange (n : Int) : Prop := intMin ≤ n ∧ n ≤ intMax

instance (n : Int) : Decidable (InRange n) :=
  inferInstanceAs (Decidable (intMin ≤ n ∧ n ≤ intMax))

/-- The value of an expression with the exact value `n`. -/
def check (n : Int) : Option Int :=
  if InRange n then some n else none

/-- `a + b`. -/
def add (a b : Int) : Option Int := check (a + b)

/-- `a * b`. -/
def mul (a b : Int) : Option Int := check (a * b)

/-- `(int) n` for a `size_t`: modulo `2 ^ 32`. -/
def ofSize (n : Nat) : Int := (n : Int).bmod 4294967296

/-- `total += a` for each `a` of the list. -/
def addAll (total : Int) (l : List Int) : Option Int :=
  l.foldlM add total

theorem inRange_zero : InRange 0 := by decide

@[simp] theorem check_eq_some {n m : Int} : check n = some m ↔ InRange n ∧ n = m := by
  unfold check
  split
  · next h => simp [h]
  · next h => simp [h]

theorem check_of_inRange {n : Int} (h : InRange n) : check n = some n :=
  check_eq_some.mpr ⟨h, rfl⟩

theorem ofSize_of_le {n : Nat} (h : (n : Int) ≤ intMax) : ofSize n = n := by
  unfold intMax at h
  refine Int.bmod_eq_of_le ?_ ?_
  · omega
  · omega

/-! ## Accumulation -/

theorem addAll_cons {total a : Int} {l : List Int} (h : InRange (total + a)) :
    addAll total (a :: l) = addAll (total + a) l := by
  rw [addAll, List.foldlM_cons, add, check_of_inRange h]
  rfl

/-- Without an overflow the result is exact. -/
theorem addAll_eq_some {total result : Int} {l : List Int} (h : addAll total l = some result) :
    result = total + l.sum := by
  induction l generalizing total with
  | nil =>
    cases h
    rw [List.sum_nil, add_zero]
  | cons a l ih =>
    obtain ⟨next, hnext, hrest⟩ := Option.bind_eq_some_iff.mp h
    obtain ⟨-, rfl⟩ := check_eq_some.mp hnext
    rw [ih hrest, List.sum_cons, add_assoc]

theorem inRange_addAll {total result : Int} {l : List Int} (htotal : InRange total)
    (h : addAll total l = some result) : InRange result := by
  induction l generalizing total with
  | nil =>
    cases h
    exact htotal
  | cons a l ih =>
    obtain ⟨next, hnext, hrest⟩ := Option.bind_eq_some_iff.mp h
    obtain ⟨hrange, rfl⟩ := check_eq_some.mp hnext
    exact ih hrange hrest

/-- Partial sums of nonnegative numbers only grow: the last one is the one to look at. -/
theorem addAll_of_nonneg {total : Int} {l : List Int} (htotal : InRange total)
    (hnonneg : ∀ a ∈ l, 0 ≤ a) (hsum : InRange (total + l.sum)) :
    addAll total l = some (total + l.sum) := by
  induction l generalizing total with
  | nil => rw [List.sum_nil, add_zero]; rfl
  | cons a l ih =>
    have ha : 0 ≤ a := hnonneg a List.mem_cons_self
    have hl : ∀ b ∈ l, 0 ≤ b := fun b hb => hnonneg b (List.mem_cons_of_mem a hb)
    have hle : 0 ≤ l.sum := List.sum_nonneg hl
    rw [List.sum_cons, ← add_assoc] at hsum ⊢
    have hnext : InRange (total + a) :=
      ⟨htotal.1.trans (by omega), le_trans (by omega) hsum.2⟩
    rw [addAll_cons hnext]
    exact ih hnext hl hsum

end CInt

end Lib
