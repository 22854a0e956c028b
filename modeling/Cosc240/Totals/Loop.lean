import Cosc240.Lib.CInt

/-!
# One total, added up in a loop

`loop.c` of the second assignment. `fork.c` and `thread.c` are to compute the same total
with processes and with threads, from the same values and with a copy of the same
`calculate_value`. The array of the files is the parameter `values`, and `VALUES_SIZE`
is its length; a run that overflows an `int` has no outcome.

- `valueMultiplier`, `valueAdded`, `calculateValue` (loop.c:5–6, 14–16): the calculation, which is
  the same in all three files.
- `Outcome`: how a program has ended. It is the argument of `exit`, what is on `stdout`, the
  arguments of `perror`, and the global `total`.
- `accumulate` and `main` (loop.c:20–25): the loop, and the program.
- `result`: the exact value that `calculate_value` stands for.

Main results:

- `calculateValue_eq_some` and `calculateValue_of_inRange`: the calculation is exact if it is
  defined, and it is defined if its result is an `int`.
- `addAll_of_accumulate`: a loop that ends has added up the results, and
  `calculateValue_of_accumulate`: has calculated each of them.
- `main_eq_some`: the outcome of `loop.c`, if it has one.
-/

namespace Cosc240

open Lib

namespace Totals

/-- `VALUE_MULTIPLIER` in all three files. -/
def valueMultiplier : Int := 8

/-- `VALUE_ADDED` in all three files. -/
def valueAdded : Int := 6

/-- `calculate_value`, the same in all three files. -/
def calculateValue (value : Int) : Option Int := do
  let product ← CInt.mul valueMultiplier value
  CInt.add product valueAdded

/-- How a program has ended: the argument of `exit`, what is on `stdout`, the arguments of
`perror`, and the global `total`. -/
structure Outcome where
  exitCode : Int
  output : String
  perrors : List String
  total : Int
deriving DecidableEq, Repr

/-- `printf("%d\n", total)` and the end of `main`. -/
def Outcome.printed (total : Int) (perrors : List String) : Outcome :=
  { exitCode := 0, output := toString total ++ "\n", perrors, total }

namespace Loop

/-- The loop of `main`. -/
def accumulate (total : Int) (values : List Int) : Option Int :=
  values.foldlM (fun total value => do CInt.add total (← calculateValue value)) total

/-- `main` of `loop.c`. -/
def main (values : List Int) : Option Outcome := do
  let total ← accumulate 0 values
  return .printed total []

end Loop

/-! ## What the loop computes -/

/-- `VALUE_MULTIPLIER * value + VALUE_ADDED`. -/
def result (value : Int) : Int := valueMultiplier * value + valueAdded

theorem calculateValue_eq_some {value n : Int} (h : calculateValue value = some n) :
    n = result value := by
  obtain ⟨product, hproduct, hsum⟩ := Option.bind_eq_some_iff.mp h
  obtain ⟨-, rfl⟩ := CInt.check_eq_some.mp hproduct
  exact (CInt.check_eq_some.mp hsum).2.symm

/-- The product does not overflow before the sum does. -/
theorem calculateValue_of_inRange {value : Int} (h : CInt.InRange (result value)) :
    calculateValue value = some (result value) := by
  have hproduct : CInt.InRange (valueMultiplier * value) := by
    unfold CInt.InRange CInt.intMin CInt.intMax result valueMultiplier valueAdded at *
    omega
  unfold calculateValue CInt.mul
  rw [CInt.check_of_inRange hproduct]
  exact CInt.check_of_inRange h

namespace Loop

variable {values : List Int} {total final : Int}

theorem accumulate_cons_eq_some {value : Int}
    (h : accumulate total (value :: values) = some final) :
    calculateValue value = some (result value) ∧ CInt.InRange (total + result value) ∧
      accumulate (total + result value) values = some final := by
  obtain ⟨next, hnext, hrest⟩ := Option.bind_eq_some_iff.mp h
  obtain ⟨n, hn, hadd⟩ := Option.bind_eq_some_iff.mp hnext
  obtain rfl := calculateValue_eq_some hn
  obtain ⟨hrange, rfl⟩ := CInt.check_eq_some.mp hadd
  exact ⟨hn, hrange, hrest⟩

/-- A loop that ends has added up the results. -/
theorem addAll_of_accumulate (h : accumulate total values = some final) :
    CInt.addAll total (values.map result) = some final := by
  induction values generalizing total with
  | nil => exact h
  | cons value values ih =>
    obtain ⟨-, hrange, hrest⟩ := accumulate_cons_eq_some h
    rw [List.map_cons, CInt.addAll_cons hrange]
    exact ih hrest

/-- ... and has calculated each of them. -/
theorem calculateValue_of_accumulate (h : accumulate total values = some final) {value : Int}
    (hvalue : value ∈ values) : calculateValue value = some (result value) := by
  induction values generalizing total with
  | nil => cases hvalue
  | cons head values ih =>
    obtain ⟨hhead, -, hrest⟩ := accumulate_cons_eq_some h
    rcases List.mem_cons.mp hvalue with rfl | hvalue
    · exact hhead
    · exact ih hrest hvalue

/-- The outcome of `loop.c`, if it has one. -/
theorem main_eq_some {outcome : Outcome} (h : main values = some outcome) :
    outcome = .printed (values.map result).sum [] ∧
      CInt.InRange (values.map result).sum ∧
      ∀ value ∈ values, calculateValue value = some (result value) := by
  obtain ⟨total, htotal, houtcome⟩ := Option.bind_eq_some_iff.mp h
  obtain rfl := Option.some.inj houtcome
  have hsum := addAll_of_accumulate htotal
  have htotal' : total = (values.map result).sum := by
    rw [CInt.addAll_eq_some hsum, zero_add]
  rw [← htotal']
  exact ⟨rfl, CInt.inRange_addAll CInt.inRange_zero hsum,
    fun value hvalue => calculateValue_of_accumulate htotal hvalue⟩

end Loop

end Totals

end Cosc240
