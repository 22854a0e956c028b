import Cosc240.Totals.Loop

/-!
# One total, from processes

`fork.c` of the second assignment. A child has its own copy of the memory, so that all
that reaches the parent is the argument of `exit`, of which `waitpid` reports eight
bits. The total is that of the loop only if what the results have above their low bytes
cancels out, without negative values only if no result needs a second byte.

- `Status`, `wifexited`, `wexitstatus`: what `waitpid` stores about a process that has ended.
- `Process` and `Kernel`: a child that the parent has not waited for yet, and what the system
  decides, which calls of `fork` fail and which children a signal ends.
- `child`, `forkLoop`, `waitLoop`, `main` (fork.c:23–52): the two loops, with a child for each
  value. The parent waits for the children in the order in which it has created them.
- `SameTotal`: `fork.c` and `loop.c` compute the same total, the sum of the results.

Main results:

- `forkLoop_eq`, `waitLoop_eq`, `main_eq`: served by the system, `fork.c` prints the sum of the low
  bytes of the results.
- `sum_high_eq_zero_iff`: without negative values nothing cancels out.
- `sameTotal_iff`: where `loop.c` has an outcome, `fork.c` has the same total exactly if what the
  results have above their low bytes adds up to nothing.
- `not_sameTotal_thirtyTwo`: the result of 32 is 262, and its low byte 6.
-/

namespace Cosc240

open Lib

namespace Totals

namespace Fork

/-! ## Processes -/

/-- What `waitpid` stores about a process that has ended. -/
inductive Status
  | exited (status : BitVec 8)
  | signaled (signal : Nat)
deriving DecidableEq, Repr

/-- The status of a process that has called `exit(code)`. -/
def exit (code : Int) : Status := .exited (BitVec.ofInt 8 code)

/-- `WIFEXITED`. -/
def wifexited : Status → Bool
  | .exited _ => true
  | .signaled _ => false

/-- `WEXITSTATUS`. -/
def wexitstatus : Status → Int
  | .exited status => status.toNat
  | .signaled _ => 0

/-- A child that the parent has not waited for yet, and how it ends. -/
structure Process where
  pid : Nat
  status : Status
deriving DecidableEq, Repr

/-- What the system decides: the process id that the `i`-th `fork` returns, or none if it
returns `-1`, and the signal that ends the `i`-th child, if one does. -/
structure Kernel where
  fork : Nat → Option Nat
  signal : Nat → Option Nat

/-- `waitpid(pid, &status, 0)`: the status, and the children that are left. Without such a
child `status` stays uninitialised, and there is no result. -/
def waitpid (pid : Nat) : List Process → Option (Status × List Process)
  | [] => none
  | process :: table =>
    if process.pid = pid then some (process.status, table)
    else do
      let (status, table) ← waitpid pid table
      return (status, process :: table)

/-! ## The program -/

/-- The `i`-th child. -/
def child (kernel : Kernel) (i : Nat) (value : Int) : Option Status :=
  match kernel.signal i with
  | some signal => some (.signaled signal)
  | none => do
    let result ← calculateValue value
    return exit result

/-- The first loop of `main`, from the `i`-th child on. -/
def forkLoop (kernel : Kernel) : Nat → List Int → ExceptT Outcome Option (List Process)
  | _, [] => pure []
  | i, value :: values =>
    match kernel.fork i with
    | none => throw { exitCode := 1, output := "", perrors := ["fork"], total := 0 }
    | some pid => do
      let status ← child kernel i value
      let table ← forkLoop kernel (i + 1) values
      return ⟨pid, status⟩ :: table

/-- The second loop of `main`. -/
def waitLoop (total : Int) (perrors : List String) :
    List Nat → List Process → Option (Int × List String)
  | [], _ => some (total, perrors)
  | pid :: children, table => do
    let (status, table) ← waitpid pid table
    if wifexited status then
      waitLoop (← CInt.add total (wexitstatus status)) perrors children table
    else
      waitLoop total (perrors ++ ["waitpid"]) children table

/-- `main` of `fork.c`. -/
def main (kernel : Kernel) (values : List Int) : Option Outcome := do
  match ← (forkLoop kernel 0 values).run with
  | .error outcome => return outcome
  | .ok table =>
    let (total, perrors) ← waitLoop 0 [] (table.map Process.pid) table
    return .printed total perrors

/-! ## What reaches the parent -/

theorem wexitstatus_exit (code : Int) : wexitstatus (exit code) = code % 256 := by
  show ((BitVec.ofInt 8 code).toNat : Int) = code % 256
  rw [BitVec.toNat_ofInt]
  omega

theorem waitpid_head (process : Process) (table : List Process) :
    waitpid process.pid (process :: table) = some (process.status, table) := by
  rw [waitpid, if_pos rfl]

/-- The first `n` calls of `fork` succeed, and no signal ends these children. -/
def Kernel.Serves (kernel : Kernel) (n : Nat) : Prop :=
  ∀ i < n, (kernel.fork i).isSome ∧ kernel.signal i = none

/-- Served by the system, the first loop leaves one child for each value. -/
theorem forkLoop_eq {kernel : Kernel} {values : List Int} {i : Nat}
    (hserves : kernel.Serves (i + values.length))
    (hvalues : ∀ value ∈ values, calculateValue value = some (result value)) :
    ∃ table, (forkLoop kernel i values).run = some (.ok table) ∧
      table.map Process.status = values.map fun value => exit (result value) := by
  induction values generalizing i with
  | nil => exact ⟨[], rfl, rfl⟩
  | cons value values ih =>
    obtain ⟨hfork, hsignal⟩ := hserves i (by rw [List.length_cons]; omega)
    obtain ⟨pid, hpid⟩ := Option.isSome_iff_exists.mp hfork
    obtain ⟨table, htable, hstatus⟩ := ih (i := i + 1)
      (fun j hj => hserves j (by rw [List.length_cons]; omega))
      fun value hvalue => hvalues value (List.mem_cons_of_mem _ hvalue)
    have hchild : child kernel i value = some (exit (result value)) := by
      rw [child, hsignal, hvalues value List.mem_cons_self]
      rfl
    refine ⟨⟨pid, exit (result value)⟩ :: table, ?_, ?_⟩
    · rw [forkLoop, hpid, hchild]
      simp only [ExceptT.run_bind, htable]
      rfl
    · rw [List.map_cons, List.map_cons, hstatus]

/-- The second loop adds up the low bytes. -/
theorem waitLoop_eq (total : Int) (table : List Process) (values : List Int)
    (hstatus : table.map Process.status = values.map fun value => exit (result value)) :
    waitLoop total [] (table.map Process.pid) table =
      (CInt.addAll total (values.map fun value => result value % 256)).map fun total =>
        (total, []) := by
  induction values generalizing total table with
  | nil =>
    obtain rfl := List.map_eq_nil_iff.mp hstatus
    rfl
  | cons value values ih =>
    obtain ⟨process, table, rfl, hprocess, htable⟩ := List.map_eq_cons_iff.mp hstatus
    rw [List.map_cons, waitLoop, waitpid_head, hprocess]
    show ((CInt.add total (wexitstatus (exit (result value)))).bind fun total =>
      waitLoop total [] (table.map Process.pid) table) = _
    rw [wexitstatus_exit, List.map_cons, CInt.addAll, List.foldlM_cons]
    cases CInt.add total (result value % 256) with
    | none => rfl
    | some next => exact ih next table htable

/-- **What `fork.c` prints**: the sum of the low bytes of the results. -/
theorem main_eq {kernel : Kernel} {values : List Int} (hserves : kernel.Serves values.length)
    (hvalues : ∀ value ∈ values, calculateValue value = some (result value)) :
    main kernel values =
      (CInt.addAll 0 (values.map fun value => result value % 256)).map fun total =>
        .printed total [] := by
  obtain ⟨table, htable, hstatus⟩ := forkLoop_eq (i := 0) (by rwa [zero_add]) hvalues
  have hwait := waitLoop_eq 0 table values hstatus
  unfold main
  rw [htable]
  show ((waitLoop 0 [] (table.map Process.pid) table).bind fun (total, perrors) =>
    some (Outcome.printed total perrors)) = _
  rw [hwait]
  cases CInt.addAll 0 (values.map fun value => result value % 256) with
  | none => rfl
  | some total => rfl

/-! ## Agreement with the loop -/

/-- `fork.c` and `loop.c` compute the same total, the sum of the results. -/
def SameTotal (kernel : Kernel) (values : List Int) : Prop :=
  ∃ loop fork, Loop.main values = some loop ∧ main kernel values = some fork ∧
    loop.total = (values.map result).sum ∧ fork.total = loop.total

/-- Low bytes, and what is above them. -/
theorem sum_map_result (values : List Int) :
    (values.map result).sum =
      256 * (values.map fun value => result value / 256).sum +
        (values.map fun value => result value % 256).sum := by
  induction values with
  | nil => rfl
  | cons value values ih =>
    have hsplit := Int.mul_ediv_add_emod (result value) 256
    simp only [List.map_cons, List.sum_cons, ih]
    omega

/-- 31 is the last value whose result is a single byte. -/
theorem result_ediv {value : Int} (hnonneg : 0 ≤ value) :
    0 ≤ result value / 256 ∧ (result value / 256 = 0 ↔ value ≤ 31) := by
  unfold result valueMultiplier valueAdded
  omega

/-- Without negative values nothing cancels out. -/
theorem sum_high_eq_zero_iff {values : List Int} (hnonneg : ∀ value ∈ values, 0 ≤ value) :
    (values.map fun value => result value / 256).sum = 0 ↔ ∀ value ∈ values, value ≤ 31 := by
  induction values with
  | nil => simp
  | cons value values ih =>
    have hvalue := result_ediv (hnonneg value List.mem_cons_self)
    have hrest := fun other hother => hnonneg other (List.mem_cons_of_mem value hother)
    have hsum : 0 ≤ (values.map fun value => result value / 256).sum := by
      refine List.sum_nonneg ?_
      intro high hmem
      obtain ⟨other, hother, rfl⟩ := List.mem_map.mp hmem
      exact (result_ediv (hrest other hother)).1
    rw [List.map_cons, List.sum_cons, List.forall_mem_cons, ← ih hrest, ← hvalue.2]
    omega

/-- **Two ways to one total.** Where `loop.c` has an outcome, `fork.c` has the same total
exactly if what the results have above their low bytes adds up to nothing. -/
theorem sameTotal_iff (kernel : Kernel) (values : List Int)
    (hserves : kernel.Serves values.length) (hdefined : Loop.main values ≠ none) :
    (SameTotal kernel values ↔ (values.map fun value => result value / 256).sum = 0) ∧
      ((∀ value ∈ values, 0 ≤ value) →
        (SameTotal kernel values ↔ ∀ value ∈ values, value ≤ 31)) := by
  obtain ⟨loop, hloop⟩ := Option.ne_none_iff_exists'.mp hdefined
  obtain ⟨rfl, hrange, hvalues⟩ := Loop.main_eq_some hloop
  have hsplit := sum_map_result values
  have hiff : SameTotal kernel values ↔
      (values.map fun value => result value / 256).sum = 0 := by
    constructor
    · rintro ⟨loop, fork, hloop', hfork, htotal, hsame⟩
      rw [main_eq hserves hvalues] at hfork
      obtain ⟨total, hadd, rfl⟩ := Option.map_eq_some_iff.mp hfork
      have hlow : total = _ := CInt.addAll_eq_some hadd
      have hfinal : total = (values.map result).sum := hsame.trans htotal
      omega
    · intro hhigh
      have hlow : (values.map fun value => result value % 256).sum = (values.map result).sum := by
        omega
      refine ⟨_, .printed (values.map result).sum [], hloop, ?_, rfl, rfl⟩
      rw [main_eq hserves hvalues, CInt.addAll_of_nonneg CInt.inRange_zero, zero_add, hlow]
      · rfl
      · intro low hmem
        obtain ⟨value, -, rfl⟩ := List.mem_map.mp hmem
        exact Int.emod_nonneg _ (by decide)
      · rwa [zero_add, hlow]
  exact ⟨hiff, fun hnonneg => hiff.trans (sum_high_eq_zero_iff hnonneg)⟩

/-- Process ids from 1 on, and no signals. -/
def quietKernel : Kernel where
  fork := fun i => some (i + 1)
  signal := fun _ => none

/-- The values of the files. -/
def fileValues : List Int := [1, 8, 7, 8, 5, 1, 7, 9, 4]

theorem sameTotal_iff_fileValues :
    (SameTotal quietKernel fileValues ↔
        (fileValues.map fun value => result value / 256).sum = 0) ∧
      ((∀ value ∈ fileValues, 0 ≤ value) →
        (SameTotal quietKernel fileValues ↔ ∀ value ∈ fileValues, value ≤ 31)) :=
  sameTotal_iff quietKernel fileValues (fun _ _ => ⟨rfl, rfl⟩) (by decide)

/-- The result of 32 is 262, and its low byte 6. -/
theorem not_sameTotal_thirtyTwo :
    ¬ ∀ (kernel : Kernel) (values : List Int), kernel.Serves values.length →
      Loop.main values ≠ none → SameTotal kernel values := by
  intro h
  obtain ⟨loop, fork, hloop, hfork, -, hsame⟩ :=
    h quietKernel [32] (fun _ _ => ⟨rfl, rfl⟩) (by decide)
  obtain rfl : _ = loop := Option.some.inj hloop
  obtain rfl : _ = fork := Option.some.inj hfork
  exact absurd hsame (by decide)

end Fork

end Totals

end Cosc240
