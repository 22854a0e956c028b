import Mathlib.Data.List.Basic
import Mathlib.Data.List.Nodup

/-!
# Processes, tables and the C integers they are made of

`simulator.c` keeps one `process_stats` for each line of the schedule file. The
model uses natural numbers for `unsigned int` and wraps explicitly where the
code adds or subtracts, so that an overflow would show.

- `incr`, `usub`, `toUInt`: `n++`, `a - b` and the conversion to a 32-bit `unsigned int`.
- `ProcessInitial` and `ProcessStats`: the two records (simulator.c:21–25, 54–58). A table is a list
  of rows, in the order of the file.
- `stillRunning`, `getPidIndex`, `calculateTurnaroundTime`, `calculateWaitTime`: the functions on
  rows (simulator.c:141–148, 159–166, 230–243). `getPidIndex` returns 4294967295 for a pid that is
  not in the table, as the code does, since its result is unsigned.
- `Job`: the fields that the list nodes of all five schedulers have in common, with the node that a
  row stands for (`ProcessStats.job`).
- `Table`: the tables that readme.md:33–52 allows, with their conditions as fields, and
  `Table.start`, the rows that `main` makes of one. The time and space limits of the schedulers are
  all in these conditions: no number reaches 1,000,000.
- `readmeTable` and `crowdedTable`: the tables of the examples.
-/

namespace Cosc240

/-! ## `unsigned int` -/

/-- The largest `unsigned int` (32 bits). -/
def uintMax : Nat := 4294967295

/-- The largest `int`. -/
def intMax : Nat := 2147483647

/-- Conversion to `unsigned int`. -/
def toUInt (n : Nat) : Nat := n % (uintMax + 1)

/-- `n++` on an `unsigned int`. -/
def incr (n : Nat) : Nat := toUInt (n + 1)

/-- `a - b` on `unsigned int`s. -/
def usub (a b : Nat) : Nat := toUInt (a + (uintMax + 1 - b))

theorem toUInt_of_le {n : Nat} (h : n ≤ uintMax) : toUInt n = n :=
  Nat.mod_eq_of_lt (Nat.lt_succ_of_le h)

theorem incr_of_lt {n m : Nat} (h : n < m) (hm : m ≤ uintMax) : incr n = n + 1 :=
  toUInt_of_le (Nat.le_trans h hm)

theorem usub_of_le {a b : Nat} (h : b ≤ a) (ha : a ≤ uintMax) : usub a b = a - b := by
  have hsum : a + (uintMax + 1 - b) = a - b + (uintMax + 1) := by omega
  rw [usub, hsum, toUInt, Nat.add_mod_right]
  exact Nat.mod_eq_of_lt (by omega)

/-! ## Records of `simulator.c` -/

/-- `process_initial`: what the schedule file says about a process. -/
structure ProcessInitial where
  pid : Nat
  processingTime : Nat
  arrivalTime : Nat
  deriving DecidableEq, Repr

/-- `process_stats`: a row of the simulator's table. -/
structure ProcessStats where
  initial : ProcessInitial
  processedTime : Nat
  endTime : Nat
  deriving DecidableEq, Repr

/-- `still_running`. -/
def stillRunning (processes : List ProcessStats) : Bool :=
  processes.any fun p => p.processedTime < p.initial.processingTime

/-- `get_pid_index`. The not-found value is `-1` converted to `unsigned int`. -/
def getPidIndex (pid : Nat) (processes : List ProcessStats) : Nat :=
  match processes.findIdx? fun p => p.initial.pid = pid with
  | some i => i
  | none => uintMax

/-- `calculate_turnaround_time`. -/
def calculateTurnaroundTime (process : ProcessStats) : Nat :=
  toUInt (usub process.endTime process.initial.arrivalTime + 1)

/-- `calculate_wait_time`. -/
def calculateWaitTime (process : ProcessStats) : Nat :=
  usub (calculateTurnaroundTime process) process.processedTime

/-! ## What a scheduler node knows -/

/-- The fields that the list nodes of all five schedulers have in common. -/
structure Job where
  pid : Nat
  processingTime : Nat
  arrivalTime : Nat
  processedTime : Nat
  deriving DecidableEq, Repr

/-- The fields of a node that `add_to_ready_queue` has just filled in. -/
def ProcessInitial.job (p : ProcessInitial) : Job :=
  ⟨p.pid, p.processingTime, p.arrivalTime, 0⟩

/-- The node a scheduler should hold for a row of the simulator's table. -/
def ProcessStats.job (p : ProcessStats) : Job :=
  ⟨p.initial.pid, p.initial.processingTime, p.initial.arrivalTime, p.processedTime⟩

/-- What is left of a node after one more unit of time: nothing when that
completes the process. -/
def Job.served (j : Job) : List Job :=
  if j.processedTime + 1 = j.processingTime then []
  else [{ j with processedTime := j.processedTime + 1 }]

theorem stillRunning_iff {processes : List ProcessStats} :
    stillRunning processes = true ↔
      ∃ p ∈ processes, p.processedTime < p.initial.processingTime := by
  simp [stillRunning]

/-! ## Tables -/

/-- The tables that `readme.md` allows, among them all that `main` admits: at
least one process, pairwise distinct non-zero pids, at least one unit of work each,
every number below 1,000,000. -/
structure Table where
  processes : List ProcessInitial
  nonempty : processes ≠ []
  pids_nodup : (processes.map ProcessInitial.pid).Nodup
  pid_pos : ∀ p ∈ processes, 0 < p.pid
  pid_lt : ∀ p ∈ processes, p.pid < 1000000
  arrivalTime_lt : ∀ p ∈ processes, p.arrivalTime < 1000000
  processingTime_pos : ∀ p ∈ processes, 0 < p.processingTime
  processingTime_lt : ∀ p ∈ processes, p.processingTime < 1000000

/-- The rows `main` builds: nothing processed yet. -/
def Table.start (T : Table) : List ProcessStats :=
  T.processes.map fun p => ⟨p, 0, 0⟩

/-- The example of `readme.md`. -/
def readmeTable : Table where
  processes := [⟨1, 10, 0⟩, ⟨2, 1, 2⟩, ⟨3, 2, 6⟩]
  nonempty := by decide
  pids_nodup := by decide
  pid_pos := by decide
  pid_lt := by decide
  arrivalTime_lt := by decide
  processingTime_pos := by decide
  processingTime_lt := by decide

/-- A table that keeps every scheduler busy: two processes arrive together, one
while they wait and one late, and three of them outlast their first slice. -/
def crowdedTable : Table where
  processes := [⟨1, 9, 0⟩, ⟨2, 4, 0⟩, ⟨3, 7, 1⟩, ⟨4, 2, 11⟩]
  nonempty := by decide
  pids_nodup := by decide
  pid_pos := by decide
  pid_lt := by decide
  arrivalTime_lt := by decide
  processingTime_pos := by decide
  processingTime_lt := by decide

end Cosc240
