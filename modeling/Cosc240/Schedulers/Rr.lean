import Cosc240.Lib.SkipInsert
import Cosc240.Simulator.Books

/-!
# `rr.c`

As in `fcfs.c`, `process_list` (rr.c:21) is the list behind the sentinel node. The walk to
the last node followed by `add_next` is an append. The printing in debug mode and the exit for a
`malloc` that fails are left out.

- `QuantumProcess`: the list nodes of `rr.c`, `constant.c` and `exponential.c`, which have the same
  fields, with `quantum_used` besides those of `Job`. `newQuantumProcess` is a node that has just
  been filled in, and `QuantumProcess.execute` is one unit of time for a node.
- `addToReadyQueue` (rr.c:71–103): the two walks of `fcfs.c`, which do not keep the list sorted
  here, as rotations put it out of order.
- `getNextScheduledProcess` (rr.c:118–157): the head is executed. It leaves when it is complete, and
  goes to the back when `quantum_used` is equal to `QUANTUM`, which leaves `quantum_used` as it is.

Main results:

- `getNextScheduledProcess_cons`: what a call does to a list that is not empty.
- `books`: `rr.c` keeps its books.
-/

namespace Cosc240

open Lib

/-- The list nodes of `rr.c`, `constant.c` and `exponential.c`. -/
structure QuantumProcess extends Job where
  quantumUsed : Nat
  deriving DecidableEq, Repr

/-- The node `add_to_ready_queue` allocates. -/
def newQuantumProcess (process : ProcessInitial) : QuantumProcess :=
  { toJob := process.job, quantumUsed := 0 }

/-- One unit of time: `processed_time++` and `quantum_used++`. -/
def QuantumProcess.execute (p : QuantumProcess) : QuantumProcess :=
  { p with processedTime := incr p.processedTime, quantumUsed := incr p.quantumUsed }

@[simp] theorem QuantumProcess.execute_pid (p : QuantumProcess) : p.execute.pid = p.pid := rfl

@[simp] theorem QuantumProcess.execute_processingTime (p : QuantumProcess) :
    p.execute.processingTime = p.processingTime := rfl

/-- Executing a node that is not complete serves it. -/
theorem QuantumProcess.served_toJob {p : QuantumProcess}
    (hlt : p.processedTime < p.processingTime) (hle : p.processingTime ≤ uintMax) :
    p.toJob.served =
      if p.execute.processedTime = p.execute.processingTime then [] else [p.execute.toJob] := by
  rw [Job.served, QuantumProcess.execute, incr_of_lt hlt hle]

/-- `rr_process`. -/
abbrev RrProcess := QuantumProcess

namespace Rr

/-- `QUANTUM`. -/
def quantum : Nat := 3

/-- `add_to_ready_queue`. -/
def addToReadyQueue (processList : List RrProcess) (process : ProcessInitial) : List RrProcess :=
  skipInsert (fun p => p.arrivalTime) (fun p => p.pid) (newQuantumProcess process) processList

/-- `get_next_scheduled_process`. The rotation leaves `quantum_used` as it is. -/
def getNextScheduledProcess : List RrProcess → Nat × List RrProcess
  | [] => (0, [])
  | current :: rest =>
    let current := current.execute
    if current.processedTime = current.processingTime then (current.pid, rest)
    else if current.quantumUsed = quantum then (current.pid, rest ++ [current])
    else (current.pid, current :: rest)

/-- `rr.c` as a scheduler. -/
def scheduler : Scheduler where
  State := List RrProcess
  init := []
  addToReadyQueue := addToReadyQueue
  getNextScheduledProcess processList := some (getNextScheduledProcess processList)

/-- The head of the list is served, and then leaves, stays or goes to the back. -/
theorem getNextScheduledProcess_cons (current : RrProcess) (rest : List RrProcess)
    (hlt : current.processedTime < current.processingTime)
    (hle : current.processingTime ≤ uintMax) :
    ∃ processList, getNextScheduledProcess (current :: rest) = (current.pid, processList) ∧
      (processList.map QuantumProcess.toJob).Perm
        (current.toJob.served ++ rest.map QuantumProcess.toJob) := by
  rw [QuantumProcess.served_toJob hlt hle, getNextScheduledProcess]
  by_cases hdone : current.execute.processedTime = current.execute.processingTime
  · rw [if_pos hdone, if_pos hdone]
    exact ⟨rest, rfl, List.Perm.refl _⟩
  · rw [if_neg hdone, if_neg hdone]
    by_cases hquantum : current.execute.quantumUsed = quantum
    · rw [if_pos hquantum]
      refine ⟨rest ++ [current.execute], rfl, ?_⟩
      rw [List.map_append]
      exact List.perm_append_comm
    · rw [if_neg hquantum]
      exact ⟨current.execute :: rest, rfl, List.Perm.refl _⟩

/-- `rr.c` keeps its books. -/
def books : Books scheduler where
  contents processList := List.map QuantumProcess.toJob processList
  Ok _ := True
  init_ok := trivial
  init_contents := rfl
  add_ok _ _ _ _ := trivial
  add_contents processList process :=
    (skipInsert_perm (newQuantumProcess process) processList).map QuantumProcess.toJob
  idle processList _ hnil := by
    cases List.map_eq_nil_iff.mp hnil
    exact ⟨[], rfl, trivial, rfl⟩
  serve processList _ hv hne := by
    cases processList with
    | nil => exact absurd rfl hne
    | cons current rest =>
      obtain ⟨processList', hnext, hperm⟩ := getNextScheduledProcess_cons current rest
        (hv.lt current.toJob (by simp)) (hv.lt_uintMax current.toJob (by simp)).le
      exact ⟨current.toJob, rest.map QuantumProcess.toJob, processList', List.Perm.refl _,
        congrArg some hnext, trivial, hperm⟩

end Rr

end Cosc240
