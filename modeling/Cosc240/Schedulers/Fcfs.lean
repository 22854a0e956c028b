import Cosc240.Lib.SkipInsert
import Cosc240.Simulator.Books

/-!
# `fcfs.c`

`process_list` (fcfs.c:16) is the list behind the sentinel node. `add_next` and
`remove_next` are consing and taking the tail at the node that a walk has
reached. The printing in debug mode is left out, and so is the exit that is taken when `malloc`
returns `NULL`. `Schedulers.FcfsProgram` has the same functions on nodes in memory.

- `addToReadyQueue` (fcfs.c:69–97): two walks, past the nodes that arrived earlier and then past
  those that arrived at the same time with a smaller pid, which is `skipInsert`.
- `getNextScheduledProcess` (fcfs.c:107–136): the loop over `process_list`. It gives a unit of time
  to the first node that needs one, and removes that node when it is complete.

Main results:

- `getNextScheduledProcess_cons`: no node in the list is complete, so that the first one is served.
- `books`: `fcfs.c` keeps its books.
-/

namespace Cosc240

open Lib

/-- `fcfs_process`. -/
abbrev FcfsProcess := Job

namespace Fcfs

/-- `add_to_ready_queue`. -/
def addToReadyQueue (processList : List FcfsProcess) (process : ProcessInitial) :
    List FcfsProcess :=
  skipInsert Job.arrivalTime Job.pid process.job processList

/-- `get_next_scheduled_process`: the loop over `process_list`. -/
def getNextScheduledProcess : List FcfsProcess → Nat × List FcfsProcess
  | [] => (0, [])
  | next :: rest =>
    if next.processedTime < next.processingTime then
      let next := { next with processedTime := incr next.processedTime }
      if next.processedTime = next.processingTime then (next.pid, rest)
      else (next.pid, next :: rest)
    else
      let (pid, rest) := getNextScheduledProcess rest
      (pid, next :: rest)

/-- `fcfs.c` as a scheduler. -/
def scheduler : Scheduler where
  State := List FcfsProcess
  init := []
  addToReadyQueue := addToReadyQueue
  getNextScheduledProcess processList := some (getNextScheduledProcess processList)

/-- With no complete process in the list, the first one is served. -/
theorem getNextScheduledProcess_cons {next : FcfsProcess} {rest : List FcfsProcess}
    (hlt : next.processedTime < next.processingTime) (hle : next.processingTime ≤ uintMax) :
    getNextScheduledProcess (next :: rest) = (next.pid, next.served ++ rest) := by
  rw [getNextScheduledProcess, if_pos hlt, incr_of_lt hlt hle, Job.served]
  by_cases hdone : next.processedTime + 1 = next.processingTime
  · rw [if_pos hdone, if_pos hdone]
    rfl
  · rw [if_neg hdone, if_neg hdone]
    rfl

/-- `fcfs.c` keeps its books. -/
def books : Books scheduler where
  contents processList := processList
  Ok _ := True
  init_ok := trivial
  init_contents := rfl
  add_ok _ _ _ _ := trivial
  add_contents processList process := skipInsert_perm process.job processList
  idle processList _ hnil := by
    cases hnil
    exact ⟨[], rfl, trivial, rfl⟩
  serve processList _ hv hne := by
    cases processList with
    | nil => exact absurd rfl hne
    | cons next rest =>
      refine ⟨next, rest, next.served ++ rest, List.Perm.refl _, ?_, trivial, List.Perm.refl _⟩
      exact congrArg some
        (getNextScheduledProcess_cons (hv.lt next (by simp)) (hv.lt_uintMax next (by simp)).le)

end Fcfs

end Cosc240
