import Cosc240.Lib.LinkedMemory
import Cosc240.Schedulers.CustomPointers
import Cosc240.Simulator.Program

/-!
# `custom.c`, pointer by pointer

The choice from the smart queue is already there in `CustomPointers`. This is the rest: where
the nodes and the histories come from, how they are linked in, and when they are freed. Both
kinds come from one allocator, so that an address that one of them gives back may go to the other.

- `Globals`: the heaps of nodes and of histories, the allocator, `current`, `priority_level` and
  `process_histories`. Queue `i` is behind the sentinel at address `i`.
- `Globals.processMemory`, `Globals.historyMemory`: one of the two heaps with the allocator.
- `allocateSentinel` and `initProcessHistory` (custom.c:51–84): the sentinel of the histories, if it
  is not there yet, and a new history behind it.
- `freeFrom` and `freeProcessHistory` (custom.c:103–118).
- `addToReadyQueue` (custom.c:195–242), `moveToSmartQueue` (custom.c:247–261), `updateFrom` and
  `updateWaitTimes` (custom.c:266–279).
- `dispatch`, `runCurrent`, `retire`, `getNextScheduledProcess` (custom.c:336–387).
- `program`: `custom.c` in memory, as a `Program`. Each of its loops may take a given number of
  steps.

That it does what `Custom` does is in `Schedulers.CustomProgramHolds` and
`Schedulers.CustomProgramRefines`.
-/

namespace Cosc240

open Lib LinkedList

namespace CustomProgram

variable {D : Type} {A : Allocator {a | a < 2}}

/-! ## The globals -/

/-- The globals. Queue `i` is behind the sentinel at address `i`. -/
structure Globals (D : Type) (A : Allocator {a | a < 2}) extends Custom.Storage D where
  allocator : A.State
  current : Option Nat
  priorityLevel : Nat

/-- What is in each element of `priority_queues`. -/
def sentinel : QuantumProcess := { pid := 0, processingTime := 0, arrivalTime := 0,
                                   processedTime := 0, quantumUsed := 0 }

/-- The initial values. -/
def init (D : Type) (A : Allocator {a | a < 2}) : Globals D A :=
  { processes := (NodeMemory.sentinels A sentinel).heap, histories := fun _ => none,
    priorityQueues := 0, processHistories := none, allocator := A.init, current := none,
    priorityLevel := 0 }

/-- The nodes of the queues, and the allocator. -/
def Globals.processMemory (m : Globals D A) : NodeMemory A QuantumProcess :=
  ⟨m.processes, m.allocator⟩

/-- The histories, and the allocator. -/
def Globals.historyMemory (m : Globals D A) : NodeMemory A (ProcessHistory D) :=
  ⟨m.histories, m.allocator⟩

/-- The nodes have changed. -/
def Globals.withProcesses (m : Globals D A) (memory : NodeMemory A QuantumProcess) : Globals D A :=
  { m with processes := memory.heap, allocator := memory.allocator }

/-- The histories have changed. -/
def Globals.withHistories (m : Globals D A) (memory : NodeMemory A (ProcessHistory D)) :
    Globals D A :=
  { m with histories := memory.heap, allocator := memory.allocator }

/-! ## Histories -/

/-- The first part of `init_process_history`: the sentinel, if it is not there yet. -/
def allocateSentinel [DoubleArith D] (m : Globals D A) : Globals D A :=
  match m.processHistories with
  | some _ => m
  | none =>
    let (sentinel, memory) := m.historyMemory.malloc
      { pid := 0, totalTimeRun := none, waitTime := 0, rescheduleCount := 0,
        score := DoubleArith.ofUInt 0 }
    { m.withHistories memory with processHistories := some sentinel }

/-- `init_process_history`. -/
def initProcessHistory [DoubleArith D] (m : Globals D A) (process : Nat) :
    Option (Globals D A) := do
  let m := allocateSentinel m
  let sentinel ← m.processHistories
  let node ← m.processes process
  let (newHistory, memory) := m.historyMemory.malloc
    { pid := node.data.pid, totalTimeRun := some process, waitTime := 0, rescheduleCount := 0,
      score := DoubleArith.ofUInt 0 }
  let histories ← insertNext memory.heap sentinel newHistory
  return m.withHistories { memory with heap := histories }

/-- The loop of `free_process_history`. -/
def freeFrom : Nat → Globals D A → (pid prev : Nat) → Option Nat → Option (Globals D A)
  | 0, _, _, _, _ => none
  | _ + 1, m, _, _, none => some m
  | steps + 1, m, pid, prev, some current => do
    let history ← m.histories current
    if history.data.pid = pid then
      let before ← m.histories prev
      let histories := store m.histories prev { before with next := history.next }
      let memory ← NodeMemory.free ⟨histories, m.allocator⟩ current
      return m.withHistories memory
    else
      freeFrom steps m pid current history.next

/-- `free_process_history`. -/
def freeProcessHistory (steps : Nat) (m : Globals D A) (pid : Nat) : Option (Globals D A) := do
  let prev ← m.processHistories
  let sentinel ← m.histories prev
  freeFrom steps m pid prev sentinel.next

/-! ## Queues -/

/-- `add_to_ready_queue`. -/
def addToReadyQueue [DoubleArith D] (steps : Nat) (m : Globals D A) (process : ProcessInitial) :
    Option (Globals D A) := do
  let (newProcess, memory) := m.processMemory.malloc (newQuantumProcess process)
  let m ← initProcessHistory (m.withProcesses memory) newProcess
  let processes ← walkInsert (fun p => p.arrivalTime) (fun p => p.pid) m.processes steps 0
    newProcess
  return { m with processes }

/-- `move_to_smart_queue`. -/
def moveToSmartQueue (steps : Nat) (m : Globals D A) (process : Nat) : Option (Globals D A) := do
  let last ← skipWhile m.processes (fun _ => true) steps 1
  let node ← m.processes process
  let processes := store m.processes process { node with next := none }
  let before ← processes last
  return { m with processes := store processes last { before with next := some process } }

/-- `update_wait_times`, from `node` on to the end of its queue. -/
def updateFrom (steps : Nat) : Nat → Globals D A → Nat → Option (Globals D A)
  | 0, _, _ => none
  | left + 1, m, node => do
    let c ← m.processes node
    match c.next with
    | none => return m
    | some next => do
      let process ← m.processes next
      match ← m.getProcessHistory steps process.data.pid with
      | none => updateFrom steps left m next
      | some history => do
        let histories ← modify m.histories history fun h => { h with waitTime := incr h.waitTime }
        updateFrom steps left { m with histories } next

/-- `update_wait_times`. -/
def updateWaitTimes (steps : Nat) (m : Globals D A) : Option (Globals D A) := do
  let m ← updateFrom steps steps m 0
  updateFrom steps steps m 1

/-! ## One time step -/

/-- The first block of `get_next_scheduled_process`. -/
def dispatch [DoubleArith D] (steps : Nat) (m : Globals D A) : Option (Globals D A) :=
  match m.current with
  | some _ => some m
  | none => do
    let fast ← m.processes 0
    if fast.next.isSome then
      let (current, processes) ← removeNext m.processes 0
      return { m with processes, current, priorityLevel := 0 }
    else
      let smart ← m.processes 1
      if smart.next.isSome then
        let (current, storage) ← m.selectBestProcessFromSmartQueue steps
        return { m with toStorage := storage, current, priorityLevel := 1 }
      else
        return m

/-- The middle of it: wait times, then one unit of time for `current`. -/
def runCurrent (steps : Nat) (m : Globals D A) (current : Nat) : Option (Globals D A) := do
  let m ← updateWaitTimes steps m
  let processes ← modify m.processes current QuantumProcess.execute
  return { m with processes }

/-- The end of it: `current` may be complete, or go to the smart queue. -/
def retire (steps : Nat) (m : Globals D A) (current : Nat) : Option (Nat × Globals D A) := do
  let process ← m.processes current
  let pid := process.data.pid
  let history ← m.getProcessHistory steps pid
  if process.data.processedTime = process.data.processingTime then
    let memory ← m.processMemory.free current
    let m ← freeProcessHistory steps (m.withProcesses memory) pid
    return (pid, { m with current := none })
  else if process.data.quantumUsed ≥ (m.priorityLevel + 1) * 2 then
    let m ← moveToSmartQueue steps m current
    let history ← history
    let histories ← modify m.histories history fun h =>
      { h with rescheduleCount := incr h.rescheduleCount }
    let processes ← modify m.processes current fun p => { p with quantumUsed := 0 }
    return (pid, { m with histories, processes, current := none })
  else
    return (pid, m)

/-- `get_next_scheduled_process`. -/
def getNextScheduledProcess [DoubleArith D] (steps : Nat) (m : Globals D A) :
    Option (Nat × Globals D A) := do
  let m ← dispatch steps m
  match m.current with
  | none => return (0, m)
  | some current => do
    let m ← runCurrent steps m current
    retire steps m current

/-- `custom.c` in memory. -/
def program (D : Type) [DoubleArith D] (A : Allocator {a | a < 2}) (steps : Nat) : Program where
  Memory := Globals D A
  init := init D A
  addToReadyQueue := addToReadyQueue steps
  getNextScheduledProcess := getNextScheduledProcess steps

end CustomProgram

end Cosc240
