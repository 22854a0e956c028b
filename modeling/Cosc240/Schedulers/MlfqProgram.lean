import Cosc240.Lib.LinkedMemory
import Cosc240.Schedulers.Mlfq
import Cosc240.Simulator.Program

/-!
# `constant.c` and `exponential.c`, pointer by pointer

The array `priority_queues` holds the sentinels of the four queues. While a process is
current, its node is in no queue, and only the pointer `current` leads to it. As in `Mlfq`, the
common code is written once, with the slice length as a parameter.

- `Globals`, `init`: the memory, `current` and `priority_level`. Queue `i` is behind the sentinel at
  address `i`.
- `addToReadyQueue` (constant.c:86–126, exponential.c:85–125): `malloc`, two walks, and `add_next`.
- `dispatchFrom`, `dispatch`, `execute` (constant.c:140–196, exponential.c:137–194): the loop over
  the sentinels, the first block of `get_next_scheduled_process`, and the rest of it.
- `Holds`: the memory consists of the sentinels and the nodes of a state, with the current one
  loose.

Main results:

- `Holds.addToReadyQueue`, `Holds.dispatch`, `HoldsAt.execute`, `Holds.getNextScheduledProcess`:
  each function on memory does what the function on lists does, and none of them faults.
- `implements`: the multi-level feedback queue in memory implements `Mlfq`, for fewer processes than
  `steps`.
-/

namespace Cosc240

open Lib LinkedList

namespace MlfqProgram

variable {A : Allocator {a | a < 4}}

/-! ## The program -/

/-- The globals. Queue `i` is behind the sentinel at address `i`. -/
structure Globals (A : Allocator {a | a < 4}) extends NodeMemory A QuantumProcess where
  current : Option Nat
  priorityLevel : Mlfq.Level

/-- What is in each element of `priority_queues`. -/
def sentinel : QuantumProcess := { pid := 0, processingTime := 0, arrivalTime := 0,
                                   processedTime := 0, quantumUsed := 0 }

/-- The initial values. -/
def init (A : Allocator {a | a < 4}) : Globals A :=
  { toNodeMemory := .sentinels A sentinel, current := none, priorityLevel := Mlfq.topLevel }

/-- `add_to_ready_queue`. -/
def addToReadyQueue (steps : Nat) (m : Globals A) (process : ProcessInitial) :
    Option (Globals A) :=
  let (newProcess, memory) := m.malloc (newQuantumProcess process)
  (walkInsert (fun p => p.arrivalTime) (fun p => p.pid) memory.heap steps Mlfq.topLevel
    newProcess).map fun heap => { m with toNodeMemory := { memory with heap } }

/-- The loop that looks for the next process to schedule, over the remaining queues. -/
def dispatchFrom : List Mlfq.Level → Globals A → Option (Globals A)
  | [], m => some m
  | i :: rest, m => do
    let queue ← m.heap i
    if queue.next.isSome then
      let (current, heap) ← removeNext m.heap i
      return { m with heap, current, priorityLevel := i }
    else
      dispatchFrom rest m

/-- The first block of `get_next_scheduled_process`. -/
def dispatch (m : Globals A) : Option (Globals A) :=
  match m.current with
  | some _ => some m
  | none => dispatchFrom (List.finRange 4) m

/-- The rest of it, for the current process. -/
def execute (sliceLength : Mlfq.Level → Nat) (steps : Nat) (m : Globals A) (current : Nat) :
    Option (Nat × Globals A) := do
  let heap ← modify m.heap current QuantumProcess.execute
  let process ← heap current
  if process.data.processedTime = process.data.processingTime then
    let memory ← NodeMemory.free ⟨heap, m.allocator⟩ current
    return (process.data.pid, { m with toNodeMemory := memory, current := none })
  else if process.data.quantumUsed = sliceLength m.priorityLevel then
    let last ← skipWhile heap (fun _ => true) steps (Mlfq.nextLevel m.priorityLevel)
    let heap ← modify heap current fun p => { p with quantumUsed := 0 }
    let heap ← insertNext heap last current
    return (process.data.pid, { m with heap, current := none })
  else
    return (process.data.pid, { m with heap })

/-- `get_next_scheduled_process`. -/
def getNextScheduledProcess (sliceLength : Mlfq.Level → Nat) (steps : Nat) (m : Globals A) :
    Option (Nat × Globals A) := do
  let m ← dispatch m
  match m.current with
  | none => return (0, m)
  | some current => execute sliceLength steps m current

/-- The multi-level feedback queue with the given slice lengths, in memory. -/
def program (sliceLength : Mlfq.Level → Nat) (A : Allocator {a | a < 4}) (steps : Nat) :
    Program where
  Memory := Globals A
  init := init A
  addToReadyQueue := addToReadyQueue steps
  getNextScheduledProcess := getNextScheduledProcess sliceLength steps

/-! ## It does what `Mlfq` does -/

/-- The memory consists of the sentinels and these nodes, and this is what the state is. -/
structure HoldsAt (m : Globals A) (s : Mlfq.State)
    (cells : Mlfq.Level → List (Nat × QuantumProcess))
    (running : Option (Nat × QuantumProcess)) : Prop where
  memory : m.Holds (behind sentinel cells) running.toList ∅
  queues : contentsOf cells = s.priorityQueues
  current : m.current = running.map Prod.fst
  running : s.current = running.map Prod.snd
  priorityLevel : m.priorityLevel = s.priorityLevel

/-- The memory holds this state. -/
def Holds (m : Globals A) (s : Mlfq.State) : Prop := ∃ cells running, HoldsAt m s cells running

variable {m : Globals A} {s : Mlfq.State} {steps : Nat} {i : Mlfq.Level}
  {cells : Mlfq.Level → List (Nat × QuantumProcess)} {running : Option (Nat × QuantumProcess)}

theorem HoldsAt.length_eq (hm : HoldsAt m s cells running) (i : Mlfq.Level) :
    (cells i).length = (s.priorityQueues i).length := by
  rw [← hm.queues, contentsOf, List.length_map]

theorem length_le (s : Mlfq.State) (i : Mlfq.Level) :
    (s.priorityQueues i).length ≤ s.nodes.length := by
  have hlength := (allQueues_perm s.priorityQueues i).length_eq
  rw [List.length_append] at hlength
  rw [Mlfq.State.nodes, List.length_append]
  omega

theorem Holds.addToReadyQueue (hm : Holds m s) (hsteps : s.nodes.length < steps)
    (process : ProcessInitial) :
    ∃ m', addToReadyQueue steps m process = some m' ∧
      Holds m' (Mlfq.addToReadyQueue s process) := by
  obtain ⟨cells, running, hm⟩ := hm
  have hlength := length_le s 0
  rw [← hm.length_eq] at hlength
  -- the new node is loose next to the current one, which stays where it is
  obtain ⟨hfresh, -, -⟩ := hm.memory.malloc (newQuantumProcess process)
  obtain ⟨heap, hinsert, hheld, -⟩ := hfresh.insert (f := fun p => p.arrivalTime)
    (g := fun p => p.pid) (i := 0) (Nat.lt_of_le_of_lt hlength hsteps)
  refine ⟨_, congrArg (Option.map _) hinsert, _, running, hheld, ?_, hm.current, hm.running,
    hm.priorityLevel⟩
  rw [contentsOf_update, hm.queues]
  refine congrArg (Function.update s.priorityQueues 0) ?_
  rw [← hm.queues]
  exact map_skipInsert (fun c : Nat × QuantumProcess => c.2.arrivalTime) (fun c => c.2.pid)
    (fun p => p.arrivalTime) (fun p => p.pid) Prod.snd (fun _ => rfl) (fun _ => rfl) _ _

/-- The loop takes the first process of the first queue that is not empty. -/
theorem HoldsAt.dispatchFrom (hm : HoldsAt m s cells none) (is : List Mlfq.Level) :
    ∃ m', dispatchFrom is m = some m' ∧
      Holds m' (match is.find? fun i => !(s.priorityQueues i).isEmpty with
        | none => s
        | some i =>
          { priorityQueues := Function.update s.priorityQueues i (s.priorityQueues i).tail
            current := (s.priorityQueues i).head?
            priorityLevel := i }) := by
  induction is with
  | nil => exact ⟨m, rfl, cells, none, hm⟩
  | cons i is ih =>
    have hqueue : s.priorityQueues i = (cells i).map Prod.snd := by
      rw [← hm.queues]
      rfl
    rw [MlfqProgram.dispatchFrom, List.find?_cons]
    show ∃ m', (m.heap i).bind _ = _ ∧ _
    rw [hm.memory.sentinel_cell i, Option.bind_some]
    cases hcells : cells i with
    | nil =>
      rw [hqueue, hcells]
      exact ih
    | cons c l =>
      obtain ⟨a, p⟩ := c
      obtain ⟨heap, hremove, hheld, -⟩ := hm.memory.removeFirst hcells
      rw [hqueue, hcells]
      show ∃ m', (removeNext m.heap i).bind _ = _ ∧ _
      rw [hremove]
      refine ⟨_, rfl, _, some (a, p), hheld, ?_, rfl, ?_, rfl⟩
      · show _ = Function.update s.priorityQueues i (s.priorityQueues i).tail
        rw [contentsOf_update, hm.queues, hqueue, hcells]
        rfl
      · show (s.priorityQueues i).head? = _
        rw [hqueue, hcells]
        rfl

theorem Holds.dispatch (hm : Holds m s) :
    ∃ m', dispatch m = some m' ∧ Holds m' (Mlfq.dispatch s) := by
  obtain ⟨cells, running, hm⟩ := hm
  cases running with
  | none =>
    obtain ⟨m', hrun, hm'⟩ := hm.dispatchFrom (List.finRange 4)
    rw [MlfqProgram.dispatch, hm.current, Mlfq.dispatch, hm.running]
    exact ⟨m', hrun, hm'⟩
  | some c =>
    rw [MlfqProgram.dispatch, hm.current, Mlfq.dispatch, hm.running]
    exact ⟨m, rfl, cells, some c, hm⟩

/-- The current process leaves, goes to the back of a queue, or stays current. -/
theorem HoldsAt.execute (sliceLength : Mlfq.Level → Nat) {a : Nat} {current : QuantumProcess}
    (hm : HoldsAt m s cells (some (a, current))) (hsteps : s.nodes.length < steps) :
    ∃ m', execute sliceLength steps m a = some ((Mlfq.execute sliceLength s current).1, m') ∧
      Holds m' (Mlfq.execute sliceLength s current).2 := by
  obtain ⟨heap, hmodify, hm₁, -⟩ := hm.memory.modifyLoose QuantumProcess.execute
  obtain ⟨q, hcell⟩ := hm₁.loose_cell
  rw [MlfqProgram.execute, hmodify, Mlfq.execute]
  show ∃ m', (heap a).bind _ = _ ∧ _
  rw [show heap a = _ from hcell, Option.bind_some]
  dsimp only
  by_cases hdone : current.execute.processedTime = current.execute.processingTime
  · obtain ⟨memory, hfree, hheld, -⟩ := hm₁.free
    rw [if_pos hdone, if_pos hdone, show NodeMemory.free ⟨heap, m.allocator⟩ a = _ from hfree]
    exact ⟨_, rfl, cells, none, hheld, hm.queues, rfl, rfl, hm.priorityLevel⟩
  · rw [if_neg hdone, if_neg hdone, hm.priorityLevel]
    by_cases hquantum : current.execute.quantumUsed = sliceLength s.priorityLevel
    · have hlength : (cells (Mlfq.nextLevel s.priorityLevel)).length < steps := by
        rw [hm.length_eq]
        exact Nat.lt_of_le_of_lt (length_le s _) hsteps
      obtain ⟨front, last, hwalk, hlast⟩ := hm₁.last hlength
      obtain ⟨heap', hmodify', hm₂, -⟩ := hm₁.modifyLoose fun p => { p with quantumUsed := 0 }
      obtain ⟨heap'', hinsert, hm', -⟩ := hm₂.insertLast hlast
      rw [if_pos hquantum, if_pos hquantum]
      show ∃ m', (skipWhile heap _ _ _).bind _ = _ ∧ _
      rw [show skipWhile heap _ _ _ = _ from hwalk, Option.bind_some]
      show ∃ m', (LinkedList.modify heap a _).bind _ = _ ∧ _
      rw [show LinkedList.modify heap a _ = _ from hmodify', Option.bind_some]
      show ∃ m', (insertNext heap' _ a).bind _ = _ ∧ _
      rw [show insertNext heap' _ a = _ from hinsert]
      refine ⟨_, rfl, _, none, hm', ?_, rfl, rfl, rfl⟩
      rw [contentsOf_update, List.map_append, hm.queues, ← hm.queues]
      rfl
    · rw [if_neg hquantum, if_neg hquantum]
      exact ⟨_, rfl, cells, some (a, current.execute), hm₁, hm.queues, hm.current, rfl, rfl⟩

theorem Holds.getNextScheduledProcess (sliceLength : Mlfq.Level → Nat) (hm : Holds m s)
    (hsteps : s.nodes.length < steps) :
    ∃ m', getNextScheduledProcess sliceLength steps m =
        some ((Mlfq.getNextScheduledProcess sliceLength s).1, m') ∧
      Holds m' (Mlfq.getNextScheduledProcess sliceLength s).2 := by
  obtain ⟨m₁, hdispatch, cells, running, hm₁⟩ := hm.dispatch
  rw [MlfqProgram.getNextScheduledProcess, hdispatch, Mlfq.getNextScheduledProcess]
  show ∃ m', (some m₁).bind _ = _ ∧ _
  rw [Option.bind_some]
  cases running with
  | none =>
    rw [hm₁.current, hm₁.running]
    exact ⟨m₁, rfl, cells, none, hm₁⟩
  | some c =>
    rw [hm₁.current, hm₁.running]
    exact hm₁.execute sliceLength ((Mlfq.dispatch_nodes s).length_eq ▸ hsteps)

theorem contents_length (sliceLength : Mlfq.Level → Nat) (s : Mlfq.State) :
    ((Mlfq.books sliceLength).contents s).length = s.nodes.length := List.length_map _

/-- **The multi-level feedback queue in memory implements `Mlfq`**, for fewer processes than
`steps`. -/
def implements (sliceLength : Mlfq.Level → Nat) (A : Allocator {a | a < 4}) {bound steps : Nat}
    (hsteps : bound < steps) :
    Implements (program sliceLength A steps) (Mlfq.books sliceLength) bound where
  Rel := Holds
  init := ⟨_, none, NodeMemory.sentinels_holds A sentinel, rfl, rfl, rfl, rfl⟩
  add _ s p hrel _ _ hlength :=
    hrel.addToReadyQueue ((contents_length sliceLength s).symm.trans_lt (hlength.trans hsteps)) p
  next m s pid s' hrel _ _ hlength hnext := by
    obtain ⟨m', hrun, hm'⟩ := hrel.getNextScheduledProcess sliceLength
      ((contents_length sliceLength s).symm.trans_lt (hlength.trans_lt hsteps))
    rw [Option.some.inj hnext] at hrun hm'
    exact ⟨m', hrun, hm'⟩

end MlfqProgram

namespace ConstantProgram

/-- `constant.c` in memory. -/
def program : (A : Allocator {a | a < 4}) → (steps : Nat) → Program :=
  MlfqProgram.program Constant.sliceLength

end ConstantProgram

namespace ExponentialProgram

/-- `exponential.c` in memory. -/
def program : (A : Allocator {a | a < 4}) → (steps : Nat) → Program :=
  MlfqProgram.program Exponential.sliceLength

end ExponentialProgram

end Cosc240
