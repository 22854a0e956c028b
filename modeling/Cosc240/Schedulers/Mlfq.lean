import Cosc240.Lib.Queues
import Cosc240.Schedulers.Rr

/-!
# `constant.c` and `exponential.c`

Two multi-level feedback queues with four levels that differ in the length of
the slice a level grants. The common code is written once, with the slice
length as a parameter, and each file is that code at its own value.

- `State` (constant.c:29–36, exponential.c:28–35): the four queues (behind their sentinels),
  `current` and `priority_level`.
- `addToReadyQueue` (constant.c:86–126, exponential.c:85–125): into queue 0. It has a local variable
  that shadows `priority_level`, so it leaves the global one alone.
- `dispatch` and `execute` (constant.c:140–196, exponential.c:137–194): with no process current, the
  first one of the first queue that is not empty is taken; then the current process gets a unit of
  time, and leaves, goes to the next level, or stays current.
- `Constant.scheduler` and `Exponential.scheduler`: slices of `3 * (k + 1)` and `2 * (k + 1) ^ 2`
  time steps.

Main results:

- `dispatch_cases` and `execute_nodes`: what the two halves of a call do to the nodes.
- `getNextScheduledProcess_serve`: with a process anywhere, one process is served.
- `books`: the multi-level feedback queues keep their books.
-/

namespace Cosc240

open Lib

namespace Mlfq

/-- A priority level, below `NUM_PRIORITY_QUEUES`. -/
abbrev Level := Fin 4

/-- The queue that new processes enter. -/
abbrev topLevel : Level := 0

/-- The globals. -/
structure State where
  priorityQueues : Level → List QuantumProcess
  current : Option QuantumProcess
  priorityLevel : Level

/-- Their initial values. -/
def init : State := { priorityQueues := fun _ => [], current := none, priorityLevel := 0 }

/-- `add_to_ready_queue`: into queue 0. -/
def addToReadyQueue (s : State) (process : ProcessInitial) : State :=
  { s with
    priorityQueues := Function.update s.priorityQueues 0
      (skipInsert (fun p => p.arrivalTime) (fun p => p.pid) (newQuantumProcess process)
        (s.priorityQueues 0)) }

/-- The first block of `get_next_scheduled_process`: with no process current,
take the first one of the first queue that is not empty. -/
def dispatch (s : State) : State :=
  match s.current with
  | some _ => s
  | none =>
    match (List.finRange 4).find? fun i => !(s.priorityQueues i).isEmpty with
    | none => s
    | some i =>
      { priorityQueues := Function.update s.priorityQueues i (s.priorityQueues i).tail
        current := (s.priorityQueues i).head?
        priorityLevel := i }

/-- `MIN(priority_level + 1, NUM_PRIORITY_QUEUES - 1)`. -/
def nextLevel (level : Level) : Level := ⟨min (level.val + 1) 3, by omega⟩

/-- The rest of it, for the current process. -/
def execute (sliceLength : Level → Nat) (s : State) (current : QuantumProcess) : Nat × State :=
  let current := current.execute
  if current.processedTime = current.processingTime then
    (current.pid, { s with current := none })
  else if current.quantumUsed = sliceLength s.priorityLevel then
    let level := nextLevel s.priorityLevel
    (current.pid,
      { s with
        priorityQueues := Function.update s.priorityQueues level
          (s.priorityQueues level ++ [{ current with quantumUsed := 0 }])
        current := none })
  else
    (current.pid, { s with current := some current })

/-- `get_next_scheduled_process`. -/
def getNextScheduledProcess (sliceLength : Level → Nat) (s : State) : Nat × State :=
  let s := dispatch s
  match s.current with
  | none => (0, s)
  | some current => execute sliceLength s current

/-- The multi-level feedback queue with the given slice lengths. -/
def scheduler (sliceLength : Level → Nat) : Scheduler where
  State := State
  init := init
  addToReadyQueue := addToReadyQueue
  getNextScheduledProcess s := some (getNextScheduledProcess sliceLength s)

end Mlfq

/-- `constant_process`. -/
abbrev ConstantProcess := QuantumProcess

namespace Constant

/-- `QUANTUM`. -/
def quantum : Nat := 3

/-- `QUANTUM * (priority_level + 1)`. -/
def sliceLength (level : Mlfq.Level) : Nat := quantum * (level + 1)

/-- `constant.c` as a scheduler. -/
def scheduler : Scheduler := Mlfq.scheduler sliceLength

end Constant

/-- `exponential_process`. -/
abbrev ExponentialProcess := QuantumProcess

namespace Exponential

/-- `2 * ((priority_level + 1) * (priority_level + 1))`. -/
def sliceLength (level : Mlfq.Level) : Nat := 2 * ((level + 1) * (level + 1))

/-- `exponential.c` as a scheduler. -/
def scheduler : Scheduler := Mlfq.scheduler sliceLength

end Exponential

namespace Mlfq

/-! ## Bookkeeping -/

/-- The nodes in the queues together with `current`. -/
def State.nodes (s : State) : List QuantumProcess :=
  s.current.toList ++ allQueues s.priorityQueues

theorem addToReadyQueue_nodes (s : State) (process : ProcessInitial) :
    (addToReadyQueue s process).nodes.Perm (newQuantumProcess process :: s.nodes) := by
  have hqueues : (allQueues (addToReadyQueue s process).priorityQueues).Perm
      (newQuantumProcess process :: allQueues s.priorityQueues) := by
    refine (allQueues_update_perm _ _ _).trans ?_
    refine ((skipInsert_perm _ _).append_right _).trans ?_
    exact ((allQueues_perm s.priorityQueues 0).symm).cons _
  exact (hqueues.append_left _).trans List.perm_middle

/-- Either somebody is current, or a queue is chosen, or all queues are empty. -/
theorem dispatch_cases (s : State) :
    (∃ c, s.current = some c ∧ dispatch s = s) ∨
    (∃ i p rest, s.current = none ∧ s.priorityQueues i = p :: rest ∧
      (∀ j < i, s.priorityQueues j = []) ∧
      dispatch s = { priorityQueues := Function.update s.priorityQueues i rest
                     current := some p
                     priorityLevel := i }) ∨
    (s.current = none ∧ (∀ i, s.priorityQueues i = []) ∧ dispatch s = s) := by
  cases hc : s.current with
  | some c => exact Or.inl ⟨c, rfl, by simp [dispatch, hc]⟩
  | none =>
    refine Or.inr ?_
    cases hf : (List.finRange 4).find? (fun i => !(s.priorityQueues i).isEmpty) with
    | none =>
      refine Or.inr ⟨rfl, fun i => ?_, by simp [dispatch, hc, hf]⟩
      simpa using List.find?_eq_none.mp hf i (List.mem_finRange i)
    | some i =>
      have hi : s.priorityQueues i ≠ [] := by simpa using List.find?_some hf
      obtain ⟨p, rest, hq⟩ := List.exists_cons_of_ne_nil hi
      refine Or.inl ⟨i, p, rest, rfl, hq, fun j hj => ?_, ?_⟩
      · -- the scan has passed `j` before it got to `i`
        obtain ⟨-, k, hk, hki, hbefore⟩ := List.find?_eq_some_iff_getElem.mp hf
        rw [List.getElem_finRange] at hki
        have hjk : j.val < k := by
          rw [← hki] at hj
          exact hj
        simpa using hbefore j.val hjk
      · simp [dispatch, hc, hf, hq]

theorem dispatch_nodes (s : State) : (dispatch s).nodes.Perm s.nodes := by
  rcases dispatch_cases s with ⟨c, -, h⟩ | ⟨i, p, rest, hc, hq, -, h⟩ | ⟨-, -, h⟩
  · rw [h]
  · rw [h]
    show (p :: allQueues (Function.update s.priorityQueues i rest)).Perm _
    have hall := allQueues_perm s.priorityQueues i
    rw [hq] at hall
    rw [State.nodes, hc]
    exact ((allQueues_update_perm _ _ _).cons p).trans hall.symm
  · rw [h]

/-- The executed process leaves, is moved to the next level, or stays current. -/
theorem execute_nodes (sliceLength : Level → Nat) (s : State) (c : QuantumProcess)
    (hlt : c.processedTime < c.processingTime) (hle : c.processingTime ≤ uintMax) :
    (execute sliceLength s c).1 = c.pid ∧
      ((execute sliceLength s c).2.nodes.map QuantumProcess.toJob).Perm
        (c.toJob.served ++ (allQueues s.priorityQueues).map QuantumProcess.toJob) := by
  rw [QuantumProcess.served_toJob hlt hle, execute]
  by_cases hdone : c.execute.processedTime = c.execute.processingTime
  · rw [if_pos hdone, if_pos hdone]
    exact ⟨rfl, List.Perm.refl _⟩
  · rw [if_neg hdone, if_neg hdone]
    split
    · refine ⟨rfl, ?_⟩
      have hall := allQueues_perm s.priorityQueues (nextLevel s.priorityLevel)
      have hupd := allQueues_update_perm s.priorityQueues (nextLevel s.priorityLevel)
        (s.priorityQueues (nextLevel s.priorityLevel) ++ [{ c.execute with quantumUsed := 0 }])
      have hqueues := hupd.trans
        ((List.perm_append_comm.append_right _).trans (hall.symm.cons _))
      exact hqueues.map QuantumProcess.toJob
    · exact ⟨rfl, List.Perm.refl _⟩

theorem dispatch_current_ne_none {s : State} (h : s.nodes ≠ []) :
    ∃ c, (dispatch s).current = some c := by
  rcases dispatch_cases s with ⟨c, hc, hd⟩ | ⟨i, p, rest, -, -, -, hd⟩ | ⟨hc, hq, -⟩
  · exact ⟨c, by rw [hd, hc]⟩
  · exact ⟨p, by rw [hd]⟩
  · exact absurd (by rw [State.nodes, hc, allQueues_eq_nil.mpr hq]; rfl) h

theorem getNextScheduledProcess_of_nil (sliceLength : Level → Nat) {s : State}
    (h : s.nodes = []) : getNextScheduledProcess sliceLength s = (0, s) := by
  obtain ⟨hc, hq⟩ := List.append_eq_nil_iff.mp h
  have hcur : s.current = none := Option.toList_eq_nil_iff.mp hc
  have hdisp : dispatch s = s := by
    rcases dispatch_cases s with ⟨c, -, hd⟩ | ⟨i, p, rest, -, hqi, -, -⟩ | ⟨-, -, hd⟩
    · exact hd
    · rw [allQueues_eq_nil.mp hq i] at hqi
      cases hqi
    · exact hd
  simp [getNextScheduledProcess, hdisp, hcur]

theorem getNextScheduledProcess_of_current (sliceLength : Level → Nat) {s : State}
    {c : QuantumProcess} (h : (dispatch s).current = some c) :
    getNextScheduledProcess sliceLength s = execute sliceLength (dispatch s) c := by
  simp [getNextScheduledProcess, h]

/-- The process that is current after the dispatch was there before. -/
theorem mem_of_dispatch {s : State} {c : QuantumProcess} (h : (dispatch s).current = some c) :
    c.toJob ∈ s.nodes.map QuantumProcess.toJob := by
  have hmem : c ∈ (dispatch s).nodes := by
    rw [State.nodes, h]
    exact List.mem_cons_self
  exact List.mem_map_of_mem ((dispatch_nodes s).mem_iff.mp hmem)

/-- With a process anywhere, one process is served. -/
theorem getNextScheduledProcess_serve (sliceLength : Level → Nat) {s : State}
    (hv : ValidJobs (s.nodes.map QuantumProcess.toJob)) (hne : s.nodes ≠ []) :
    ∃ c rest, (s.nodes.map QuantumProcess.toJob).Perm (c :: rest) ∧
      (getNextScheduledProcess sliceLength s).1 = c.pid ∧
      ((getNextScheduledProcess sliceLength s).2.nodes.map QuantumProcess.toJob).Perm
        (c.served ++ rest) := by
  obtain ⟨c, hc⟩ := dispatch_current_ne_none hne
  have hperm := (dispatch_nodes s).map QuantumProcess.toJob
  rw [State.nodes, hc] at hperm
  have hmem := mem_of_dispatch hc
  rw [getNextScheduledProcess_of_current sliceLength hc]
  obtain ⟨hpid, hnodes⟩ :=
    execute_nodes sliceLength (dispatch s) c (hv.lt _ hmem) (hv.lt_uintMax _ hmem).le
  exact ⟨c.toJob, _, hperm.symm, hpid, hnodes⟩

/-- The multi-level feedback queues keep their books. -/
def books (sliceLength : Level → Nat) : Books (scheduler sliceLength) where
  contents s := (State.nodes s).map QuantumProcess.toJob
  Ok _ := True
  init_ok := trivial
  init_contents := rfl
  add_ok _ _ _ _ := trivial
  add_contents s process := (addToReadyQueue_nodes s process).map QuantumProcess.toJob
  idle s _ hnil := ⟨s, congrArg some
    (getNextScheduledProcess_of_nil sliceLength (List.map_eq_nil_iff.mp hnil)), trivial, hnil⟩
  serve s _ hv hne := by
    obtain ⟨c, rest, hperm, hpid, hnodes⟩ :=
      getNextScheduledProcess_serve sliceLength hv fun h => hne (by rw [h]; rfl)
    exact ⟨c, rest, _, hperm, congrArg some (Prod.ext hpid rfl), trivial, hnodes⟩

end Mlfq

end Cosc240
