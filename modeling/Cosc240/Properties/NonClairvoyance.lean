import Cosc240.Properties.FileOrder
import Cosc240.Simulator.NonClairvoyant

/-!
# The schedule does not depend on the work that is left

Four of the schedulers are non-clairvoyant. For `fcfs.c` the test in the loop of
`get_next_scheduled_process` reads the processing time as well (fcfs.c:107–136), but it always
succeeds for the first node. `rr.c` serves its first node and rotates by `quantum_used`
(rr.c:118–157), and `constant.c` and `exponential.c` go by levels and `quantum_used`
(constant.c:140–196, exponential.c:137–194). `custom.c` is left out: its scores are computed from
processing times (custom.c:286–326).

- `Fcfs.nonClairvoyant`, `Rr.nonClairvoyant`, `Mlfq.nonClairvoyant`: the instances of
  `NonClairvoyant`. In each of them `nextErased` is the next state without processing times, by the
  outcome of the completion test, and `next_erase` says that it is what a call leaves.

Main result:

- `non_clairvoyance`: on tables with the same pids and arrival times, `run_simulation` returns the
  same pids up to a time step, if every process whose processing times differ has had less than
  either of them before it. The witness is the example of readme.md with half the work for its first
  process.
-/

namespace Cosc240

open Lib

/-! ## `fcfs.c` -/

namespace Fcfs

/-- The list that is left, by the outcome of the completion test. -/
def nextErased (processList : List FcfsProcess) (done : Bool) : List FcfsProcess :=
  match processList with
  | [] => []
  | next :: rest =>
    if done then rest else { next with processedTime := next.processedTime + 1 } :: rest

/-- The pid of the first node. -/
def firstPid : List FcfsProcess → Nat
  | [] => 0
  | next :: _ => next.pid

theorem next_erase (processList : List FcfsProcess) (hv : ValidJobs processList) :
    (getNextScheduledProcess processList).1 = firstPid (processList.map Job.erase) ∧
      (getNextScheduledProcess processList).2.map Job.erase =
        nextErased (processList.map Job.erase)
          (books.completes processList (getNextScheduledProcess processList).1) := by
  cases processList with
  | nil => exact ⟨rfl, rfl⟩
  | cons next rest =>
    have hmem : next ∈ books.contents (next :: rest) := List.mem_cons_self
    rw [getNextScheduledProcess_cons (hv.lt next hmem) (hv.lt_uintMax next hmem).le]
    refine ⟨rfl, ?_⟩
    dsimp only
    rw [books.completes_of_mem hv hmem, Job.served]
    by_cases hdone : next.processedTime + 1 = next.processingTime
    · rw [if_pos hdone, decide_eq_true hdone]
      rfl
    · rw [if_neg hdone, decide_eq_false hdone]
      rfl

/-- `fcfs.c` serves its first node, whatever that still needs. -/
def nonClairvoyant : NonClairvoyant books where
  erase := List.map Job.erase
  pid := firstPid
  next := nextErased
  add_erase s p :=
    map_skipInsert Job.arrivalTime Job.pid _ _ Job.erase (fun _ => rfl) (fun _ => rfl) p.job s
  add_comm := add_comm
  next_erase s p s' hv hnext := by
    have h := next_erase s hv
    rw [show getNextScheduledProcess s = (p, s') from Option.some.inj hnext] at h
    exact h

end Fcfs

/-! ## `rr.c` -/

namespace QuantumProcess

/-- The node, without its processing time. -/
def erase (p : QuantumProcess) : QuantumProcess := { p with processingTime := 0 }

/-- Whether a process is complete after a tick is the only question that needs its length. -/
theorem complete_iff {p : QuantumProcess} (hlt : p.processedTime < p.processingTime)
    (hle : p.processingTime ≤ uintMax) :
    p.execute.processedTime = p.execute.processingTime ↔
      p.processedTime + 1 = p.processingTime := by
  rw [execute, incr_of_lt hlt hle]

end QuantumProcess

namespace Rr

/-- The list that is left, by the outcome of the completion test. -/
def nextErased (processList : List RrProcess) (done : Bool) : List RrProcess :=
  match processList with
  | [] => []
  | current :: rest =>
    if done then rest
    else if current.execute.quantumUsed = quantum then rest ++ [current.execute]
    else current.execute :: rest

/-- A process that is not complete goes to the back when its quantum is used up, and on
otherwise. -/
theorem nextErased_false (current : RrProcess) (rest : List RrProcess) :
    nextErased (current :: rest) false =
      if current.execute.quantumUsed = quantum then rest ++ [current.execute]
      else current.execute :: rest := rfl

/-- The pid of the first node. -/
def firstPid : List RrProcess → Nat
  | [] => 0
  | current :: _ => current.pid

theorem next_erase (processList : List RrProcess)
    (hv : ValidJobs (processList.map QuantumProcess.toJob)) :
    (getNextScheduledProcess processList).1 = firstPid (processList.map QuantumProcess.erase) ∧
      (getNextScheduledProcess processList).2.map QuantumProcess.erase =
        nextErased (processList.map QuantumProcess.erase)
          (books.completes processList (getNextScheduledProcess processList).1) := by
  cases processList with
  | nil => exact ⟨rfl, rfl⟩
  | cons current rest =>
    have hmem : current.toJob ∈ books.contents (current :: rest) := List.mem_cons_self
    have hiff := QuantumProcess.complete_iff (hv.lt _ hmem) (hv.lt_uintMax _ hmem).le
    have htest := books.completes_of_mem (s := current :: rest) hv hmem
    have herase : (current :: rest).map QuantumProcess.erase =
      current.erase :: rest.map QuantumProcess.erase := rfl
    rw [getNextScheduledProcess]
    -- only this test reads the processing time
    by_cases hdone : current.execute.processedTime = current.execute.processingTime
    · rw [decide_eq_true (hiff.mp hdone)] at htest
      rw [if_pos hdone]
      refine ⟨rfl, ?_⟩
      dsimp only
      rw [QuantumProcess.execute_pid, htest]
      rfl
    · rw [decide_eq_false fun h => hdone (hiff.mpr h)] at htest
      rw [if_neg hdone]
      -- `quantum_used` is not erased
      by_cases hquantum : current.execute.quantumUsed = quantum
      · have hquantum' : current.erase.execute.quantumUsed = quantum := hquantum
        rw [if_pos hquantum]
        refine ⟨rfl, ?_⟩
        dsimp only
        rw [QuantumProcess.execute_pid, htest, List.map_append, herase,
          nextErased_false, if_pos hquantum']
        rfl
      · have hquantum' : ¬ current.erase.execute.quantumUsed = quantum := hquantum
        rw [if_neg hquantum]
        refine ⟨rfl, ?_⟩
        dsimp only
        rw [QuantumProcess.execute_pid, htest, herase, nextErased_false,
          if_neg hquantum']
        rfl

/-- `rr.c` serves its first node, and rotates by `quantum_used`. -/
def nonClairvoyant : NonClairvoyant books where
  erase := List.map QuantumProcess.erase
  pid := firstPid
  next := nextErased
  add_erase s p :=
    map_skipInsert (fun p : QuantumProcess => p.arrivalTime) (fun p => p.pid) _ _
      QuantumProcess.erase (fun _ => rfl) (fun _ => rfl) (newQuantumProcess p) s
  add_comm := add_comm
  next_erase s p s' hv hnext := by
    have h := next_erase s hv
    rw [show getNextScheduledProcess s = (p, s') from Option.some.inj hnext] at h
    exact h

end Rr

/-! ## `constant.c` and `exponential.c` -/

namespace Mlfq

/-- The globals, without processing times. -/
def State.erase (s : State) : State :=
  { priorityQueues := fun k => (s.priorityQueues k).map QuantumProcess.erase
    current := s.current.map QuantumProcess.erase
    priorityLevel := s.priorityLevel }

theorem map_update (q : Level → List QuantumProcess) (k : Level) (l : List QuantumProcess) :
    (fun k' => (Function.update q k l k').map QuantumProcess.erase) =
      Function.update (fun k' => (q k').map QuantumProcess.erase) k
        (l.map QuantumProcess.erase) := by
  funext k'
  exact Function.apply_update (fun _ => List.map QuantumProcess.erase) q k l k'

/-- Arrivals do not look at the length. -/
theorem addToReadyQueue_erase (s : State) (p : ProcessInitial) :
    (addToReadyQueue s p).erase = addToReadyQueue s.erase p.erase := by
  have hmap := map_skipInsert (fun p : QuantumProcess => p.arrivalTime) (fun p => p.pid)
    (fun p : QuantumProcess => p.arrivalTime) (fun p => p.pid)
    QuantumProcess.erase (fun _ => rfl) (fun _ => rfl) (newQuantumProcess p) (s.priorityQueues 0)
  rw [State.erase, addToReadyQueue, map_update, hmap]
  rfl

/-- Which process is taken does not depend on processing times. -/
theorem dispatch_erase (s : State) : dispatch s.erase = (dispatch s).erase := by
  cases hc : s.current with
  | some c => simp [dispatch, State.erase, hc]
  | none =>
    have hfind : (List.finRange 4).find? (fun i => !(s.erase.priorityQueues i).isEmpty) =
        (List.finRange 4).find? fun i => !(s.priorityQueues i).isEmpty := by
      simp [State.erase]
    have hc' : s.erase.current = none := by rw [State.erase, hc]; rfl
    rw [dispatch, dispatch, hc, hc']
    dsimp only
    rw [hfind]
    cases (List.finRange 4).find? (fun i => !(s.priorityQueues i).isEmpty) with
    | none => rfl
    | some i =>
      dsimp only
      rw [State.erase, State.erase]
      dsimp only
      rw [map_update, List.map_tail, List.head?_map]

/-- The globals that are left, by the outcome of the completion test. -/
def nextErased (sliceLength : Level → Nat) (s : State) (done : Bool) : State :=
  let s := dispatch s
  match s.current with
  | none => s
  | some current =>
    let current := current.execute
    if done then { s with current := none }
    else if current.quantumUsed = sliceLength s.priorityLevel then
      let level := nextLevel s.priorityLevel
      { s with
        priorityQueues := Function.update s.priorityQueues level
          (s.priorityQueues level ++ [{ current with quantumUsed := 0 }])
        current := none }
    else { s with current := some current }

/-- The pid of the process that is current after the dispatch. -/
def currentPid (s : State) : Nat :=
  match (dispatch s).current with
  | none => 0
  | some current => current.pid

/-- The rest of the time step, by the outcome of the completion test. -/
theorem execute_erase (sliceLength : Level → Nat) {s : State} {c : QuantumProcess}
    (hlt : c.processedTime < c.processingTime) (hle : c.processingTime ≤ uintMax)
    (hs : (dispatch s).current = some c) :
    (execute sliceLength (dispatch s) c).2.erase = nextErased sliceLength s.erase
      (decide (c.processedTime + 1 = c.processingTime)) := by
  have hiff := QuantumProcess.complete_iff hlt hle
  have hc : (dispatch s.erase).current = some c.erase := by
    rw [dispatch_erase, State.erase, hs]
    rfl
  rw [nextErased]
  dsimp only
  rw [hc, execute]
  dsimp only
  -- only this test reads the processing time
  by_cases hdone : c.execute.processedTime = c.execute.processingTime
  · rw [if_pos hdone, decide_eq_true (hiff.mp hdone), if_pos rfl, dispatch_erase]
    rfl
  · rw [if_neg hdone, decide_eq_false fun h => hdone (hiff.mpr h), if_neg Bool.false_ne_true,
      dispatch_erase]
    by_cases hquantum : c.execute.quantumUsed = sliceLength (dispatch s).priorityLevel
    · have hquantum' : c.erase.execute.quantumUsed =
          sliceLength (dispatch s).erase.priorityLevel := hquantum
      rw [if_pos hquantum, if_pos hquantum', State.erase]
      dsimp only
      rw [map_update, List.map_append]
      rfl
    · have hquantum' : ¬ c.erase.execute.quantumUsed =
          sliceLength (dispatch s).erase.priorityLevel := hquantum
      rw [if_neg hquantum, if_neg hquantum']
      rfl

theorem next_erase (sliceLength : Level → Nat) (s : State)
    (hv : ValidJobs (s.nodes.map QuantumProcess.toJob)) :
    (getNextScheduledProcess sliceLength s).1 = currentPid s.erase ∧
      (getNextScheduledProcess sliceLength s).2.erase = nextErased sliceLength s.erase
        ((books sliceLength).completes s (getNextScheduledProcess sliceLength s).1) := by
  cases hc : (dispatch s).current with
  | none =>
    have hc' : (dispatch s.erase).current = none := by
      rw [dispatch_erase, State.erase, hc]
      rfl
    rw [getNextScheduledProcess, currentPid, nextErased]
    dsimp only
    rw [hc, hc', dispatch_erase]
    exact ⟨rfl, rfl⟩
  | some c =>
    have hc' : (dispatch s.erase).current = some c.erase := by
      rw [dispatch_erase, State.erase, hc]
      rfl
    have hmem : c.toJob ∈ (books sliceLength).contents s := mem_of_dispatch hc
    have hpid : (getNextScheduledProcess sliceLength s).1 = c.pid := by
      rw [getNextScheduledProcess_of_current sliceLength hc]
      exact (execute_nodes sliceLength (dispatch s) c (hv.lt _ hmem) (hv.lt_uintMax _ hmem).le).1
    have htest := (books sliceLength).completes_of_mem hv hmem
    rw [hpid, currentPid, hc', getNextScheduledProcess_of_current sliceLength hc,
      execute_erase sliceLength (hv.lt _ hmem) (hv.lt_uintMax _ hmem).le hc]
    exact ⟨rfl, congrArg _ htest.symm⟩

/-- The multi-level feedback queues go by levels and `quantum_used`. -/
def nonClairvoyant (sliceLength : Level → Nat) : NonClairvoyant (books sliceLength) where
  erase := State.erase
  pid := currentPid
  next := nextErased sliceLength
  add_erase := addToReadyQueue_erase
  add_comm := add_comm
  next_erase s p s' hv hnext := by
    have h := next_erase sliceLength s hv
    rw [show getNextScheduledProcess sliceLength s = (p, s') from Option.some.inj hnext] at h
    exact h

end Mlfq

/-- **Non-clairvoyance** of `fcfs.c`, `rr.c`, `constant.c` and `exponential.c`. On
tables with the same pids and arrival times, `run_simulation` returns the same
pids up to time step `t`, if every process whose processing times differ has had
less than either of them in the time steps before `t`. -/
theorem non_clairvoyance (S : Scheduler)
    (hS : S ∈ [Fcfs.scheduler, Rr.scheduler, Constant.scheduler, Exponential.scheduler])
    (T T' : Table) (harr : T.SameArrivals T') (t : Nat) (timeBound timeBound' : UInt32)
    (ht : t < timeBound.toNat) (ht' : t < timeBound'.toNat)
    (hundecided : Undecided T T' ((returned S T.start timeBound).take t)) :
    ∀ i ≤ t, (returned S T.start timeBound)[i]? = (returned S T'.start timeBound')[i]? := by
  have hsame : SameOn 0 (t + 1) (returned S T.start timeBound)
      (returned S T'.start timeBound') := by
    simp only [List.mem_cons, List.not_mem_nil, or_false] at hS
    rcases hS with rfl | rfl | rfl | rfl
    · exact Fcfs.nonClairvoyant.sameOn harr ht ht' hundecided
    · exact Rr.nonClairvoyant.sameOn harr ht ht' hundecided
    · exact (Mlfq.nonClairvoyant Constant.sliceLength).sameOn harr ht ht' hundecided
    · exact (Mlfq.nonClairvoyant Exponential.sliceLength).sameOn harr ht ht' hundecided
  exact fun i hi => hsame i (Nat.zero_le i) (Nat.lt_succ_of_le hi)

/-- The example of `readme.md`, with half the work for its first process. -/
def readmeTableHalved : Table where
  processes := [⟨1, 5, 0⟩, ⟨2, 1, 2⟩, ⟨3, 2, 6⟩]
  nonempty := by decide
  pids_nodup := by decide
  pid_pos := by decide
  pid_lt := by decide
  arrivalTime_lt := by decide
  processingTime_pos := by decide
  processingTime_lt := by decide

/-- Under `constant.c` process 1 has had 4 of its 10 or 5 units by time step 5. -/
theorem non_clairvoyance_readme :
    (returned Constant.scheduler readmeTable.start 6)[5]? =
      (returned Constant.scheduler readmeTableHalved.start 1000000)[5]? := by
  have hundecided : Undecided readmeTable readmeTableHalved
      ((returned Constant.scheduler readmeTable.start 6).take 5) := by
    unfold Undecided
    decide
  exact non_clairvoyance Constant.scheduler (by simp) readmeTable readmeTableHalved
    (List.Perm.refl _) 5 6 1000000 (by decide) (by decide) hundecided 5 (Nat.le_refl 5)

end Cosc240
