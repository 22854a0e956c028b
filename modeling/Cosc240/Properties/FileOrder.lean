import Cosc240.Properties.Makespan

/-!
# The order of the lines does not matter

`run_simulation` hands the arrivals of a time step to the scheduler in the order of the table
(simulator.c:183–187), which is that of the lines of the file. For four of the schedulers the state
itself is a view in which these commute: adding two processes in either order gives the same
lists, since each `add_to_ready_queue` orders by arrival time and then by pid (fcfs.c:69–97,
rr.c:71–103, constant.c:86–126, exponential.c:85–125). The view of `custom.c` leaves out the list of
histories, which does come out in a different order (custom.c:195–242).

- `Fcfs.add_comm`, `Rr.add_comm`, `Mlfq.add_comm`: two arrivals with one arrival time commute.
- `Algorithm.oblivious`: no scheduler sees the order of the arrivals of one time step.

Main result:

- `run_perm`: on a permuted table `run_simulation` returns the same value, prints the same lines,
  and leaves the same rows, permuted. In `run_perm_crowded` two processes that arrive together have
  changed places.
-/

namespace Cosc240

open Lib

theorem Fcfs.add_comm (s : List FcfsProcess) (p q : ProcessInitial)
    (harr : p.arrivalTime = q.arrivalTime) (hpid : p.pid ≠ q.pid) :
    addToReadyQueue (addToReadyQueue s p) q = addToReadyQueue (addToReadyQueue s q) p :=
  skipInsert_comm (f := Job.arrivalTime) (g := Job.pid) harr.symm hpid.symm s

theorem Rr.add_comm (s : List QuantumProcess) (p q : ProcessInitial)
    (harr : p.arrivalTime = q.arrivalTime) (hpid : p.pid ≠ q.pid) :
    addToReadyQueue (addToReadyQueue s p) q = addToReadyQueue (addToReadyQueue s q) p :=
  skipInsert_comm (f := fun p : QuantumProcess => p.arrivalTime) (g := fun p => p.pid)
    (x := newQuantumProcess q) (y := newQuantumProcess p) harr.symm hpid.symm s

theorem Mlfq.add_comm (s : State) (p q : ProcessInitial)
    (harr : p.arrivalTime = q.arrivalTime) (hpid : p.pid ≠ q.pid) :
    addToReadyQueue (addToReadyQueue s p) q = addToReadyQueue (addToReadyQueue s q) p := by
  have hcomm := Rr.add_comm (s.priorityQueues 0) p q harr hpid
  simp only [addToReadyQueue, Function.update_self, Function.update_idem]
  exact congrArg (fun l => { s with priorityQueues := Function.update s.priorityQueues 0 l }) hcomm

/-- No scheduler sees the order of the arrivals of one time step. -/
def Algorithm.oblivious (D : Type) [DoubleArith D] : (a : Algorithm) → Oblivious (a.books D)
  | fcfs => .ofState Fcfs.books Fcfs.add_comm
  | rr => .ofState Rr.books Rr.add_comm
  | constant => .ofState (Mlfq.books Constant.sliceLength) Mlfq.add_comm
  | exponential => .ofState (Mlfq.books Exponential.sliceLength) Mlfq.add_comm
  | custom => Custom.oblivious D

/-- **File-order independence.** On a permuted table `run_simulation` returns
the same value, prints the same lines, and leaves the same rows, permuted. -/
theorem run_perm (D : Type) [DoubleArith D] (a : Algorithm) (T T' : Table)
    (hperm : T.processes.Perm T'.processes) (timeBound : UInt32) :
    ∃ result s s', runSimulation (a.scheduler D) T.start timeBound = some (result, s) ∧
      runSimulation (a.scheduler D) T'.start timeBound = some (result, s') ∧
      s.trace = s'.trace ∧ s.output = s'.output ∧ s.processes.Perm s'.processes ∧
      ∀ p ∈ s.processes, ∀ p' ∈ s'.processes, p.initial.pid = p'.initial.pid →
        p.processedTime = p'.processedTime ∧ p.endTime = p'.endTime := by
  have hstart : Oblivious.Related (a.oblivious D) (Sim.start (a.scheduler D) T.start)
      (Sim.start (a.scheduler D) T'.start) := ⟨hperm.map _, rfl, rfl⟩
  obtain ⟨result, s, s', hrun, hrun', hrel⟩ := hstart.runFrom timeBound.toNat
    ((a.books D).agree_start T) ((a.books D).agree_start T')
  refine ⟨result, s, s', hrun, hrun', ?_, hrel.output, hrel.processes, ?_⟩
  · rw [Sim.trace, hrel.output, Sim.trace]
  · intro p hp p' hp' hpid
    obtain ⟨σ, s₁, hrun₁, -, hσ, -⟩ := (a.books D).runSimulation_makespan T timeBound
    have hs : s₁ = s := by
      have heq := hrun₁.symm.trans hrun
      rw [Option.some.injEq, Prod.mk.injEq] at heq
      exact heq.2
    subst hs
    rw [eq_of_pid_eq hσ.initial hp (hrel.processes.mem_iff.mpr hp') hpid]
    exact ⟨rfl, rfl⟩

/-- The crowded table with its lines in another order, those of the two processes
that arrive together exchanged. -/
def crowdedTablePermuted : Table where
  processes := [⟨4, 2, 11⟩, ⟨2, 4, 0⟩, ⟨3, 7, 1⟩, ⟨1, 9, 0⟩]
  nonempty := by decide
  pids_nodup := by decide
  pid_pos := by decide
  pid_lt := by decide
  arrivalTime_lt := by decide
  processingTime_pos := by decide
  processingTime_lt := by decide

theorem run_perm_crowded :
    ∃ result s s', runSimulation (Custom.scheduler ℚ) crowdedTable.start 1000000 =
        some (result, s) ∧
      runSimulation (Custom.scheduler ℚ) crowdedTablePermuted.start 1000000 = some (result, s') ∧
      s.trace = s'.trace ∧ s.processes.Perm s'.processes := by
  obtain ⟨result, s, s', hrun, hrun', htrace, -, hperm, -⟩ :=
    run_perm ℚ .custom crowdedTable crowdedTablePermuted (by decide) 1000000
  exact ⟨result, s, s', hrun, hrun', htrace, hperm⟩

end Cosc240
