import Cosc240.Schedulers.Algorithms

/-!
# The simulator and the scheduler never disagree

Each scheduler keeps its own `processed_time` next to the simulator's (simulator.c:202, and the last
function of each scheduler). The invariant of the bookkeeping schedulers (`Books`, `Agree`) is read
off here for the five files: at every tick boundary the two copies are equal, every choice is
a process that is there to be run, and the two exits of `run_simulation` for a
misbehaving scheduler (simulator.c:196–200, 206–210) are never taken.

- `InStep`: what the lists of a scheduler and its `current` pointer hold at a tick boundary. These
  are exactly the processes that have arrived and are not complete, each of them once, with the
  simulator's `processed_time`.
- `Agree.inStep`: it follows from the invariant of the books.
- `Line.IsComplaint`: the lines that the two exits print.

Main result:

- `run_safe`: every reached state is `InStep`, each time step that follows returns 0 or a process
  that has arrived and is not complete and goes on to the next one, and the run neither faults nor
  complains. The witness `run_safe_crowded` is a state of `custom.c` with both of its queues in use.
-/

namespace Cosc240

variable (D : Type) [DoubleArith D]

/-- The lists of the scheduler and its `current` pointer at the tick boundary
before time step `t`. -/
structure InStep (a : Algorithm) (t : Nat) (s : Sim (a.scheduler D)) : Prop where
  /-- Exactly the processes that have arrived and are not complete are there,
  with the simulator's `processed_time`. -/
  contents : (a.contents D s.sched).Perm
    ((s.processes.filter fun p => p.initial.arrivalTime < t ∧
      p.processedTime < p.initial.processingTime).map ProcessStats.job)
  /-- Each of them occurs once. -/
  once : ((a.contents D s.sched).map Job.pid).Nodup
  lt : ∀ j ∈ a.contents D s.sched, j.processedTime < j.processingTime

theorem Agree.inStep {D : Type} [DoubleArith D] {a : Algorithm} {T : Table} {t : Nat}
    {s : Sim (a.scheduler D)}
    (h : Agree (a.books D) T t s) : InStep D a t s := by
  obtain ⟨σ, -, hσ, -⟩ := h.schedule
  have hcontents := h.books
  rw [a.books_contents D] at hcontents
  refine ⟨hcontents, ?_, fun j hj => ?_⟩
  · have hsub := List.filter_sublist (p := fun p : ProcessStats => p.initial.arrivalTime < t ∧
      p.processedTime < p.initial.processingTime) (l := s.processes)
    have hnodup := (pids_nodup hσ.initial).sublist (hsub.map fun p => p.initial.pid)
    rw [(hcontents.map Job.pid).nodup_iff, List.map_map]
    exact hnodup
  · obtain ⟨p, hp, rfl⟩ := List.mem_map.mp (hcontents.mem_iff.mp hj)
    exact (of_decide_eq_true (List.mem_filter.mp hp).2).2

/-- Lines of the two exits for a misbehaving scheduler. -/
def Line.IsComplaint : Line → Prop
  | .header => False
  | .step _ _ => False
  | .invalidPid _ => True
  | .tooLong _ => True

theorem not_isComplaint_of_schedule {σ : List Nat} {line : Line}
    (h : line ∈ Line.header :: σ.mapIdx Line.step) : ¬ line.IsComplaint := by
  rcases List.mem_cons.mp h with rfl | h
  · exact id
  · obtain ⟨i, -, rfl⟩ := List.mem_mapIdx.mp h
    exact id

/-- **Safety of the five schedulers.** In every state reached at a tick boundary
the two copies agree. Each time step that follows returns 0 or a process that
has arrived and is not complete, and goes on to the next one. The run neither
faults nor complains. -/
theorem run_safe (a : Algorithm) (T : Table) (timeBound : UInt32) :
    (∀ t s, Reached (a.scheduler D) T.start timeBound t s →
      InStep D a t s ∧
      (t < timeBound.toNat → stillRunning s.processes = true →
        ∃ pid sched s', (a.scheduler D).getNextScheduledProcess
            (addArrivals (a.scheduler D) s.processes t s.sched) = some (pid, sched) ∧
          (pid = 0 ∨ ∃ p ∈ s.processes, p.initial.pid = pid ∧ p.initial.arrivalTime ≤ t ∧
            p.processedTime < p.initial.processingTime) ∧
          s.tick t = some (.next s'))) ∧
    ∃ s, runSimulation (a.scheduler D) T.start timeBound =
        some (!stillRunning s.processes, s) ∧
      ∀ line ∈ s.output, ¬ line.IsComplaint := by
  constructor
  · intro t s hs
    have hagree := (a.books D).agree_reached hs
    refine ⟨hagree.inStep, fun _ hrun => ?_⟩
    obtain ⟨pid, sched, hnext, hd, htick, -⟩ := (a.books D).tick_agree hagree hrun
    refine ⟨pid, sched, _, hnext, ?_, htick⟩
    cases hd with
    | idle _ => exact Or.inl rfl
    | serve hp hpend => exact Or.inr ⟨_, hp, rfl, hpend⟩
  · obtain ⟨N, s, hrun, hs, -⟩ := (a.books D).runSimulation_eq T timeBound
    obtain ⟨σ, -, -, hout⟩ := ((a.books D).agree_reached hs).schedule
    refine ⟨s, hrun, fun line hline => ?_⟩
    rw [hout] at hline
    exact not_isComplaint_of_schedule hline

/-- `custom.c` on the crowded table, at the start of time step 12: all four
processes have arrived, the last of them into the fast queue, and one of them is
complete. -/
theorem run_safe_crowded :
    ∃ s, Reached (Custom.scheduler ℚ) crowdedTable.start 30 12 s ∧
      s.trace.map Prod.snd = [1, 1, 2, 2, 3, 3, 2, 2, 1, 1, 1, 1] ∧ InStep ℚ .custom 12 s ∧
      ∃ pid sched s', Custom.getNextScheduledProcess
          (addArrivals (Custom.scheduler ℚ) s.processes 12 s.sched) = some (pid, sched) ∧
        (pid = 0 ∨ ∃ p ∈ s.processes, p.initial.pid = pid ∧ p.initial.arrivalTime ≤ 12 ∧
          p.processedTime < p.initial.processingTime) ∧
        s.tick 12 = some (.next s') := by
  obtain ⟨s, h, htest⟩ := exists_reached (Custom.scheduler ℚ) crowdedTable.start 30 12
    (p := fun s => s.trace.map Prod.snd = [1, 1, 2, 2, 3, 3, 2, 2, 1, 1, 1, 1] ∧
      stillRunning s.processes = true) (by decide +kernel)
  obtain ⟨htrace, hrun⟩ := of_decide_eq_true htest
  obtain ⟨hstep, hnext⟩ := (run_safe ℚ .custom crowdedTable 30).1 12 s h
  exact ⟨s, h, htrace, hstep, hnext (by decide) hrun⟩

end Cosc240
