import Cosc240.Simulator.Books

/-!
# A scheduler in memory

`Scheduler.addToReadyQueue` always has a result. A `scheduler.c` that goes through pointers
does not: a `Program` can fault in both functions, and once it has, so has the run.

- `Program`: the memory, and the two functions with results that can be missing.
- `Program.scheduler`: what the simulator is linked with. There is no memory once the program has
  faulted, and `Program.loaded` is the state in which it has not.
- `Implements P B bound`: the program follows a scheduler that keeps its books. A relation between
  the memory and the state of the scheduler holds at the start and is kept by the two calls, as long
  as no more than `bound` processes are in the queues.

Main results:

- `Implements.tick`: one time step of `run_simulation` with both.
- `Implements.reached`: in every state that a run of the program reaches it has not faulted, and the
  run of the scheduler reaches that state.
- `Implements.runSimulation_eq`: `run_simulation` (simulator.c:177–221) does the same with both, the
  value, the table and the output, on tables with at most `bound` processes.
-/

namespace Cosc240

/-- A `scheduler.c` whose state is in memory. -/
structure Program where
  Memory : Type
  init : Memory
  addToReadyQueue : Memory → ProcessInitial → Option Memory
  getNextScheduledProcess : Memory → Option (Nat × Memory)

/-- What the simulator is linked with. There is no memory once the program has faulted. -/
def Program.scheduler (P : Program) : Scheduler where
  State := Option P.Memory
  init := some P.init
  addToReadyQueue m process := m.bind fun m => P.addToReadyQueue m process
  getNextScheduledProcess m :=
    m.bind fun m => (P.getNextScheduledProcess m).map fun (pid, m) => (pid, some m)

/-- The program has not faulted, and this is its memory. -/
def Program.loaded (P : Program) (m : P.Memory) : P.scheduler.State := some m

/-- The program follows the scheduler, with up to `bound` processes. -/
structure Implements (P : Program) {S : Scheduler} (B : Books S) (bound : Nat) where
  Rel : P.Memory → S.State → Prop
  init : Rel P.init S.init
  add : ∀ m s p, Rel m s → B.Ok s → ValidJobs (p.job :: B.contents s) →
    (B.contents s).length < bound →
    ∃ m', P.addToReadyQueue m p = some m' ∧ Rel m' (S.addToReadyQueue s p)
  next : ∀ m s pid s', Rel m s → B.Ok s → ValidJobs (B.contents s) →
    (B.contents s).length ≤ bound → S.getNextScheduledProcess s = some (pid, s') →
    ∃ m', P.getNextScheduledProcess m = some (pid, m') ∧ Rel m' s'

namespace Implements

variable {P : Program} {S : Scheduler} {B : Books S} {bound : Nat} (I : Implements P B bound)
  {T : Table} {timeBound : UInt32}

/-- The run of the program, where the run of the scheduler is in `s`. -/
def withMemory (s : Sim S) (m : P.Memory) : Sim P.scheduler :=
  { processes := s.processes, sched := P.loaded m, output := s.output }

/-- The arrivals of a time step. -/
theorem foldl_add (ps : List ProcessInitial) {m : P.Memory} {s : S.State} (hrel : I.Rel m s)
    (hok : B.Ok s) (hv : ValidJobs (ps.map ProcessInitial.job ++ B.contents s))
    (hbound : ps.length + (B.contents s).length ≤ bound) :
    ∃ m', ps.foldl P.scheduler.addToReadyQueue (P.loaded m) = P.loaded m' ∧
      I.Rel m' (ps.foldl S.addToReadyQueue s) := by
  induction ps generalizing m s with
  | nil => exact ⟨m, rfl, hrel⟩
  | cons p ps ih =>
    rw [List.length_cons] at hbound
    have hp : ValidJobs (p.job :: B.contents s) :=
      hv.sublist ((List.sublist_append_right _ _).cons_cons _)
    have hmove : (ps.map ProcessInitial.job ++ B.contents (S.addToReadyQueue s p)).Perm
        (p.job :: ps.map ProcessInitial.job ++ B.contents s) :=
      ((B.add_contents s p).append_left _).trans List.perm_middle
    have hlength := (B.add_contents s p).length_eq
    rw [List.length_cons] at hlength
    obtain ⟨m₁, hadd, hrel₁⟩ := I.add m s p hrel hok hp (by omega)
    obtain ⟨m', hfold, hrel'⟩ :=
      ih hrel₁ (B.add_ok s p hok hp) (hv.perm hmove.symm) (by omega)
    refine ⟨m', ?_, hrel'⟩
    have hadd' : P.scheduler.addToReadyQueue (P.loaded m) p = P.loaded m₁ := hadd
    rw [List.foldl_cons, hadd', hfold]

include I in
/-- **One time step.** -/
theorem tick {t : Nat} {s s₁ : Sim S} {m : P.Memory} (hagree : Agree B T t s)
    (hbound : T.processes.length ≤ bound) (hrel : I.Rel m s.sched)
    (hstep : s.tick t = some (.next s₁)) (hrun : stillRunning s.processes = true) :
    ∃ m₁, (withMemory s m).tick t = some (.next (withMemory s₁ m₁)) ∧ I.Rel m₁ s₁.sched := by
  obtain ⟨σ, -, hσ, -⟩ := hagree.schedule
  -- no more than all processes of the table are in the queues
  have hlength : (pendingJobs t s.processes).length ≤ bound := by
    have hall : s.processes.length = T.processes.length := by
      rw [← hσ.initial, List.length_map]
    rw [pendingJobs, List.length_map]
    exact (List.length_filter_le _ _).trans (hall ▸ hbound)
  have harrivals := (B.arrivals_perm hagree).length_eq
  rw [List.length_append, List.length_map] at harrivals
  obtain ⟨m₀, hfold, hrel₀⟩ := I.foldl_add (arrivalsAt s.processes t) hrel hagree.ok
    (B.valid_arrivals hagree) (harrivals ▸ hlength)
  rw [← addArrivals_eq_foldl] at hrel₀
  obtain ⟨hok, hperm⟩ := B.agree_arrivals hagree
  obtain ⟨pid, sched, hnext, hd, htick, -⟩ := B.tick_agree hagree hrun
  rw [hstep] at htick
  cases htick
  obtain ⟨m₁, hnext₁, hrel₁⟩ := I.next m₀ _ pid sched hrel₀ hok (B.valid_addArrivals hagree)
    (hperm.length_eq ▸ hlength) hnext
  refine ⟨m₁, ?_, hrel₁⟩
  have hnext' : P.scheduler.getNextScheduledProcess
      (addArrivals P.scheduler s.processes t (P.loaded m)) = some (pid, P.loaded m₁) := by
    rw [addArrivals_eq_foldl, hfold]
    show (P.getNextScheduledProcess m₀).map _ = _
    rw [hnext₁]
    rfl
  cases hd with
  | idle _ =>
    rw [map_serve_zero hσ.initial]
    exact tick_of_zero (s := withMemory s m) hnext'
  | serve hp hpend =>
    exact tick_of_pid (s := withMemory s m) hσ.initial hp hpend.2 hnext'

/-- **The program follows whole runs**: in every state that its run reaches it has not
faulted, and the run of the scheduler reaches that state. -/
theorem reached (hbound : T.processes.length ≤ bound) {t : Nat} {s' : Sim P.scheduler}
    (h : Reached P.scheduler T.start timeBound t s') :
    ∃ s m, Reached S T.start timeBound t s ∧ s' = withMemory s m ∧ I.Rel m s.sched := by
  induction h with
  | start => exact ⟨Sim.start S T.start, P.init, .start, rfl, I.init⟩
  | @tick t s₁' s₂' _ hlt hrun hstep ih =>
    obtain ⟨s, m, hs, rfl, hrel⟩ := ih
    have hagree := B.agree_reached hs
    obtain ⟨pid, sched, -, -, htick, -⟩ := B.tick_agree hagree hrun
    obtain ⟨m₁, htick', hrel₁⟩ := I.tick hagree hbound hrel htick hrun
    rw [hstep] at htick'
    cases htick'
    exact ⟨_, m₁, .tick hs hlt hrun htick, rfl, hrel₁⟩

/-- From a common state on, both loops end in a common state. -/
theorem runFrom_eq (hbound : T.processes.length ≤ bound) (left : Nat) {t : Nat} {s : Sim S}
    {m : P.Memory} (hagree : Agree B T t s) (hrel : I.Rel m s.sched) :
    ∃ result s₁ m₁, runFrom left t s = some (result, s₁) ∧
      runFrom left t (withMemory s m) = some (result, withMemory s₁ m₁) ∧
      I.Rel m₁ s₁.sched := by
  induction left generalizing t s m with
  | zero => exact ⟨_, s, m, rfl, rfl, hrel⟩
  | succ left ih =>
    by_cases hrun : stillRunning s.processes = true
    · obtain ⟨pid, sched, -, -, htick, hagree₁⟩ := B.tick_agree hagree hrun
      obtain ⟨m₁, htick', hrel₁⟩ := I.tick hagree hbound hrel htick hrun
      obtain ⟨result, s₂, m₂, hfrom, hfrom', hrel₂⟩ := ih hagree₁ hrel₁
      refine ⟨result, s₂, m₂, ?_, ?_, hrel₂⟩
      · rw [runFrom, if_pos hrun, htick]
        exact hfrom
      · rw [runFrom, if_pos (show stillRunning (withMemory s m).processes = true from hrun),
          htick']
        exact hfrom'
    · refine ⟨!stillRunning s.processes, s, m, ?_, ?_, hrel⟩
      · rw [runFrom, if_neg hrun]
      · rw [runFrom,
          if_neg (show ¬ stillRunning (withMemory s m).processes = true from hrun)]
        rfl

/-- **`run_simulation` does the same with both**: the value, the table and the output. -/
theorem runSimulation_eq (T : Table) (timeBound : UInt32) (hbound : T.processes.length ≤ bound) :
    ∃ result s m, runSimulation S T.start timeBound = some (result, s) ∧
      runSimulation P.scheduler T.start timeBound = some (result, withMemory s m) ∧
      I.Rel m s.sched :=
  I.runFrom_eq hbound _ (B.agree_start T) I.init

end Implements

end Cosc240
