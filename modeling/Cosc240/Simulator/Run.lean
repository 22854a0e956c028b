import Cosc240.Simulator.Basic

/-!
# `run_simulation`

The simulator is linked with one `scheduler.c`, which is a state machine behind
two functions (simulator.c:27–42). `run_simulation` (simulator.c:177–221) is a loop over
time steps; each of them hands the arrivals to the scheduler, asks it for a pid, gives that
process a unit of time and prints a line.

- `Scheduler`: the globals of a `scheduler.c` and its two functions. It keeps its state between two
  calls, and neither prints nor exits itself.
- `Line`: the lines that `run_simulation` prints, with `Line.text` for their texts.
- `Sim.tick`: the body of the loop. Its two early exits are a `TickResult.stop`, and a result of
  `none` stands for undefined behaviour: the scheduler dereferences `NULL` or freed memory, or the
  simulator indexes its table out of bounds, which is what `get_pid_index` leads to for a pid that
  is not there (the test `index < 0` never succeeds).
- `runFrom` and `runSimulation`: the loop, and the whole function.
- `Reached S processes timeBound t s`: the states at the tick boundaries of a run. There is at most
  one for each `t` (`Reached.unique`), and `stateAt` computes it (`reached_iff_stateAt`).

Main results:

- `runSimulation_total`: if the body of the loop never stops and never faults, the loop runs until
  all work is done or time is up, and returns whether all work is done.
- `addArrivals_eq_foldl`: the arrivals of a time step as one list, in table order.
-/

namespace Cosc240

/-- A `scheduler.c`: its globals and the two functions the simulator calls. -/
structure Scheduler where
  State : Type
  init : State
  addToReadyQueue : State → ProcessInitial → State
  getNextScheduledProcess : State → Option (Nat × State)

/-! ## Output -/

/-- The lines `run_simulation` prints. -/
inductive Line where
  | header
  | step (time pid : Nat)
  | invalidPid (pid : Nat)
  | tooLong (pid : Nat)
  deriving DecidableEq, Repr

/-- `%d` applied to an `unsigned int`. -/
def formatD (n : Nat) : String :=
  if n ≤ intMax then toString n else "-" ++ toString (uintMax + 1 - n)

/-- The text of a line. -/
def Line.text : Line → String
  | .header => "Time\tPID\n"
  | .step time pid => formatD time ++ ":\t" ++ (if pid > 0 then formatD pid else "") ++ "\n"
  | .invalidPid pid => "Invalid pid " ++ formatD pid ++ "!\n"
  | .tooLong pid => "Process " ++ formatD pid ++ " scheduled for too long!\n"

/-- The `(time, pid)` pair of a line that reports a time step. -/
def Line.step? : Line → Option (Nat × Nat)
  | .step time pid => some (time, pid)
  | _ => none

/-! ## The loop -/

/-- The simulator and its scheduler between two calls. -/
structure Sim (S : Scheduler) where
  processes : List ProcessStats
  sched : S.State
  output : List Line

/-- How the body of the loop ends: it goes on to the next time step, or it
executes `return FALSE`. -/
inductive TickResult (S : Scheduler) where
  | next (s : Sim S)
  | stop (s : Sim S)

/-- The printed `(time, pid)` trace. -/
def Sim.trace {S : Scheduler} (s : Sim S) : List (Nat × Nat) :=
  s.output.filterMap Line.step?

/-- The arrivals at `time` go to the scheduler, in table order. -/
def addArrivals (S : Scheduler) (processes : List ProcessStats) (time : Nat)
    (sched : S.State) : S.State :=
  processes.foldl (fun sched p =>
    if p.initial.arrivalTime = time then S.addToReadyQueue sched p.initial else sched) sched

/-- The body of the loop of `run_simulation` at `time`. -/
def Sim.tick {S : Scheduler} (s : Sim S) (time : Nat) : Option (TickResult S) :=
  match S.getNextScheduledProcess (addArrivals S s.processes time s.sched) with
  | none => none
  | some (pid, sched) =>
    if pid > 0 then
      let index := getPidIndex pid s.processes
      -- `index` is unsigned, so this test never succeeds
      if index < 0 then
        some (.stop { s with sched, output := s.output ++ [.invalidPid pid] })
      else
        match s.processes[index]? with
        | none => none
        | some process =>
          let process := { process with processedTime := incr process.processedTime }
          if process.processedTime = process.initial.processingTime then
            some (.next { processes := s.processes.set index { process with endTime := time },
                          sched, output := s.output ++ [.step time pid] })
          else if process.processedTime > process.initial.processingTime then
            some (.stop { processes := s.processes.set index process,
                          sched, output := s.output ++ [.tooLong pid] })
          else
            some (.next { processes := s.processes.set index process,
                          sched, output := s.output ++ [.step time pid] })
    else
      some (.next { s with sched, output := s.output ++ [.step time pid] })

/-- The loop of `run_simulation` from `time` on, with `left` time steps to go
before `time_bound`, and the value it returns. -/
def runFrom {S : Scheduler} : (left time : Nat) → Sim S → Option (Bool × Sim S)
  | 0, _, s => some (!stillRunning s.processes, s)
  | left + 1, time, s =>
    if stillRunning s.processes then
      match s.tick time with
      | none => none
      | some (.stop s) => some (false, s)
      | some (.next s) => runFrom left (time + 1) s
    else
      some (!stillRunning s.processes, s)

/-- The state in which the loop starts. -/
def Sim.start (S : Scheduler) (processes : List ProcessStats) : Sim S :=
  { processes, sched := S.init, output := [.header] }

/-- `run_simulation`: the value it returns and the state it leaves. -/
def runSimulation (S : Scheduler) (processes : List ProcessStats) (timeBound : UInt32) :
    Option (Bool × Sim S) :=
  runFrom timeBound.toNat 0 (Sim.start S processes)

/-! ## States at tick boundaries -/

/-- `Reached S processes timeBound t s`: the loop gets to the test at the start
of time step `t`, in state `s`. -/
inductive Reached (S : Scheduler) (processes : List ProcessStats) (timeBound : UInt32) :
    Nat → Sim S → Prop
  | start : Reached S processes timeBound 0 (Sim.start S processes)
  | tick {t : Nat} {s s' : Sim S} (h : Reached S processes timeBound t s)
      (hbound : t < timeBound.toNat) (hrun : stillRunning s.processes = true)
      (hstep : s.tick t = some (.next s')) : Reached S processes timeBound (t + 1) s'

namespace Reached

variable {S : Scheduler} {processes : List ProcessStats} {timeBound : UInt32}

theorem le_timeBound {t : Nat} {s : Sim S} (h : Reached S processes timeBound t s) :
    t ≤ timeBound.toNat := by
  cases h with
  | start => exact Nat.zero_le _
  | tick _ hbound _ _ => exact hbound

/-- A run gets to each time step in one state only. -/
theorem unique {t : Nat} {s s' : Sim S} (h : Reached S processes timeBound t s)
    (h' : Reached S processes timeBound t s') : s = s' := by
  induction h generalizing s' with
  | start => cases h'; rfl
  | tick _ _ _ hstep ih =>
    cases h' with
    | tick h' _ _ hstep' =>
      rw [ih h', hstep'] at hstep
      cases hstep
      rfl

/-- A run that goes on after a time step had work to do then. -/
theorem stillRunning_of_lt {t t' : Nat} {s s' : Sim S} (h : Reached S processes timeBound t s)
    (h' : Reached S processes timeBound t' s') (hlt : t < t') :
    stillRunning s.processes = true := by
  induction h' with
  | start => exact absurd hlt (Nat.not_lt_zero t)
  | tick h' _ hrun _ ih =>
    rcases Nat.lt_succ_iff_lt_or_eq.mp hlt with hlt | rfl
    · exact ih hlt
    · exact h.unique h' ▸ hrun

end Reached

/-- The state at the start of time step `t`, if the loop gets there. -/
def stateAt (S : Scheduler) (processes : List ProcessStats) (timeBound : UInt32) :
    Nat → Option (Sim S)
  | 0 => some (Sim.start S processes)
  | t + 1 =>
    match stateAt S processes timeBound t with
    | none => none
    | some s =>
      if t < timeBound.toNat ∧ stillRunning s.processes = true then
        match s.tick t with
        | some (.next s') => some s'
        | _ => none
      else none

/-- The states at the tick boundaries can be computed. -/
theorem reached_iff_stateAt {S : Scheduler} {processes : List ProcessStats} {timeBound : UInt32}
    {t : Nat} {s : Sim S} :
    Reached S processes timeBound t s ↔ stateAt S processes timeBound t = some s := by
  constructor
  · intro h
    induction h with
    | start => rfl
    | tick _ hbound hrun hstep ih =>
      rw [stateAt, ih]
      dsimp only
      rw [if_pos ⟨hbound, hrun⟩, hstep]
  · intro h
    induction t generalizing s with
    | zero =>
      cases h
      exact .start
    | succ t ih =>
      rw [stateAt] at h
      cases hbefore : stateAt S processes timeBound t with
      | none =>
        rw [hbefore] at h
        cases h
      | some s₀ =>
        rw [hbefore] at h
        dsimp only at h
        split at h
        · next hgoes =>
          cases hstep : s₀.tick t with
          | none =>
            rw [hstep] at h
            cases h
          | some result =>
            rw [hstep] at h
            cases result with
            | stop s' => cases h
            | next s' =>
              cases h
              exact .tick (ih hbefore) hgoes.1 hgoes.2 hstep
        · cases h

/-- A state of a run is found by running: if the state at the start of time step
`t` passes a test, the loop gets to a state that passes it. -/
theorem exists_reached (S : Scheduler) (processes : List ProcessStats) (timeBound : UInt32)
    (t : Nat) {p : Sim S → Bool} (h : (stateAt S processes timeBound t).any p = true) :
    ∃ s, Reached S processes timeBound t s ∧ p s = true := by
  obtain ⟨s, hs, hp⟩ := (Option.any_eq_true p _).mp h
  exact ⟨s, reached_iff_stateAt.mpr hs, hp⟩

section Runs

variable {S : Scheduler} {processes : List ProcessStats} {timeBound : UInt32}

/-- If the body of the loop never stops and never faults, the loop runs until
all work is done or time is up, and returns whether all work is done. -/
theorem runFrom_total
    (hnext : ∀ t s, Reached S processes timeBound t s → t < timeBound.toNat →
      stillRunning s.processes = true → ∃ s', s.tick t = some (.next s')) :
    ∀ (left t : Nat) (s : Sim S), Reached S processes timeBound t s →
      t + left = timeBound.toNat →
      ∃ N s', runFrom left t s = some (!stillRunning s'.processes, s') ∧
        Reached S processes timeBound N s' ∧
        (stillRunning s'.processes = true → N = timeBound.toNat) := by
  intro left
  induction left with
  | zero =>
    intro t s hs ht
    exact ⟨t, s, rfl, hs, fun _ => ht⟩
  | succ left ih =>
    intro t s hs ht
    by_cases hrun : stillRunning s.processes = true
    · obtain ⟨s₁, hstep⟩ := hnext t s hs (by omega) hrun
      obtain ⟨N, s', hfrom, hreach, hend⟩ :=
        ih (t + 1) s₁ (.tick hs (by omega) hrun hstep) (by omega)
      refine ⟨N, s', ?_, hreach, hend⟩
      rw [runFrom, if_pos hrun, hstep]
      exact hfrom
    · refine ⟨t, s, ?_, hs, fun h => absurd h hrun⟩
      rw [runFrom, if_neg hrun]

/-- `runFrom_total` for the whole of `run_simulation`. -/
theorem runSimulation_total
    (hnext : ∀ t s, Reached S processes timeBound t s → t < timeBound.toNat →
      stillRunning s.processes = true → ∃ s', s.tick t = some (.next s')) :
    ∃ N s', runSimulation S processes timeBound = some (!stillRunning s'.processes, s') ∧
      Reached S processes timeBound N s' ∧
      (stillRunning s'.processes = true → N = timeBound.toNat) :=
  runFrom_total hnext _ 0 _ .start (Nat.zero_add _)

end Runs

/-! ## Arrivals -/

/-- The arrivals at one time step, as a list. -/
def arrivalsAt (processes : List ProcessStats) (time : Nat) : List ProcessInitial :=
  (processes.filter fun p => p.initial.arrivalTime = time).map ProcessStats.initial

theorem addArrivals_eq_foldl (S : Scheduler) (processes : List ProcessStats) (time : Nat)
    (sched : S.State) :
    addArrivals S processes time sched =
      (arrivalsAt processes time).foldl S.addToReadyQueue sched := by
  unfold addArrivals arrivalsAt
  induction processes generalizing sched with
  | nil => rfl
  | cons p processes ih =>
    rw [List.foldl_cons, ih, List.filter_cons]
    by_cases h : p.initial.arrivalTime = time <;> simp [h]

theorem mem_arrivalsAt {processes : List ProcessStats} {time : Nat} {p : ProcessInitial} :
    p ∈ arrivalsAt processes time ↔
      p ∈ processes.map ProcessStats.initial ∧ p.arrivalTime = time := by
  simp only [arrivalsAt, List.mem_map, List.mem_filter, decide_eq_true_eq]
  constructor
  · rintro ⟨q, ⟨hq, ht⟩, rfl⟩
    exact ⟨⟨q, hq, rfl⟩, ht⟩
  · rintro ⟨⟨q, hq, rfl⟩, ht⟩
    exact ⟨q, ⟨hq, ht⟩, rfl⟩

end Cosc240
