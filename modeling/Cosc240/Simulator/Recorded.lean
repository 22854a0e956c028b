import Cosc240.Simulator.AnyScheduler

/-!
# A record of the calls

`S.recorded` is the scheduler `S` with a list of the calls of `add_to_ready_queue`
next to its globals. It answers as `S` does, so that its runs are the runs of `S`, and a
statement about the calls that a scheduler has seen is a statement about its state.

- `Recorded`, `Scheduler.recorded`: the globals with the record, and the scheduler on them. Each
  call is recorded with its time step.
- `Recorded.forget` and `TickResult.forget`: a state without its record.
- `arrivalCalls`: the calls of the first `t` time steps, from the table alone.

Main results:

- `forget_tick` and `runSimulation_recorded`: the record does not change the body of the loop, nor
  the run (simulator.c:177–221).
- `Reached.record`: in every reached state the record is `arrivalCalls`.
- `arrivalCalls_perm`: each process that arrives before `t` is in the record once, with its arrival
  time, and nothing else is.
-/

namespace Cosc240

/-- The globals of a scheduler, with the calls of `add_to_ready_queue` so far: the
time step and the process. -/
structure Recorded (S : Scheduler) where
  state : S.State
  time : Nat
  calls : List (Nat × ProcessInitial)

namespace Recorded

variable {S : Scheduler}

/-- `add_to_ready_queue`, recorded. -/
def add (r : Recorded S) (process : ProcessInitial) : Recorded S :=
  { r with
    state := S.addToReadyQueue r.state process
    calls := r.calls ++ [(r.time, process)] }

/-- `get_next_scheduled_process`; the next calls are those of the next time step. -/
def next (r : Recorded S) : Option (Nat × Recorded S) :=
  (S.getNextScheduledProcess r.state).map fun (pid, state) =>
    (pid, { r with state, time := r.time + 1 })

theorem foldl_add (ps : List ProcessInitial) (r : Recorded S) :
    ps.foldl add r =
      { state := ps.foldl S.addToReadyQueue r.state, time := r.time,
        calls := r.calls ++ ps.map fun p => (r.time, p) } := by
  induction ps generalizing r with
  | nil => simp
  | cons p ps ih =>
    rw [List.foldl_cons, ih, List.foldl_cons, List.map_cons]
    simp [add]

end Recorded

/-- The scheduler with a record of its calls. -/
def Scheduler.recorded (S : Scheduler) : Scheduler where
  State := Recorded S
  init := ⟨S.init, 0, []⟩
  addToReadyQueue := Recorded.add
  getNextScheduledProcess := Recorded.next

variable {S : Scheduler}

namespace Sim

/-- The globals and the record. -/
def record (s : Sim S.recorded) : Recorded S := s.sched

/-- The state without the record. -/
def forget (s : Sim S.recorded) : Sim S :=
  { processes := s.processes, sched := s.record.state, output := s.output }

end Sim

def TickResult.forget : TickResult S.recorded → TickResult S
  | .next s => .next s.forget
  | .stop s => .stop s.forget

namespace Sim

/-- The call of time step `t` with its record. -/
theorem answer_recorded (s : Sim S.recorded) (t : Nat) :
    s.answer t = (s.forget.answer t).map fun (pid, state) =>
      (pid, { state, time := s.record.time + 1,
              calls := s.record.calls ++ (arrivalsAt s.processes t).map fun p =>
                (s.record.time, p) }) := by
  have hadd := (addArrivals_eq_foldl S.recorded s.processes t s.sched).trans
    (Recorded.foldl_add (arrivalsAt s.processes t) s.record)
  have hadd' := addArrivals_eq_foldl S s.processes t s.record.state
  refine (congrArg Recorded.next hadd).trans ?_
  rw [← hadd']
  rfl

/-- The body of the loop does not see the record. -/
theorem forget_tick (s : Sim S.recorded) (t : Nat) :
    s.forget.tick t = (s.tick t).map TickResult.forget := by
  have hanswer := s.answer_recorded t
  unfold answer at hanswer
  unfold tick
  rw [hanswer]
  generalize S.getNextScheduledProcess (addArrivals S s.forget.processes t s.forget.sched) = result
  have hrows : s.forget.processes = s.processes := rfl
  have houtput : s.forget.output = s.output := rfl
  rw [hrows, houtput]
  cases result with
  | none => rfl
  | some result =>
    obtain ⟨pid, sched⟩ := result
    dsimp only [Option.map_some]
    by_cases hpos : pid > 0
    · rw [if_pos hpos, if_pos hpos]
      -- the exit that is dead code
      rw [if_neg (Nat.not_lt_zero _), if_neg (Nat.not_lt_zero _)]
      cases s.processes[getPidIndex pid s.processes]? with
      | none => rfl
      | some process =>
        dsimp only
        by_cases hdone : incr process.processedTime = process.initial.processingTime
        · rw [if_pos hdone, if_pos hdone]
          rfl
        · rw [if_neg hdone, if_neg hdone]
          by_cases hlong : incr process.processedTime > process.initial.processingTime
          · rw [if_pos hlong, if_pos hlong]
            rfl
          · rw [if_neg hlong, if_neg hlong]
            rfl
    · rw [if_neg hpos, if_neg hpos]
      rfl

end Sim

theorem runFrom_forget (left t : Nat) (s : Sim S.recorded) :
    runFrom left t s.forget = (runFrom left t s).map fun (verdict, s) => (verdict, s.forget) := by
  induction left generalizing t s with
  | zero => rfl
  | succ left ih =>
    rw [runFrom, runFrom, s.forget_tick, show s.forget.processes = s.processes from rfl]
    by_cases hrun : stillRunning s.processes = true
    · rw [if_pos hrun, if_pos hrun]
      cases s.tick t with
      | none => rfl
      | some result =>
        cases result with
        | stop s' => rfl
        | next s' => exact ih (t + 1) s'
    · rw [if_neg hrun, if_neg hrun]
      rfl

/-- **The record does not change the run.** -/
theorem runSimulation_recorded (processes : List ProcessStats) (timeBound : UInt32) :
    runSimulation S processes timeBound =
      (runSimulation S.recorded processes timeBound).map fun (verdict, s) =>
        (verdict, s.forget) :=
  runFrom_forget _ 0 (Sim.start S.recorded processes)

/-! ## What is recorded -/

/-- The calls of the first `t` time steps. -/
def arrivalCalls (T : Table) (t : Nat) : List (Nat × ProcessInitial) :=
  (List.range t).flatMap fun u =>
    (T.processes.filter fun p => p.arrivalTime = u).map fun p => (u, p)

theorem arrivalCalls_succ (T : Table) (t : Nat) :
    arrivalCalls T (t + 1) = arrivalCalls T t ++
      (T.processes.filter fun p => p.arrivalTime = t).map fun p => (t, p) := by
  simp [arrivalCalls, List.range_succ]

theorem Reached.record {T : Table} {timeBound : UInt32} {t : Nat} {s : Sim S.recorded}
    (h : Reached S.recorded T.start timeBound t s) :
    s.record.time = t ∧ s.record.calls = arrivalCalls T t := by
  induction h with
  | start => exact ⟨rfl, rfl⟩
  | @tick t s s' h _ _ hstep ih =>
    obtain ⟨pid, hanswer⟩ := s.answer_of_tick h.length_le hstep
    have hrecorded := hanswer.symm.trans (s.answer_recorded t)
    obtain ⟨⟨pid', state⟩, -, hsched⟩ := Option.map_eq_some_iff.mp hrecorded.symm
    have hrecord : s'.record = _ := (congrArg Prod.snd hsched).symm
    rw [hrecord, ih.1, ih.2, arrivalCalls_succ, arrivalsAt, ← h.initial, List.filter_map]
    exact ⟨rfl, rfl⟩

/-- Each process that arrives before `t` is in the record once, with its arrival time. -/
theorem arrivalCalls_perm (T : Table) (t : Nat) :
    (arrivalCalls T t).Perm
      ((T.processes.filter fun p => p.arrivalTime < t).map fun p => (p.arrivalTime, p)) := by
  induction t with
  | zero => simp [arrivalCalls]
  | succ t ih =>
    have hnew : (T.processes.filter fun p => p.arrivalTime = t).map (fun p => (t, p)) =
        (T.processes.filter fun p => p.arrivalTime = t).map fun p => (p.arrivalTime, p) := by
      refine List.map_congr_left fun p hp => ?_
      rw [of_decide_eq_true (List.mem_filter.mp hp).2]
    -- who arrives before `t + 1` arrives before `t`, or at `t`
    have hsplit := List.filter_append_perm (fun p : ProcessInitial => p.arrivalTime < t)
      (T.processes.filter fun p => p.arrivalTime < t + 1)
    rw [List.filter_filter, List.filter_filter] at hsplit
    have hbefore : T.processes.filter (fun p => decide (p.arrivalTime < t) &&
        decide (p.arrivalTime < t + 1)) = T.processes.filter fun p => p.arrivalTime < t := by
      refine List.filter_congr fun p _ => ?_
      rw [← Bool.decide_and, decide_eq_decide]
      omega
    have hat : T.processes.filter (fun p => (!decide (p.arrivalTime < t)) &&
        decide (p.arrivalTime < t + 1)) = T.processes.filter fun p => p.arrivalTime = t := by
      refine List.filter_congr fun p _ => ?_
      rw [← decide_not, ← Bool.decide_and, decide_eq_decide]
      omega
    rw [hbefore, hat] at hsplit
    rw [arrivalCalls_succ, hnew]
    refine (ih.append_right _).trans ?_
    rw [← List.map_append]
    exact hsplit.map _

end Cosc240
