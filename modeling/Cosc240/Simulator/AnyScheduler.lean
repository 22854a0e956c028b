import Mathlib.Data.List.Perm.Subperm
import Cosc240.Simulator.Run

/-!
# The simulator with an arbitrary scheduler

Nothing is assumed here about what is linked in as `scheduler.c`. `TickCase`
lists what the body of the loop of `run_simulation` (simulator.c:182–218) can do, and with
what answer of the scheduler: it is idle, it gives a unit of time to a process, it refuses
a process that has had all its time, or it indexes its table out of bounds.

- `Sim.answer`: what the scheduler returns in a time step, after the arrivals.
- `Enters S T timeBound t s`: the loop gets to its body in time step `t`, and not only to the test
  in front of it.

Main results:

- `getPidIndex_cases`: the row of the pid is found, or the index is past the end of the table.
- `Sim.tick_cases`: the body of the loop, inverted. Everything that is proved about arbitrary
  schedulers goes through this case split, with one case for each exit of the body.
- `Reached.initial`: whatever the scheduler does, the rows are those of the table, in their order.
- `Reached.runSimulation_eq` and `Reached.runSimulation_of_tick`: the loop passes through each
  reached state, and ends where the body does not go on.
-/

namespace Cosc240

/-- The answer of the scheduler in time step `t`. -/
def Sim.answer {S : Scheduler} (s : Sim S) (t : Nat) : Option (Nat × S.State) :=
  S.getNextScheduledProcess (addArrivals S s.processes t s.sched)

/-- The row after one more unit of time. -/
def ProcessStats.execute (time : Nat) (p : ProcessStats) : ProcessStats :=
  { p with
    processedTime := incr p.processedTime
    endTime := if incr p.processedTime = p.initial.processingTime then time else p.endTime }

/-- What the body of the loop does at `t`, by the answer of the scheduler. -/
inductive TickCase {S : Scheduler} (s : Sim S) (t : Nat) : Option (TickResult S) → Prop
  /-- The scheduler itself faults. -/
  | fault (h : s.answer t = none) : TickCase s t none
  /-- The pid is in no row: `processes[UINT_MAX]` is accessed. -/
  | stray {pid : Nat} {sched : S.State} (h : s.answer t = some (pid, sched)) (hpos : 0 < pid)
      (hstray : ∀ p ∈ s.processes, p.initial.pid ≠ pid) : TickCase s t none
  | idle {sched : S.State} (h : s.answer t = some (0, sched)) :
      TickCase s t (some (.next { s with sched, output := s.output ++ [.step t 0] }))
  | serve {i : Nat} {p : ProcessStats} {sched : S.State}
      (h : s.answer t = some (p.initial.pid, sched)) (hpos : 0 < p.initial.pid)
      (hp : s.processes[i]? = some p) (hle : incr p.processedTime ≤ p.initial.processingTime) :
      TickCase s t (some (.next
        { processes := s.processes.set i (p.execute t), sched,
          output := s.output ++ [.step t p.initial.pid] }))
  | tooLong {i : Nat} {p : ProcessStats} {sched : S.State}
      (h : s.answer t = some (p.initial.pid, sched)) (hpos : 0 < p.initial.pid)
      (hp : s.processes[i]? = some p) (hlt : p.initial.processingTime < incr p.processedTime) :
      TickCase s t (some (.stop
        { processes := s.processes.set i { p with processedTime := incr p.processedTime }, sched,
          output := s.output ++ [.tooLong p.initial.pid] }))

/-- `get_pid_index` finds the row of the pid, or there is none. -/
theorem getPidIndex_cases (pid : Nat) (processes : List ProcessStats) :
    (∃ p, processes[getPidIndex pid processes]? = some p ∧ p.initial.pid = pid) ∨
      (getPidIndex pid processes = uintMax ∧ ∀ p ∈ processes, p.initial.pid ≠ pid) := by
  unfold getPidIndex
  cases hfind : processes.findIdx? fun p => p.initial.pid = pid with
  | none =>
    right
    refine ⟨rfl, fun p hp heq => ?_⟩
    have hne := List.findIdx?_eq_none_iff.mp hfind p hp
    rw [decide_eq_true heq] at hne
    cases hne
  | some i =>
    left
    obtain ⟨hi, hpid, -⟩ := List.findIdx?_eq_some_iff_getElem.mp hfind
    exact ⟨processes[i], List.getElem?_eq_getElem hi, of_decide_eq_true hpid⟩

/-- **The body of the loop, inverted.** -/
theorem Sim.tick_cases {S : Scheduler} (s : Sim S) (t : Nat)
    (hlen : s.processes.length ≤ uintMax) : TickCase s t (s.tick t) := by
  unfold Sim.tick
  split
  · next h => exact .fault h
  · next pid sched h =>
    by_cases hpos : pid > 0
    · rw [if_pos hpos]
      dsimp only
      -- the exit for an invalid pid is dead code
      rw [if_neg (Nat.not_lt_zero _)]
      rcases getPidIndex_cases pid s.processes with ⟨p, hp, rfl⟩ | ⟨hmax, hstray⟩
      · rw [hp]
        dsimp only
        by_cases hdone : incr p.processedTime = p.initial.processingTime
        · have hcase := TickCase.serve (s := s) h hpos hp (Nat.le_of_eq hdone)
          rw [ProcessStats.execute, if_pos hdone] at hcase
          rw [if_pos hdone]
          exact hcase
        · rw [if_neg hdone]
          by_cases hgt : incr p.processedTime > p.initial.processingTime
          · rw [if_pos hgt]
            exact .tooLong h hpos hp hgt
          · rw [if_neg hgt]
            have hcase := TickCase.serve (s := s) h hpos hp (Nat.le_of_not_lt hgt)
            rw [ProcessStats.execute, if_neg hdone] at hcase
            exact hcase
      · rw [hmax, List.getElem?_eq_none hlen]
        exact .stray h hpos hstray
    · rw [if_neg hpos]
      obtain rfl : pid = 0 := Nat.eq_zero_of_not_pos hpos
      exact .idle h

/-- The globals of the scheduler are those that the answer leaves. -/
theorem Sim.answer_of_tick {S : Scheduler} {s s' : Sim S} {t : Nat}
    (hlen : s.processes.length ≤ uintMax) (h : s.tick t = some (.next s')) :
    ∃ pid, s.answer t = some (pid, s'.sched) := by
  have hcase := s.tick_cases t hlen
  rw [h] at hcase
  cases hcase with
  | idle hanswer => exact ⟨0, hanswer⟩
  | serve hanswer _ _ _ => exact ⟨_, hanswer⟩

/-! ## Runs -/

/-- The body of the loop leaves the static half of the table alone. -/
theorem Sim.tick_initial {S : Scheduler} {s s' : Sim S} {t : Nat}
    (hlen : s.processes.length ≤ uintMax) (h : s.tick t = some (.next s')) :
    s'.processes.map ProcessStats.initial = s.processes.map ProcessStats.initial := by
  have hcase := s.tick_cases t hlen
  rw [h] at hcase
  cases hcase with
  | idle _ => rfl
  | serve _ _ hp _ =>
    rw [List.map_set]
    refine List.ext_getElem? fun k => ?_
    rw [List.getElem?_set]
    split
    · next hk =>
      subst hk
      rw [List.getElem?_map, hp, List.length_map, if_pos (List.getElem?_eq_some_iff.mp hp).1]
      rfl
    · rfl

/-- The loop gets to the body of time step `t`, in state `s`. -/
structure Enters (S : Scheduler) (T : Table) (timeBound : UInt32) (t : Nat) (s : Sim S) :
    Prop where
  reached : Reached S T.start timeBound t s
  bound : t < timeBound.toNat
  running : stillRunning s.processes = true

section Reached

variable {S : Scheduler} {T : Table} {timeBound : UInt32}

theorem Table.length_le (T : Table) : T.processes.length ≤ uintMax := by
  -- pids are distinct and below 1,000,000
  have hsub : T.processes.map ProcessInitial.pid ⊆ List.range 1000000 := by
    intro pid hpid
    obtain ⟨p, hp, rfl⟩ := List.mem_map.mp hpid
    exact List.mem_range.mpr (T.pid_lt p hp)
  have hle := (T.pids_nodup.subperm hsub).length_le
  rw [List.length_map, List.length_range] at hle
  exact Nat.le_trans hle (by decide)

/-- Whatever the scheduler does, the rows are those of the table. -/
theorem Reached.initial {t : Nat} {s : Sim S} (h : Reached S T.start timeBound t s) :
    s.processes.map ProcessStats.initial = T.processes := by
  induction h with
  | start => simp [Sim.start, Table.start, Function.comp_def]
  | tick _ _ _ hstep ih =>
    rw [← ih]
    refine Sim.tick_initial ?_ hstep
    rw [← List.length_map (f := ProcessStats.initial), ih]
    exact T.length_le

theorem Reached.length_le {t : Nat} {s : Sim S} (h : Reached S T.start timeBound t s) :
    s.processes.length ≤ uintMax := by
  rw [← List.length_map (f := ProcessStats.initial), h.initial]
  exact T.length_le

/-- The loop passes through each reached state. -/
theorem Reached.runSimulation_eq {processes : List ProcessStats} {t : Nat} {s : Sim S}
    (h : Reached S processes timeBound t s) :
    runSimulation S processes timeBound = runFrom (timeBound.toNat - t) t s := by
  induction h with
  | start => rfl
  | @tick t _ _ _ hbound hrun hstep ih =>
    obtain ⟨left, hleft⟩ : ∃ left, timeBound.toNat - t = left + 1 :=
      ⟨timeBound.toNat - t - 1, by omega⟩
    rw [ih, hleft, runFrom, if_pos hrun, hstep, show timeBound.toNat - (t + 1) = left by omega]

/-- `run_simulation` ends where the body of the loop does not go on. -/
theorem Reached.runSimulation_of_tick {processes : List ProcessStats} {t : Nat} {s : Sim S}
    (h : Reached S processes timeBound t s) (hbound : t < timeBound.toNat)
    (hrun : stillRunning s.processes = true) :
    (s.tick t = none → runSimulation S processes timeBound = none) ∧
      ∀ s', s.tick t = some (.stop s') →
        runSimulation S processes timeBound = some (false, s') := by
  obtain ⟨left, hleft⟩ : ∃ left, timeBound.toNat - t = left + 1 :=
    ⟨timeBound.toNat - t - 1, by omega⟩
  rw [h.runSimulation_eq, hleft, runFrom, if_pos hrun]
  constructor
  · intro htick
    rw [htick]
  · intro s' htick
    rw [htick]

end Reached

end Cosc240
