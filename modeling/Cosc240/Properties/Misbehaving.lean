import Cosc240.Simulator.AnyScheduler

/-!
# A scheduler that returns an unknown pid

`run_simulation` has an exit for a scheduler that returns a pid no process has
(simulator.c:194–200). `get_pid_index` reports "not found" as `-1`, but as an `unsigned int`
(simulator.c:157–165), so that the test `index < 0` never succeeds and the exit is never taken: the
loop accesses `processes[UINT_MAX]` instead.

- `Sim.Stray`: in a time step the scheduler returns a non-zero pid that no row of the table has.
- `RefusesStray`: what the comments promise for that. The run stops in that time step and returns
  `FALSE`, without a fault and with the table unchanged.
- `Enters.tick_of_stray`: an unknown pid makes the body of the loop access its table out of bounds.

Main results:

- `refusesStray_iff`: a run keeps the promise only if the scheduler never returns an unknown pid in
  it, and each time step in which it does is undefined behaviour.
- `not_refusesStray_seven`: a scheduler that always returns pid 7, on the example of readme.md.
-/

namespace Cosc240

variable {S : Scheduler}

/-- In time step `t` the scheduler returns a non-zero pid that no entry of the
table has. -/
def Sim.Stray (s : Sim S) (t : Nat) : Prop :=
  ∃ pid sched, s.answer t = some (pid, sched) ∧ 0 < pid ∧
    ∀ p ∈ s.processes, p.initial.pid ≠ pid

/-- What the comments of `run_simulation` promise for an unknown pid: it stops
in that time step and returns `FALSE`, without a fault and with the table
unchanged. -/
def RefusesStray (S : Scheduler) (T : Table) (timeBound : UInt32) : Prop :=
  ∀ t s, Enters S T timeBound t s → s.Stray t →
    ∃ s', s.tick t = some (.stop s') ∧
      runSimulation S T.start timeBound = some (false, s') ∧ s'.processes = s.processes

/-- An unknown pid makes the body of the loop access its table out of bounds. -/
theorem Enters.tick_of_stray {T : Table} {timeBound : UInt32} {t : Nat} {s : Sim S}
    (h : Enters S T timeBound t s) (hstray : s.Stray t) : s.tick t = none := by
  obtain ⟨pid, sched, hanswer, hpos, hne⟩ := hstray
  have hcase := s.tick_cases t h.reached.length_le
  generalize s.tick t = result at hcase
  cases hcase with
  | fault _ => rfl
  | stray _ _ _ => rfl
  | idle hidle =>
    cases hanswer.symm.trans hidle
    -- pid 0 is not stray
    exact absurd hpos (Nat.lt_irrefl 0)
  | serve hserve _ hp _ =>
    cases hanswer.symm.trans hserve
    exact absurd rfl (hne _ (List.mem_of_getElem? hp))
  | tooLong htoo _ hp _ =>
    cases hanswer.symm.trans htoo
    exact absurd rfl (hne _ (List.mem_of_getElem? hp))

/-- **The exit for an unknown pid is never taken.** A run keeps the promise only
if the scheduler never returns an unknown pid in it, and each time step in which
it does is undefined behaviour. -/
theorem refusesStray_iff (S : Scheduler) (T : Table) (timeBound : UInt32) :
    (RefusesStray S T timeBound ↔ ∀ t s, Enters S T timeBound t s → ¬ s.Stray t) ∧
      ∀ t s, Enters S T timeBound t s → s.Stray t →
        s.tick t = none ∧ runSimulation S T.start timeBound = none := by
  refine ⟨⟨?_, ?_⟩, ?_⟩
  · intro hrefuses t s hs hstray
    obtain ⟨s', htick, -, -⟩ := hrefuses t s hs hstray
    rw [hs.tick_of_stray hstray] at htick
    cases htick
  · intro hnever t s hs hstray
    exact absurd hstray (hnever t s hs)
  · intro t s hs hstray
    have htick := hs.tick_of_stray hstray
    exact ⟨htick, (hs.reached.runSimulation_of_tick hs.bound hs.running).1 htick⟩

/-- A scheduler that always returns pid 7. -/
def sevenScheduler : Scheduler where
  State := Unit
  init := ()
  addToReadyQueue s _ := s
  getNextScheduledProcess s := some (7, s)

/-- On the example of `readme.md`, pid 7 is a fault in the first time step. -/
theorem not_refusesStray_seven : ¬ RefusesStray sevenScheduler readmeTable 20 := by
  intro h
  obtain ⟨s', htick, -⟩ := h 0 (Sim.start sevenScheduler readmeTable.start)
    ⟨.start, by decide, by decide⟩ ⟨7, (), rfl, by decide, by decide⟩
  cases htick

end Cosc240
