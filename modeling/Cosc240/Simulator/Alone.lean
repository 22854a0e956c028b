import Cosc240.Simulator.Slices
import Cosc240.Simulator.Verdict

/-!
# The scheduler on its own

What a scheduler returns depends on its own globals and on the arrivals, and these
are in the table: nothing flows back from the simulator. So the answers of a run can
be had without the simulator, and whether the run succeeds is a property of them.

- `alone`: the globals of the scheduler before a time step, when its two functions are called as the
  table says and nothing else happens. There are none if it has faulted.
- `returns`: what it then returns in that time step.
- `Serves`: within the time bound the scheduler, on its own, returns each pid of the table as often
  as its process needs, and otherwise 0. Neither `run_simulation` nor its table of rows occurs in
  it.

Main results:

- `Reached.alone_eq` and `Reached.returns_eq`: in a run the globals and the answers are these.
- `runSimulation_eq_true_iff`: `run_simulation` (simulator.c:177–221) returns `TRUE` exactly if the
  scheduler serves the table.
-/

namespace Cosc240

namespace Scheduler

variable (S : Scheduler) (T : Table)

/-- The arrivals of time step `t`. -/
def arrive (t : Nat) (s : S.State) : S.State :=
  (T.processes.filter fun p => p.arrivalTime = t).foldl S.addToReadyQueue s

/-- The globals before time step `t`, where the scheduler has been called as the
table says. There are none if it has faulted. -/
def alone : Nat → Option S.State
  | 0 => some S.init
  | t + 1 => (alone t).bind fun s => (S.getNextScheduledProcess (S.arrive T t s)).map Prod.snd

/-- What it then returns in time step `t`. -/
def returns (t : Nat) : Option Nat :=
  (S.alone T t).bind fun s => (S.getNextScheduledProcess (S.arrive T t s)).map Prod.fst

end Scheduler

/-- Within the time bound the scheduler, on its own, returns each pid of the table as
often as its process needs, and otherwise 0. -/
def Serves (S : Scheduler) (T : Table) (timeBound : UInt32) : Prop :=
  ∃ σ : List Nat, σ.length ≤ timeBound.toNat ∧
    (∀ i pid, σ[i]? = some pid →
      S.returns T i = some pid ∧ (pid = 0 ∨ ∃ p ∈ T.processes, p.pid = pid)) ∧
    Exact T σ

variable {S : Scheduler} {T : Table} {timeBound : UInt32} {t : Nat} {s : Sim S}

theorem addArrivals_eq_arrive (h : Reached S T.start timeBound t s) :
    addArrivals S s.processes t s.sched = S.arrive T t s.sched := by
  rw [addArrivals_eq_foldl, arrivalsAt_eq h.initial]
  rfl

theorem Reached.answer_eq (h : Reached S T.start timeBound t s) :
    s.answer t = S.getNextScheduledProcess (S.arrive T t s.sched) :=
  congrArg S.getNextScheduledProcess (addArrivals_eq_arrive h)

/-- In a run the globals are those of the scheduler on its own. -/
theorem Reached.alone_eq (h : Reached S T.start timeBound t s) :
    S.alone T t = some s.sched := by
  induction h with
  | start => rfl
  | tick h _ _ hstep ih =>
    obtain ⟨pid, hanswer⟩ := Sim.answer_of_tick h.length_le hstep
    rw [h.answer_eq] at hanswer
    rw [Scheduler.alone, ih, Option.bind_some, hanswer]
    rfl

theorem Reached.returns_eq (h : Reached S T.start timeBound t s) :
    S.returns T t = (s.answer t).map Prod.fst := by
  rw [Scheduler.returns, h.alone_eq, Option.bind_some, h.answer_eq]

/-- **The verdict, without the simulator.** -/
theorem runSimulation_eq_true_iff (S : Scheduler) (T : Table) (timeBound : UInt32) :
    (∃ s, runSimulation S T.start timeBound = some (true, s)) ↔ Serves S T timeBound := by
  constructor
  · rintro ⟨s, hrun⟩
    obtain ⟨σ, hs, htally, hexact⟩ := exact_of_runSimulation_true hrun
    refine ⟨σ, hs.le_timeBound, ?_, hexact⟩
    intro i pid hi
    obtain ⟨s', sched, hs', hanswer⟩ := htally.answered i pid hi
    refine ⟨?_, htally.pids pid (List.mem_of_getElem? hi)⟩
    rw [hs'.reached.returns_eq, hanswer]
    rfl
  · rintro ⟨σ, hlength, hreturns, hexact⟩
    refine Answers.runSimulation_eq_true (ρ := σ) ?_ hlength hexact
    intro t s pid hs hpid
    obtain ⟨hreturn, hok⟩ := hreturns t pid hpid
    rw [hs.reached.returns_eq] at hreturn
    obtain ⟨⟨pid', sched⟩, hanswer, rfl⟩ := Option.map_eq_some_iff.mp hreturn
    exact ⟨⟨sched, hanswer⟩, hok⟩

end Cosc240
