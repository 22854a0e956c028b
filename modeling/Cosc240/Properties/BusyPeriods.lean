import Cosc240.Properties.FileOrder
import Cosc240.Simulator.Regenerative

/-!
# Nothing leaks from one busy period to the next

`fcfs.c` and `rr.c` are back at their initial state when the last process is
complete. The other three are not: `priority_level` keeps the level of the last
dispatch (constant.c:140–196, exponential.c:137–194, custom.c:336–387), and `custom.c` keeps its
sentinel and the allocator's state. But `priority_level` is read only while a process is current,
and is overwritten when one becomes current.

- `Mlfq.State.observable` and `Scored.State.observable`: the globals without a stale level. A call
  does the same on them (`next_observable`), and without processes they are the initial ones
  (`observable_of_nil`).
- `Algorithm.regenerative`: each of the five schedulers starts afresh, in the sense of
  `Regenerative`, when it has run out of processes.

Main result:

- `busy_periods`: if everything in the second of two tables arrives after the makespan of the first
  one, then a run on both returns what the runs on the two tables alone return, one behind the
  other. The witness `busy_periods_earlyAndLate` is a process that is followed by another one.
-/

namespace Cosc240

open Lib

/-! ## `fcfs.c` and `rr.c` -/

/-- An empty list is the initial state. -/
def Fcfs.regenerative : Regenerative books where
  toOblivious := .ofState books add_comm
  view_idle _ _ _ _ hnil hnil' := hnil.trans hnil'.symm

/-- With no work left, the queue is empty. -/
theorem Rr.eq_of_nil {processList processList' : List RrProcess}
    (hnil : processList.map QuantumProcess.toJob = [])
    (hnil' : processList'.map QuantumProcess.toJob = []) : processList = processList' := by
  rw [List.map_eq_nil_iff.mp hnil, List.map_eq_nil_iff.mp hnil']

def Rr.regenerative : Regenerative books where
  toOblivious := .ofState books add_comm
  view_idle _ _ _ _ hnil hnil' := eq_of_nil hnil hnil'

/-! ## `constant.c` and `exponential.c` -/

namespace Mlfq

/-- The globals without a stale `priority_level`. -/
def State.observable (s : State) : State :=
  match s.current with
  | none => { s with priorityLevel := topLevel }
  | some _ => s

/-- Between two processes only the level can differ, and it is set before it is used. -/
theorem observable_of_none {s : State} (h : s.current = none) :
    s.observable = { s with priorityLevel := topLevel } := by
  rw [State.observable, h]

/-- While a process runs, everything in the state counts. -/
theorem observable_of_some {s : State} {c : QuantumProcess} (h : s.current = some c) :
    s.observable = s := by
  rw [State.observable, h]

/-- Arrivals do not look at the level. -/
theorem addToReadyQueue_observable (s : State) (p : ProcessInitial) :
    (addToReadyQueue s p).observable = addToReadyQueue s.observable p := by
  cases hc : s.current with
  | none =>
    have hc' : (addToReadyQueue s p).current = none := hc
    rw [observable_of_none hc, observable_of_none hc']
    rfl
  | some c =>
    have hc' : (addToReadyQueue s p).current = some c := hc
    rw [observable_of_some hc, observable_of_some hc']

/-- A stale `priority_level` is overwritten before it is read. -/
theorem next_observable (sliceLength : Level → Nat) (s : State) :
    (getNextScheduledProcess sliceLength s.observable).1 =
        (getNextScheduledProcess sliceLength s).1 ∧
      (getNextScheduledProcess sliceLength s.observable).2.observable =
        (getNextScheduledProcess sliceLength s).2.observable := by
  cases hc : s.current with
  | some c =>
    rw [observable_of_some hc]
    exact ⟨rfl, rfl⟩
  | none =>
    rw [observable_of_none hc]
    rcases dispatch_cases s with ⟨c, hc', -⟩ | ⟨i, p, rest, -, hq, hbefore, hd⟩ | ⟨-, hq, -⟩
    · rw [hc] at hc'
      cases hc'
    · -- a process becomes current, and its level is stored
      have hfind := find?_not_isEmpty (q := s.priorityQueues) (by rw [hq]; simp) hbefore
      have hd' : dispatch { s with priorityLevel := topLevel } = dispatch s := by
        rw [hd]
        simp [dispatch, hc, hfind, hq]
      rw [getNextScheduledProcess, getNextScheduledProcess, hd']
      exact ⟨rfl, rfl⟩
    · have hnil : s.nodes = [] := by rw [State.nodes, hc, allQueues_eq_nil.mpr hq]; rfl
      have hnil' : State.nodes { s with priorityLevel := topLevel } = [] := hnil
      rw [getNextScheduledProcess_of_nil sliceLength hnil,
        getNextScheduledProcess_of_nil sliceLength hnil']
      exact ⟨rfl, (observable_of_none (s := { s with priorityLevel := topLevel }) hc).trans
        (observable_of_none hc).symm⟩

/-- A call of the scheduler does not tell the two states apart. -/
theorem view_next {sliceLength : Level → Nat} {s s' s₁ s₁' : State} {pid pid' : Nat}
    (hview : s.observable = s'.observable)
    (hnext : getNextScheduledProcess sliceLength s = (pid, s₁))
    (hnext' : getNextScheduledProcess sliceLength s' = (pid', s₁')) :
    pid = pid' ∧ s₁.observable = s₁'.observable := by
  obtain ⟨hpid, hrest⟩ := next_observable sliceLength s
  obtain ⟨hpid', hrest'⟩ := next_observable sliceLength s'
  rw [hnext, hview] at hpid hrest
  rw [hnext'] at hpid' hrest'
  exact ⟨hpid.symm.trans hpid', hrest.symm.trans hrest'⟩

/-- Without processes only `priority_level` may be left over. -/
theorem observable_of_nil {s : State} (hnil : s.nodes.map QuantumProcess.toJob = []) :
    s.observable = init := by
  obtain ⟨hc, hq⟩ := List.append_eq_nil_iff.mp (List.map_eq_nil_iff.mp hnil)
  have hcurrent := Option.toList_eq_nil_iff.mp hc
  have hqueues : s.priorityQueues = fun _ => [] := funext (allQueues_eq_nil.mp hq)
  rw [observable_of_none hcurrent, hqueues, hcurrent]
  rfl

/-- The globals without a stale `priority_level` are a view. -/
def regenerative (sliceLength : Level → Nat) : Regenerative (books sliceLength) where
  View := State
  view := State.observable
  add := addToReadyQueue
  view_add s p _ _ := addToReadyQueue_observable s p
  add_comm := add_comm
  view_next _ _ _ _ _ _ _ _ _ _ hview hnext hnext' :=
    view_next hview (Option.some.inj hnext) (Option.some.inj hnext')
  view_idle _ _ _ _ hnil hnil' := (observable_of_nil hnil).trans (observable_of_nil hnil').symm

end Mlfq

/-! ## `custom.c` -/

namespace Scored

/-- The two queues without a stale level. -/
def State.observable (s : State) : State :=
  match s.current with
  | none => { s with priorityLevel := 0 }
  | some _ => s

theorem observable_of_none {s : State} (h : s.current = none) :
    s.observable = { s with priorityLevel := 0 } := by
  rw [State.observable, h]

theorem observable_of_some {s : State} {c : ScoredProcess} (h : s.current = some c) :
    s.observable = s := by
  rw [State.observable, h]

theorem addToReadyQueue_observable (s : State) (p : ProcessInitial) :
    (addToReadyQueue s p).observable = addToReadyQueue s.observable p := by
  cases hc : s.current with
  | none =>
    have hc' : (addToReadyQueue s p).current = none := hc
    rw [observable_of_none hc, observable_of_none hc']
    rfl
  | some c =>
    have hc' : (addToReadyQueue s p).current = some c := hc
    rw [observable_of_some hc, observable_of_some hc']

theorem getNextScheduledProcess_of_none {D : Type} [DoubleArith D] {s : State}
    (h : (dispatch D s).current = none) : getNextScheduledProcess D s = (0, dispatch D s) := by
  simp [getNextScheduledProcess, h]

/-- A stale level is overwritten before it is read. -/
theorem next_observable (D : Type) [DoubleArith D] (s : State) :
    (getNextScheduledProcess D s.observable).1 = (getNextScheduledProcess D s).1 ∧
      (getNextScheduledProcess D s.observable).2.observable =
        (getNextScheduledProcess D s).2.observable := by
  cases hc : s.current with
  | some c =>
    rw [observable_of_some hc]
    exact ⟨rfl, rfl⟩
  | none =>
    rw [observable_of_none hc]
    rcases dispatch_cases D s with
      ⟨c, hc', -⟩ | ⟨p, rest, -, hf, hd⟩ | ⟨b, -, hf, hb, hd⟩ | ⟨-, hf, hb, hd⟩
    · rw [hc] at hc'
      cases hc'
    · -- a process of the fast queue becomes current, and its level is stored
      have hd' : dispatch D { s with priorityLevel := 0 } = dispatch D s := by
        rw [hd]
        simp [dispatch, hc, hf]
      rw [getNextScheduledProcess, getNextScheduledProcess, hd']
      exact ⟨rfl, rfl⟩
    · have hd' : dispatch D { s with priorityLevel := 0 } = dispatch D s := by
        rw [hd]
        simp [dispatch, hc, hf, hb]
      rw [getNextScheduledProcess, getNextScheduledProcess, hd']
      exact ⟨rfl, rfl⟩
    · -- nobody becomes current
      have hd' : dispatch D { s with priorityLevel := 0 } = { s with priorityLevel := 0 } := by
        simp [dispatch, hc, hf, hb]
      have hnone : (dispatch D s).current = none := by rw [hd, hc]
      have hnone' : (dispatch D { s with priorityLevel := 0 }).current = none := by
        rw [hd']
        exact hc
      rw [getNextScheduledProcess_of_none hnone, getNextScheduledProcess_of_none hnone', hd, hd']
      exact ⟨rfl, (observable_of_none (s := { s with priorityLevel := 0 }) hc).trans
        (observable_of_none hc).symm⟩

/-- Without processes only the level may be left over. -/
theorem observable_of_nil {s : State} (hnil : s.nodes = []) : s.observable = init := by
  obtain ⟨hc, hqueued⟩ := List.append_eq_nil_iff.mp hnil
  obtain ⟨hf, hq⟩ := List.append_eq_nil_iff.mp hqueued
  have hcurrent := Option.toList_eq_nil_iff.mp hc
  rw [observable_of_none hcurrent, hf, hq, hcurrent]
  rfl

end Scored

namespace Custom

variable {D : Type} [DoubleArith D]

theorem view_next {s s' s₁ s₁' : State D} {pid pid' : Nat} (hok : Ok s) (hok' : Ok s')
    (hv : ValidJobs (s.nodes.map fun p => p.toJob))
    (hv' : ValidJobs (s'.nodes.map fun p => p.toJob))
    (hview : s.scored.observable = s'.scored.observable)
    (hnext : getNextScheduledProcess s = some (pid, s₁))
    (hnext' : getNextScheduledProcess s' = some (pid', s₁')) :
    pid = pid' ∧ s₁.scored.observable = s₁'.scored.observable := by
  obtain ⟨t, ht, hscored, -⟩ := hok.getNextScheduledProcess hv
  obtain ⟨t', ht', hscored', -⟩ := hok'.getNextScheduledProcess hv'
  cases hnext.symm.trans ht
  cases hnext'.symm.trans ht'
  obtain ⟨hpid, hrest⟩ := Scored.next_observable D s.scored
  obtain ⟨hpid', hrest'⟩ := Scored.next_observable D s'.scored
  rw [hview] at hpid hrest
  rw [hscored, hscored']
  exact ⟨hpid.symm.trans hpid', hrest.symm.trans hrest'⟩

omit [DoubleArith D] in
theorem observable_of_nil {s : State D} (hnil : (s.nodes.map fun p => p.toJob) = []) :
    s.scored.observable = Scored.init := by
  refine Scored.observable_of_nil ?_
  rw [scored_nodes, List.map_eq_nil_iff]
  exact List.map_eq_nil_iff.mp hnil

/-- The processes and their counters, without a stale level, are a view. -/
def regenerative (D : Type) [DoubleArith D] : Regenerative (books D) where
  View := Scored.State
  view s := (State.scored s).observable
  add := Scored.addToReadyQueue
  view_add s p hok hv :=
    (congrArg Scored.State.observable ((oblivious D).view_add s p hok hv)).trans
      (Scored.addToReadyQueue_observable _ p)
  add_comm := Scored.add_comm
  view_next _ _ _ _ _ _ hok hok' hv hv' hview hnext hnext' :=
    view_next hok hok' hv hv' hview hnext hnext'
  view_idle _ _ _ _ hnil hnil' := (observable_of_nil hnil).trans (observable_of_nil hnil').symm

end Custom

/-! ## The five schedulers -/

/-- Each scheduler starts afresh when it has run out of processes. -/
def Algorithm.regenerative (D : Type) [DoubleArith D] :
    (a : Algorithm) → Regenerative (a.books D)
  | fcfs => Fcfs.regenerative
  | rr => Rr.regenerative
  | constant => Mlfq.regenerative Constant.sliceLength
  | exponential => Mlfq.regenerative Exponential.sliceLength
  | custom => Custom.regenerative D

/-- **Busy periods do not affect each other.** `T` consists of two tables, and
everything in the second one arrives after the `M` time steps that it takes to
finish the first one alone. Then the run on `T` returns in each time step before
`M` what the run on the first table alone returns, and in each one from `M` on
what the run on the second table alone returns. -/
theorem busy_periods (D : Type) [DoubleArith D] (a : Algorithm) (T first second : Table)
    (timeBound timeBound₁ timeBound₂ : UInt32) (s₁ : Sim (a.scheduler D))
    (hrun : runSimulation (a.scheduler D) first.start timeBound₁ = some (true, s₁))
    (hsplit : T.Splits first second s₁.trace.length) :
    (∀ t < s₁.trace.length, t < timeBound.toNat →
      (returned (a.scheduler D) T.start timeBound)[t]? =
        (returned (a.scheduler D) first.start timeBound₁)[t]?) ∧
    ∀ t, s₁.trace.length ≤ t → t < timeBound.toNat → t < timeBound₂.toNat →
      (returned (a.scheduler D) T.start timeBound)[t]? =
        (returned (a.scheduler D) second.start timeBound₂)[t]? :=
  (a.regenerative D).sameOn_both hrun hsplit

/-- A process that is complete after two time steps. -/
def earlyTable : Table where
  processes := [⟨4, 2, 0⟩]
  nonempty := by decide
  pids_nodup := by decide
  pid_pos := by decide
  pid_lt := by decide
  arrivalTime_lt := by decide
  processingTime_pos := by decide
  processingTime_lt := by decide

/-- A process that arrives later. -/
def lateTable : Table where
  processes := [⟨6, 5, 3⟩]
  nonempty := by decide
  pids_nodup := by decide
  pid_pos := by decide
  pid_lt := by decide
  arrivalTime_lt := by decide
  processingTime_pos := by decide
  processingTime_lt := by decide

/-- Both of them. -/
def earlyAndLateTable : Table where
  processes := [⟨6, 5, 3⟩, ⟨4, 2, 0⟩]
  nonempty := by decide
  pids_nodup := by decide
  pid_pos := by decide
  pid_lt := by decide
  arrivalTime_lt := by decide
  processingTime_pos := by decide
  processingTime_lt := by decide

theorem busy_periods_earlyAndLate :
    (returned Constant.scheduler earlyAndLateTable.start 1000000)[7]? =
      (returned Constant.scheduler lateTable.start 1000000)[7]? := by
  have hrun : runSimulation Constant.scheduler earlyTable.start 3 = some (true, _) := rfl
  exact (busy_periods ℚ .constant earlyAndLateTable earlyTable lateTable 1000000 3 1000000 _ hrun
    ⟨List.Perm.swap _ _ _, by decide⟩).2 7 (by decide) (by decide) (by decide)

end Cosc240
