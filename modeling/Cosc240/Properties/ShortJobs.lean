import Cosc240.Schedulers.Algorithms
import Cosc240.Schedulers.CustomSlices
import Cosc240.Schedulers.FcfsSlots
import Cosc240.Schedulers.MlfqSlices
import Cosc240.Simulator.Fifo

/-!
# Short processes

A process that needs no more than the first slice is complete before it can be rotated or demoted,
because each scheduler tests for completion before it tests the quantum (rr.c:118–157,
constant.c:140–196, exponential.c:137–194, custom.c:336–387). On tables of such processes the five
schedulers are one queue, and run the table in the same way.

For each scheduler there is the invariant that nobody has left its first slice, its queue as a list
of nodes, and the proof that a time step is one step of that queue:

- `Fcfs.fifo`, for processes of any length;
- `Rr.FirstSlices` and `Rr.fifo`, for one quantum;
- `Mlfq.FirstSlices` and `Mlfq.fifo`, for one slice at the top level;
- `Scored.FirstSlices` and `Custom.fifo`, for one slice of the fast queue.

Main results:

- `Algorithm.fifo`: each of the five is a queue for processes that need one slice, `firstSlice`.
- `short_processes`: if no process needs more than 2 units of time, the five schedulers run the
  table in the same way, with the same verdict, trace and rows. If none needs more than 3, then
  `fcfs.c`, `rr.c` and `constant.c` still do.
-/

namespace Cosc240

open Lib

/-! ## `fcfs.c` -/

namespace Fcfs

theorem addArrivals_eq {T : Table} {t : Nat} {s : Sim scheduler} (h : Agree books T t s) :
    addArrivals scheduler s.processes t s.sched =
      List.append s.sched ((T.arrivals t).map ProcessInitial.job) := by
  obtain ⟨σ, -, hσ, -⟩ := h.schedule
  refine (addArrivals_eq_foldl scheduler s.processes t s.sched).trans ?_
  exact foldl_skipInsert_arrivals Job.arrivalTime Job.pid ProcessInitial.job hσ.initial
    (fun _ => rfl) (fun _ => rfl) fun _ hj => h.arrivalTime_lt hj

theorem next_serveFirst {processList : List FcfsProcess} (hv : ValidJobs processList) :
    getNextScheduledProcess processList = serveFirst processList := by
  rcases next_cases hv with ⟨rfl, h⟩ | ⟨j, rest, rfl, h⟩
  · exact h
  · exact h

/-- `fcfs.c` is a queue for processes of any length. -/
def fifo (limit : Nat) : Fifo books limit where
  line processList := processList
  Good _ := True
  init_good := trivial
  init_line := books.init_contents
  line_perm processList _ := List.Perm.refl processList
  arrivals_good _ _ := trivial
  arrivals_line h _ := addArrivals_eq h
  next _ _ _ _ hv _ _ hnext :=
    ⟨trivial, (Option.some.inj hnext).symm.trans (next_serveFirst hv)⟩

end Fcfs

/-! ## Nodes in their first slice -/

/-- The process has had all its time in the current slice. -/
def QuantumProcess.FirstSlice (p : QuantumProcess) : Prop := p.quantumUsed = p.processedTime

namespace QuantumProcess.FirstSlice

variable {p : QuantumProcess}

theorem execute (h : p.FirstSlice) : p.execute.FirstSlice := congrArg incr h

/-- A process that is not complete has used less than its length of the slice. -/
theorem lt (h : p.FirstSlice) (hlt : p.processedTime < p.processingTime)
    (hle : p.processingTime ≤ uintMax)
    (hdone : p.execute.processedTime ≠ p.execute.processingTime) :
    p.execute.quantumUsed < p.processingTime := by
  have hused : p.execute.quantumUsed = p.execute.processedTime := h.execute
  have hone : p.execute.processedTime = p.processedTime + 1 := incr_of_lt hlt hle
  rw [execute_processingTime] at hdone
  omega

end QuantumProcess.FirstSlice

/-! ## `rr.c` -/

namespace Rr

/-- Nobody has been rotated yet. -/
def FirstSlices (processList : List RrProcess) : Prop :=
  ∀ p ∈ processList, QuantumProcess.FirstSlice p

theorem addArrivals_eq {T : Table} {processes : List ProcessStats}
    (hi : processes.map ProcessStats.initial = T.processes) {t : Nat}
    {processList : List RrProcess} (hold : ∀ p ∈ processList, p.arrivalTime < t) :
    addArrivals scheduler processes t processList =
      processList ++ (T.arrivals t).map newQuantumProcess := by
  refine (addArrivals_eq_foldl scheduler processes t processList).trans ?_
  exact foldl_skipInsert_arrivals (fun p : QuantumProcess => p.arrivalTime) (fun p => p.pid)
    newQuantumProcess hi (fun _ => rfl) (fun _ => rfl) hold

/-- **The arrivals** go to the back. -/
theorem FirstSlices.arrivals {processList : List RrProcess} (h : FirstSlices processList)
    (new : List ProcessInitial) :
    FirstSlices (processList ++ new.map newQuantumProcess) ∧
      (processList ++ new.map newQuantumProcess).map QuantumProcess.toJob =
        processList.map QuantumProcess.toJob ++ new.map ProcessInitial.job := by
  constructor
  · intro p hp
    rcases List.mem_append.mp hp with hp | hp
    · exact h p hp
    · obtain ⟨q, -, rfl⟩ := List.mem_map.mp hp
      rfl
  · rw [List.map_append, List.map_map]
    rfl

theorem FirstSlices.addArrivals {T : Table} {t : Nat} {s : Sim scheduler} (h : Agree books T t s)
    (hgood : FirstSlices s.sched) :
    FirstSlices (addArrivals scheduler s.processes t s.sched) ∧
      List.map QuantumProcess.toJob (Cosc240.addArrivals scheduler s.processes t s.sched) =
        List.map QuantumProcess.toJob s.sched ++ (T.arrivals t).map ProcessInitial.job := by
  obtain ⟨σ, -, hσ, -⟩ := h.schedule
  rw [addArrivals_eq hσ.initial fun p hp => h.arrivalTime_lt (List.mem_map_of_mem hp)]
  exact FirstSlices.arrivals hgood _

/-- **One time step.** -/
theorem next_firstSlices {processList : List RrProcess}
    (hv : ValidJobs (processList.map QuantumProcess.toJob)) (h : FirstSlices processList)
    (hle : ∀ p ∈ processList, p.processingTime ≤ quantum) :
    FirstSlices (getNextScheduledProcess processList).2 ∧
      ((getNextScheduledProcess processList).1,
        (getNextScheduledProcess processList).2.map QuantumProcess.toJob) =
          serveFirst (processList.map QuantumProcess.toJob) := by
  cases processList with
  | nil => exact ⟨h, rfl⟩
  | cons current rest =>
    have hmem : current.toJob ∈ (current :: rest).map QuantumProcess.toJob := List.mem_cons_self
    have hcurrent : current.FirstSlice := h current List.mem_cons_self
    have hrest : FirstSlices rest := fun p hp => h p (List.mem_cons_of_mem _ hp)
    rw [List.map_cons, serveFirst,
      QuantumProcess.served_toJob (hv.lt _ hmem) (hv.lt_uintMax _ hmem).le,
      getNextScheduledProcess]
    by_cases hdone : current.execute.processedTime = current.execute.processingTime
    · rw [if_pos hdone, if_pos hdone]
      exact ⟨hrest, rfl⟩
    · -- the process is too short to have used up its quantum
      have hused := hcurrent.lt (hv.lt _ hmem) (hv.lt_uintMax _ hmem).le hdone
      have hlimit := hle current List.mem_cons_self
      rw [if_neg hdone, if_neg hdone, if_neg (by omega)]
      refine ⟨fun p hp => ?_, rfl⟩
      rcases List.mem_cons.mp hp with rfl | hp
      · exact hcurrent.execute
      · exact hrest p hp

theorem firstSlices_init : FirstSlices [] := by
  rintro p ⟨⟩

/-- The same, for the result of the call. -/
theorem next_eq {processList processList' : List RrProcess} {pid : Nat}
    (hv : ValidJobs (processList.map QuantumProcess.toJob)) (h : FirstSlices processList)
    (hle : ∀ j ∈ processList.map QuantumProcess.toJob, j.processingTime ≤ quantum)
    (hnext : getNextScheduledProcess processList = (pid, processList')) :
    FirstSlices processList' ∧ (pid, processList'.map QuantumProcess.toJob) =
      serveFirst (processList.map QuantumProcess.toJob) := by
  have hstep := next_firstSlices hv h fun p hp => hle p.toJob (List.mem_map_of_mem hp)
  rw [hnext] at hstep
  exact hstep

/-- `rr.c` is a queue for processes that need at most one quantum. -/
def fifo : Fifo books quantum where
  line processList := List.map QuantumProcess.toJob processList
  Good := FirstSlices
  init_good := firstSlices_init
  init_line := books.init_contents
  line_perm processList _ := List.Perm.refl (List.map QuantumProcess.toJob processList)
  arrivals_good h hgood := (FirstSlices.addArrivals h hgood).1
  arrivals_line h hgood := (FirstSlices.addArrivals h hgood).2
  next _ _ _ _ hv hgood hle hnext := next_eq hv hgood hle (Option.some.inj hnext)

end Rr

/-! ## `constant.c` and `exponential.c` -/

namespace Mlfq

/-- Nobody has been demoted yet. -/
structure FirstSlices (s : State) : Prop where
  lower : ∀ k, k ≠ topLevel → s.priorityQueues k = []
  queued : ∀ p ∈ s.priorityQueues topLevel, p.FirstSlice
  current : ∀ c, s.current = some c → c.FirstSlice ∧ s.priorityLevel = topLevel

/-- The current process, and those in queue 0. -/
def State.line (s : State) : List Job :=
  (s.current.toList ++ s.priorityQueues topLevel).map QuantumProcess.toJob

variable {sliceLength : Level → Nat} {s : State}

theorem FirstSlices.nodes_perm (h : FirstSlices s) :
    (s.nodes.map QuantumProcess.toJob).Perm s.line := by
  have hothers : otherQueues s.priorityQueues topLevel = [] := by
    rw [otherQueues, List.flatMap_eq_nil_iff]
    intro k hk
    exact h.lower k ((List.nodup_finRange 4).mem_erase_iff.mp hk).1
  have hall := allQueues_perm s.priorityQueues topLevel
  rw [hothers, List.append_nil] at hall
  exact (hall.append_left _).map _

/-- **The arrivals** go to the back of queue 0. -/
theorem FirstSlices.arrivals (h : FirstSlices s) (new : List ProcessInitial) :
    FirstSlices { s with
      priorityQueues := Function.update s.priorityQueues topLevel
        (s.priorityQueues topLevel ++ new.map newQuantumProcess) } ∧
    State.line { s with
      priorityQueues := Function.update s.priorityQueues topLevel
        (s.priorityQueues topLevel ++ new.map newQuantumProcess) } =
      s.line ++ new.map ProcessInitial.job := by
  refine ⟨⟨fun k hk => ?_, fun p hp => ?_, h.current⟩, ?_⟩
  · dsimp only
    rw [Function.update_of_ne hk]
    exact h.lower k hk
  · dsimp only at hp
    rw [Function.update_self] at hp
    rcases List.mem_append.mp hp with hp | hp
    · exact h.queued p hp
    · obtain ⟨q, -, rfl⟩ := List.mem_map.mp hp
      rfl
  · rw [State.line, State.line]
    dsimp only
    rw [Function.update_self, ← List.append_assoc, List.map_append, List.map_map]
    rfl

theorem FirstSlices.addArrivals {T : Table} {t : Nat} {s : Sim (scheduler sliceLength)}
    (h : Agree (books sliceLength) T t s) (hgood : FirstSlices s.sched) :
    FirstSlices (addArrivals (scheduler sliceLength) s.processes t s.sched) ∧
      State.line (Cosc240.addArrivals (scheduler sliceLength) s.processes t s.sched) =
        State.line s.sched ++ (T.arrivals t).map ProcessInitial.job := by
  obtain ⟨σ, -, hσ, -⟩ := h.schedule
  rw [addArrivals_eq sliceLength hσ.initial fun p hp => h.arrivalTime_lt
    (List.mem_map_of_mem (List.mem_append_right _ (mem_allQueues.mpr ⟨_, hp⟩)))]
  exact FirstSlices.arrivals hgood _

/-- **One unit of time** for a process in its first slice. -/
theorem FirstSlices.execute (hlower : ∀ k, k ≠ topLevel → s.priorityQueues k = [])
    (hqueued : ∀ p ∈ s.priorityQueues topLevel, p.FirstSlice)
    (hlevel : s.priorityLevel = topLevel) {c : QuantumProcess} (hc : c.FirstSlice)
    (hlt : c.processedTime < c.processingTime) (hmax : c.processingTime ≤ uintMax)
    (hle : c.processingTime ≤ sliceLength topLevel) :
    FirstSlices (execute sliceLength s c).2 ∧
      ((execute sliceLength s c).1, (execute sliceLength s c).2.line) =
        serveFirst (c.toJob :: (s.priorityQueues topLevel).map QuantumProcess.toJob) := by
  rw [serveFirst, QuantumProcess.served_toJob hlt hmax, Mlfq.execute]
  by_cases hdone : c.execute.processedTime = c.execute.processingTime
  · rw [if_pos hdone, if_pos hdone]
    refine ⟨⟨hlower, hqueued, ?_⟩, rfl⟩
    rintro _ ⟨⟩
  · -- short of its length, the process is short of its slice
    have hused := hc.lt hlt hmax hdone
    have hslice : ¬ c.execute.quantumUsed = sliceLength s.priorityLevel := by
      rw [hlevel]
      omega
    dsimp only
    rw [if_neg hdone, if_neg hdone, if_neg hslice]
    refine ⟨⟨hlower, hqueued, ?_⟩, rfl⟩
    rintro _ ⟨⟩
    exact ⟨hc.execute, hlevel⟩

/-- The first process of the line is dispatched, since the other queues are empty. -/
theorem FirstSlices.dispatch (h : FirstSlices s) :
    FirstSlices (dispatch s) ∧ (dispatch s).line = s.line := by
  rcases dispatch_cases s with ⟨c, -, hd⟩ | ⟨i, p, rest, hc, hq, -, hd⟩ | ⟨-, -, hd⟩
  · rw [hd]
    exact ⟨h, rfl⟩
  · obtain rfl : i = topLevel := by
      by_contra hne
      rw [h.lower i hne] at hq
      cases hq
    have hfirst : ∀ q ∈ p :: rest, q.FirstSlice := hq ▸ h.queued
    have hself : Function.update s.priorityQueues topLevel rest topLevel = rest :=
      Function.update_self _ _ _
    rw [hd]
    refine ⟨⟨fun k hk => ?_, fun q hrest => ?_, ?_⟩, ?_⟩
    · exact (Function.update_of_ne hk _ _).trans (h.lower k hk)
    · exact hfirst q (List.mem_cons_of_mem _ (hself ▸ hrest))
    · rintro _ ⟨⟩
      exact ⟨hfirst p List.mem_cons_self, rfl⟩
    · rw [State.line, State.line, hc, hq]
      dsimp only
      rw [hself]
      rfl
  · rw [hd]
    exact ⟨h, rfl⟩

/-- **One time step.** -/
theorem FirstSlices.next (h : FirstSlices s) (hv : ValidJobs (s.nodes.map QuantumProcess.toJob))
    (hle : ∀ j ∈ s.line, j.processingTime ≤ sliceLength topLevel) :
    FirstSlices (getNextScheduledProcess sliceLength s).2 ∧
      ((getNextScheduledProcess sliceLength s).1,
        (getNextScheduledProcess sliceLength s).2.line) = serveFirst s.line := by
  have hvalid := hv.perm h.nodes_perm
  by_cases hnil : s.nodes = []
  · have hline : s.line = [] := by
      have hperm := h.nodes_perm
      rw [hnil] at hperm
      exact hperm.nil_eq.symm
    rw [getNextScheduledProcess_of_nil sliceLength hnil, hline]
    exact ⟨h, rfl⟩
  · obtain ⟨c, hc⟩ := dispatch_current_ne_none hnil
    obtain ⟨hdispatch, hsame⟩ := h.dispatch
    obtain ⟨hfirst, hlevel⟩ := hdispatch.current c hc
    have hline : s.line =
        c.toJob :: ((Mlfq.dispatch s).priorityQueues topLevel).map QuantumProcess.toJob := by
      rw [← hsame, State.line, hc]
      rfl
    have hmem : c.toJob ∈ s.line := by
      rw [hline]
      exact List.mem_cons_self
    rw [getNextScheduledProcess_of_current sliceLength hc, hline]
    exact FirstSlices.execute hdispatch.lower hdispatch.queued hlevel hfirst (hvalid.lt _ hmem)
      (hvalid.lt_uintMax _ hmem).le (hle _ hmem)

theorem firstSlices_init : FirstSlices init where
  lower _ _ := rfl
  queued := by rintro _ ⟨⟩
  current := by rintro _ ⟨⟩

/-- The same, for the result of the call. -/
theorem FirstSlices.next_eq {s' : State} {pid : Nat} (h : FirstSlices s)
    (hv : ValidJobs (s.nodes.map QuantumProcess.toJob))
    (hle : ∀ j ∈ s.line, j.processingTime ≤ sliceLength topLevel)
    (hnext : getNextScheduledProcess sliceLength s = (pid, s')) :
    FirstSlices s' ∧ (pid, s'.line) = serveFirst s.line := by
  have hstep := h.next hv hle
  rw [hnext] at hstep
  exact hstep

/-- A multi-level feedback queue is a queue for processes that need at most one
slice at the top level. -/
def fifo (sliceLength : Level → Nat) : Fifo (books sliceLength) (sliceLength topLevel) where
  line := State.line
  Good := FirstSlices
  init_good := firstSlices_init
  init_line := rfl
  line_perm _ h := h.nodes_perm
  arrivals_good h hgood := (FirstSlices.addArrivals h hgood).1
  arrivals_line h hgood := (FirstSlices.addArrivals h hgood).2
  next _ _ _ _ hv hgood hle hnext :=
    FirstSlices.next_eq hgood hv hle (Option.some.inj hnext)

end Mlfq

/-! ## `custom.c` -/

namespace Scored

/-- Nobody has been to the smart queue yet. -/
structure FirstSlices (s : State) : Prop where
  smart : s.smartQueue = []
  fast : ∀ p ∈ s.fastQueue, p.FirstSlice
  current : ∀ c, s.current = some c → c.FirstSlice ∧ s.priorityLevel = 0

/-- The current process, and those in the fast queue. -/
def State.line (s : State) : List Job :=
  (s.current.toList ++ s.fastQueue).map fun p => p.toJob

variable {s : State}

theorem FirstSlices.nodes_eq (h : FirstSlices s) : (s.nodes.map fun p => p.toJob) = s.line := by
  rw [State.nodes, State.line, h.smart, List.append_nil]

/-- **The arrivals** go to the back of the fast queue. -/
theorem FirstSlices.arrivals (h : FirstSlices s) (new : List ProcessInitial) :
    FirstSlices { s with fastQueue := s.fastQueue ++ new.map ScoredProcess.ofInitial } ∧
      State.line { s with fastQueue := s.fastQueue ++ new.map ScoredProcess.ofInitial } =
        s.line ++ new.map ProcessInitial.job := by
  refine ⟨⟨h.smart, fun p hp => ?_, h.current⟩, ?_⟩
  · rcases List.mem_append.mp hp with hp | hp
    · exact h.fast p hp
    · obtain ⟨q, -, rfl⟩ := List.mem_map.mp hp
      rfl
  · rw [State.line, State.line]
    dsimp only
    rw [← List.append_assoc, List.map_append, List.map_map]
    rfl

/-- Waiting does not change where a process stands. -/
theorem fast_wait (hfast : ∀ p ∈ s.fastQueue, p.FirstSlice) :
    ∀ p ∈ s.fastQueue.map ScoredProcess.wait, p.FirstSlice := by
  intro p hp
  obtain ⟨q, hq, rfl⟩ := List.mem_map.mp hp
  exact hfast q hq

/-- **One unit of time** for a process in its first slice. -/
theorem FirstSlices.execute (hsmart : s.smartQueue = [])
    (hfast : ∀ p ∈ s.fastQueue, p.FirstSlice) (hlevel : s.priorityLevel = 0) {c : ScoredProcess}
    (hc : c.FirstSlice) (hlt : c.processedTime < c.processingTime)
    (hmax : c.processingTime ≤ uintMax) (hle : c.processingTime ≤ 2) :
    FirstSlices (execute s c).2 ∧
      ((execute s c).1, (execute s c).2.line) =
        serveFirst (c.toJob :: s.fastQueue.map fun p => p.toJob) := by
  have hsmart' : s.smartQueue.map ScoredProcess.wait = [] := by
    rw [hsmart]
    rfl
  rw [serveFirst, ScoredProcess.served_toJob hlt hmax, Scored.execute, retire,
    ← map_wait_toJob s.fastQueue]
  by_cases hdone : c.execute.processedTime = c.execute.processingTime
  · rw [if_pos hdone, if_pos hdone]
    refine ⟨⟨hsmart', fast_wait hfast, ?_⟩, rfl⟩
    rintro _ ⟨⟩
  · -- a slice of the fast queue is two time steps long
    have hused : c.execute.quantumUsed < c.processingTime := hc.lt hlt hmax hdone
    have hslice : ¬ c.execute.quantumUsed ≥ ((runCurrent s c).priorityLevel + 1) * 2 := by
      rw [runCurrent]
      dsimp only
      omega
    rw [if_neg hdone, if_neg hdone, if_neg hslice]
    refine ⟨⟨hsmart', fast_wait hfast, ?_⟩, rfl⟩
    rintro _ ⟨⟩
    exact ⟨QuantumProcess.FirstSlice.execute hc, hlevel⟩

/-- The first process of the line is dispatched, since the smart queue is empty. -/
theorem FirstSlices.dispatch (D : Type) [DoubleArith D] (h : FirstSlices s) :
    FirstSlices (dispatch D s) ∧ (dispatch D s).line = s.line := by
  rcases dispatch_cases D s with
    ⟨c, -, hd⟩ | ⟨p, rest, hc, hf, hd⟩ | ⟨b, -, -, hb, -⟩ | ⟨-, -, -, hd⟩
  · rw [hd]
    exact ⟨h, rfl⟩
  · have hfirst : ∀ q ∈ p :: rest, q.FirstSlice := hf ▸ h.fast
    rw [hd]
    refine ⟨⟨h.smart, fun q hq => hfirst q (List.mem_cons_of_mem _ hq), ?_⟩, ?_⟩
    · rintro _ ⟨⟩
      exact ⟨hfirst p List.mem_cons_self, rfl⟩
    · rw [State.line, State.line, hc, hf]
      rfl
  · have hmem := best_mem hb
    rw [h.smart] at hmem
    cases hmem
  · rw [hd]
    exact ⟨h, rfl⟩

/-- **One time step.** -/
theorem FirstSlices.next (D : Type) [DoubleArith D] (h : FirstSlices s)
    (hv : ValidJobs (s.nodes.map fun p => p.toJob))
    (hle : ∀ j ∈ s.line, j.processingTime ≤ 2) :
    FirstSlices (getNextScheduledProcess D s).2 ∧
      ((getNextScheduledProcess D s).1, (getNextScheduledProcess D s).2.line) =
        serveFirst s.line := by
  have hvalid := h.nodes_eq ▸ hv
  by_cases hnil : s.nodes = []
  · have hline : s.line = [] := by
      rw [← h.nodes_eq, hnil]
      rfl
    rw [getNextScheduledProcess_of_nil D hnil, hline]
    exact ⟨h, rfl⟩
  · obtain ⟨c, hc⟩ := dispatch_current_ne_none D hv hnil
    obtain ⟨hdispatch, hsame⟩ := h.dispatch D
    obtain ⟨hfirst, hlevel⟩ := hdispatch.current c hc
    have hline : s.line = c.toJob :: (Scored.dispatch D s).fastQueue.map fun p => p.toJob := by
      rw [← hsame, State.line, hc]
      rfl
    have hmem : c.toJob ∈ s.line := by
      rw [hline]
      exact List.mem_cons_self
    rw [getNextScheduledProcess_of_current hc, hline]
    exact FirstSlices.execute hdispatch.smart hdispatch.fast hlevel hfirst (hvalid.lt _ hmem)
      (hvalid.lt_uintMax _ hmem).le (hle _ hmem)

end Scored

namespace Custom

theorem firstSlices_addArrivals {D : Type} [DoubleArith D] {T : Table} {t : Nat}
    {s : Sim (scheduler D)} (h : Agree (books D) T t s)
    (hgood : Scored.FirstSlices (State.scored s.sched)) :
    Scored.FirstSlices (State.scored (addArrivals (scheduler D) s.processes t s.sched)) ∧
      (State.scored (addArrivals (scheduler D) s.processes t s.sched)).line =
        (State.scored s.sched).line ++ (T.arrivals t).map ProcessInitial.job := by
  rw [scored_addArrivals h]
  exact hgood.arrivals _

theorem firstSlices_init (D : Type) : Scored.FirstSlices (init (D := D)).scored where
  smart := rfl
  fast := by rintro _ ⟨⟩
  current := by rintro _ ⟨⟩

theorem firstSlices_next {D : Type} [DoubleArith D] {s s' : State D} {pid : Nat} (hok : Ok s)
    (hv : ValidJobs (s.nodes.map fun p => p.toJob)) (h : Scored.FirstSlices s.scored)
    (hle : ∀ j ∈ s.scored.line, j.processingTime ≤ 2)
    (hnext : getNextScheduledProcess s = some (pid, s')) :
    Scored.FirstSlices s'.scored ∧ (pid, s'.scored.line) = serveFirst s.scored.line := by
  obtain ⟨s₁, hnext₁, hscored, -⟩ := hok.getNextScheduledProcess hv
  cases hnext.symm.trans hnext₁
  rw [hscored]
  exact h.next D (valid_scored hv) hle

/-- `custom.c` is a queue for processes that need at most one slice of the fast
queue. -/
def fifo (D : Type) [DoubleArith D] : Fifo (books D) 2 where
  line s := (State.scored s).line
  Good s := Scored.FirstSlices (State.scored s)
  init_good := firstSlices_init D
  init_line := rfl
  line_perm s hgood :=
    List.Perm.of_eq ((scored_nodes_toJob s).symm.trans (Scored.FirstSlices.nodes_eq hgood))
  arrivals_good h hgood := (firstSlices_addArrivals h hgood).1
  arrivals_line h hgood := (firstSlices_addArrivals h hgood).2
  next _ _ _ hok hv hgood hle hnext := firstSlices_next hok hv hgood hle hnext

end Custom

/-! ## The five schedulers -/

namespace Algorithm

/-- The length of the first slice. For `fcfs.c` any number would do. -/
def firstSlice : Algorithm → Nat
  | fcfs => 3
  | rr => 3
  | constant => 3
  | exponential => 2
  | custom => 2

/-- Each of them is a queue for processes that need one slice. -/
def fifo (D : Type) [DoubleArith D] : (a : Algorithm) → Fifo (a.books D) a.firstSlice
  | fcfs => Fcfs.fifo 3
  | rr => Rr.fifo
  | constant => Mlfq.fifo Constant.sliceLength
  | exponential => Mlfq.fifo Exponential.sliceLength
  | custom => Custom.fifo D

/-- Two schedulers run a table in the same way: they return the same value,
print the same trace, and leave the same rows, with the same `end_time`s. -/
def SameRun (D : Type) [DoubleArith D] (T : Table) (timeBound : UInt32) (a b : Algorithm) :
    Prop :=
  ∃ result s s', runSimulation (a.scheduler D) T.start timeBound = some (result, s) ∧
    runSimulation (b.scheduler D) T.start timeBound = some (result, s') ∧
    s.trace = s'.trace ∧ s.processes = s'.processes

theorem sameRun_of_le (D : Type) [DoubleArith D] {T : Table} (timeBound : UInt32)
    {a b : Algorithm} {n : Nat} (hT : ∀ p ∈ T.processes, p.processingTime ≤ n)
    (ha : n ≤ a.firstSlice) (hb : n ≤ b.firstSlice) : SameRun D T timeBound a b :=
  (a.fifo D).runSimulation_same (b.fifo D) (fun p hp => (hT p hp).trans ha)
    (fun p hp => (hT p hp).trans hb) timeBound

end Algorithm

/-- **Short processes.** If no process needs more than 2 units of time, the five
schedulers run the table in the same way. If none needs more than 3, then
`fcfs.c`, `rr.c` and `constant.c` still do. -/
theorem short_processes (D : Type) [DoubleArith D] (T : Table) (timeBound : UInt32) :
    ((∀ p ∈ T.processes, p.processingTime ≤ 2) →
      ∀ a b : Algorithm, Algorithm.SameRun D T timeBound a b) ∧
    ((∀ p ∈ T.processes, p.processingTime ≤ 3) →
      ∀ a ∈ [Algorithm.fcfs, .rr, .constant], ∀ b ∈ [Algorithm.fcfs, .rr, .constant],
        Algorithm.SameRun D T timeBound a b) := by
  constructor
  · intro hT a b
    refine Algorithm.sameRun_of_le D timeBound hT ?_ ?_
    · cases a <;> decide
    · cases b <;> decide
  · intro hT a ha b hb
    have hslice : ∀ a ∈ [Algorithm.fcfs, .rr, .constant], 3 ≤ a.firstSlice := by decide
    exact Algorithm.sameRun_of_le D timeBound hT (hslice a ha) (hslice b hb)

/-- Three processes that arrive out of order. -/
def shortTable : Table where
  processes := [⟨9, 2, 3⟩, ⟨4, 1, 0⟩, ⟨7, 2, 0⟩]
  nonempty := by decide
  pids_nodup := by decide
  pid_pos := by decide
  pid_lt := by decide
  arrivalTime_lt := by decide
  processingTime_pos := by decide
  processingTime_lt := by decide

theorem short_processes_three :
    Algorithm.SameRun ℚ shortTable 1000000 .fcfs .custom :=
  (short_processes ℚ shortTable 1000000).1 (by decide) .fcfs .custom

end Cosc240
