import Cosc240.Schedulers.Custom

/-!
# The two-queue scheduler that `custom.c` implements

The same scheduler as in `custom.c` (custom.c:195–387) with the counters of a process kept next to
the process: no list of histories, no lookup by pid, no pointers. `CustomRefines`
shows that `custom.c` computes exactly this, so whatever concerns scheduling
decisions is proved here.

- `ScoredProcess`: a process with its counters, and what happens to it: a unit of time on the
  processor (`execute`) or in a queue (`wait`), and the way to the smart queue with a fresh quantum
  (`demote`).
- `State`: two queues, the process on the processor, and the queue it came from.
- `scan` and `best`: the first process whose score beats everything before it.
- `dispatch`, `runCurrent`, `retire`, `getNextScheduledProcess`: one time step, in the parts that
  `Custom` has.

Main results:

- `best_cons`: something is chosen from a queue that is not empty, since every score of a process
  that is not complete is above the initial one (`gt_negDblMax`).
- `dispatch_cases` and `execute_nodes`: what the halves of a time step do to the processes.
- `getNextScheduledProcess_serve`: with a process anywhere, one process is served.
- `add_comm`: two arrivals of one time step commute.
-/

namespace Cosc240

open Lib

/-- A process with its counters. -/
structure ScoredProcess extends QuantumProcess where
  waitTime : Nat
  rescheduleCount : Nat
  deriving DecidableEq, Repr

namespace ScoredProcess

/-- A process that has just arrived. -/
def ofInitial (process : ProcessInitial) : ScoredProcess :=
  { toQuantumProcess := newQuantumProcess process, waitTime := 0, rescheduleCount := 0 }

/-- One unit of time on the processor. -/
def execute (p : ScoredProcess) : ScoredProcess :=
  { p with toQuantumProcess := p.toQuantumProcess.execute }

/-- One unit of time in a queue. -/
def wait (p : ScoredProcess) : ScoredProcess := { p with waitTime := incr p.waitTime }

/-- To the smart queue, with a fresh quantum. -/
def demote (p : ScoredProcess) : ScoredProcess :=
  { p with
    toQuantumProcess := { p.toQuantumProcess with quantumUsed := 0 }
    rescheduleCount := incr p.rescheduleCount }

/-- Its score. -/
def score (D : Type) [DoubleArith D] (p : ScoredProcess) : D :=
  Custom.scoreOf p.waitTime p.processedTime p.rescheduleCount p.processingTime p.processedTime

/-- Executing a process that is not complete serves it. -/
theorem served_toJob {p : ScoredProcess} (hlt : p.processedTime < p.processingTime)
    (hle : p.processingTime ≤ uintMax) :
    p.toJob.served =
      if p.execute.processedTime = p.execute.processingTime then [] else [p.execute.toJob] :=
  QuantumProcess.served_toJob hlt hle

/-- The score of a process that is not complete can be compared with. -/
theorem gt_negDblMax (D : Type) [DoubleArith D] {p : ScoredProcess}
    (hlt : p.processedTime < p.processingTime) (hle : p.processingTime < uintMax) :
    DoubleArith.gt (p.score D) DoubleArith.negDblMax = true := by
  have hle_toUInt : ∀ n, toUInt n ≤ uintMax := fun n =>
    Nat.le_of_lt_succ (Nat.mod_lt n (Nat.succ_pos uintMax))
  have hrunning : 0 < toUInt (p.processedTime + 1) := by
    rw [toUInt_of_le (by omega)]
    omega
  have hleft : 0 < toUInt (usub p.processingTime p.processedTime + 1) := by
    rw [usub_of_le hlt.le hle.le, toUInt_of_le (by omega)]
    omega
  exact DoubleArith.score_gt _ _ _ _ _ (hle_toUInt _) (hle_toUInt _) (hle_toUInt _)
    (hle_toUInt _) (hle_toUInt _) hrunning hleft

end ScoredProcess

namespace Scored

/-- Two queues, the process on the processor, and the queue it came from. -/
structure State where
  fastQueue : List ScoredProcess
  smartQueue : List ScoredProcess
  current : Option ScoredProcess
  priorityLevel : Nat

/-- Nothing anywhere. -/
def init : State := { fastQueue := [], smartQueue := [], current := none, priorityLevel := 0 }

/-- Arrivals go to the fast queue. -/
def addToReadyQueue (s : State) (process : ProcessInitial) : State :=
  { s with
    fastQueue := skipInsert (fun p => p.arrivalTime) (fun p => p.pid)
      (ScoredProcess.ofInitial process) s.fastQueue }

/-- The first process whose score beats everything before it, starting from
`best` with score `bestScore`. -/
def scan (D : Type) [DoubleArith D] :
    List ScoredProcess → Option ScoredProcess → D → Option ScoredProcess
  | [], best, _ => best
  | p :: rest, best, bestScore =>
    if DoubleArith.gt (p.score D) bestScore then scan D rest (some p) (p.score D)
    else scan D rest best bestScore

/-- The process to take from the smart queue. -/
def best (D : Type) [DoubleArith D] (smartQueue : List ScoredProcess) : Option ScoredProcess :=
  scan D smartQueue none DoubleArith.negDblMax

/-- With no process current, take the first one of the fast queue, or else the
best one of the smart queue. -/
def dispatch (D : Type) [DoubleArith D] (s : State) : State :=
  match s.current with
  | some _ => s
  | none =>
    match s.fastQueue with
    | p :: fastQueue => { s with fastQueue, current := some p, priorityLevel := 0 }
    | [] =>
      match best D s.smartQueue with
      | none => s
      | some b =>
        { s with
          smartQueue := s.smartQueue.eraseP fun p => p.pid = b.pid
          current := some b
          priorityLevel := 1 }

/-- One unit of time: the queued processes wait, the current one runs. -/
def runCurrent (s : State) (current : ScoredProcess) : State :=
  { s with
    fastQueue := s.fastQueue.map ScoredProcess.wait
    smartQueue := s.smartQueue.map ScoredProcess.wait
    current := some current.execute }

/-- Then `current` may be complete, or go to the smart queue. -/
def retire (s : State) (current : ScoredProcess) : Nat × State :=
  if current.processedTime = current.processingTime then
    (current.pid, { s with current := none })
  else if current.quantumUsed ≥ (s.priorityLevel + 1) * 2 then
    (current.pid, { s with smartQueue := s.smartQueue ++ [current.demote], current := none })
  else
    (current.pid, s)

/-- Both together. -/
def execute (s : State) (current : ScoredProcess) : Nat × State :=
  retire (runCurrent s current) current.execute

/-- One time step. -/
def getNextScheduledProcess (D : Type) [DoubleArith D] (s : State) : Nat × State :=
  let s := dispatch D s
  match s.current with
  | none => (0, s)
  | some current => execute s current

/-- The two-queue scheduler. -/
def scheduler (D : Type) [DoubleArith D] : Scheduler where
  State := State
  init := init
  addToReadyQueue := addToReadyQueue
  getNextScheduledProcess s := some (getNextScheduledProcess D s)

/-- The processes in the queues together with the current one. -/
def State.nodes (s : State) : List ScoredProcess :=
  s.current.toList ++ (s.fastQueue ++ s.smartQueue)

theorem nodes_of_current {s : State} {c : ScoredProcess} (hc : s.current = some c) :
    s.nodes = c :: (s.fastQueue ++ s.smartQueue) := by
  rw [State.nodes, hc]
  rfl

/-! ## The best process -/

section Best

variable {D : Type} [DoubleArith D]

theorem scan_mem {l : List ScoredProcess} {b₀ : Option ScoredProcess} {score : D}
    {b : ScoredProcess} (h : scan D l b₀ score = some b) : b ∈ l ∨ b₀ = some b := by
  induction l generalizing b₀ score with
  | nil => exact Or.inr h
  | cons p rest ih =>
    rw [scan] at h
    split at h
    · rcases ih h with hb | hb
      · exact Or.inl (List.mem_cons_of_mem _ hb)
      · cases hb
        exact Or.inl (List.mem_cons_self)
    · rcases ih h with hb | hb
      · exact Or.inl (List.mem_cons_of_mem _ hb)
      · exact Or.inr hb

theorem scan_isSome {l : List ScoredProcess} {b₀ : ScoredProcess} {score : D} :
    ∃ b, scan D l (some b₀) score = some b := by
  induction l generalizing b₀ score with
  | nil => exact ⟨b₀, rfl⟩
  | cons p rest ih =>
    rw [scan]
    split
    · exact ih
    · exact ih

theorem best_mem {l : List ScoredProcess} {b : ScoredProcess} (h : best D l = some b) : b ∈ l := by
  rcases scan_mem h with hb | hb
  · exact hb
  · cases hb

/-- Something is chosen from a queue that is not empty. -/
theorem best_cons {p : ScoredProcess} {rest : List ScoredProcess}
    (hlt : p.processedTime < p.processingTime) (hle : p.processingTime < uintMax) :
    ∃ b, best D (p :: rest) = some b := by
  rw [best, scan, if_pos (ScoredProcess.gt_negDblMax D hlt hle)]
  exact scan_isSome

/-- With distinct pids, removal by pid removes the process itself. -/
theorem perm_cons_eraseP {l : List ScoredProcess} {b : ScoredProcess}
    (hnd : (l.map fun p => p.pid).Nodup) (hb : b ∈ l) :
    l.Perm (b :: l.eraseP fun p => p.pid = b.pid) := by
  obtain ⟨a, l₁, l₂, -, ha, hsplit, herase⟩ :=
    List.exists_of_eraseP (p := fun p => decide (p.pid = b.pid)) hb (by simp)
  have hab : a = b :=
    List.inj_on_of_nodup_map hnd (by rw [hsplit]; simp) hb (of_decide_eq_true ha)
  rw [herase, ← hab]
  exact hsplit ▸ List.perm_middle

end Best

/-! ## Bookkeeping -/

theorem addToReadyQueue_nodes (s : State) (process : ProcessInitial) :
    (addToReadyQueue s process).nodes.Perm (ScoredProcess.ofInitial process :: s.nodes) := by
  refine (((skipInsert_perm _ _).append_right _).append_left _).trans ?_
  exact List.perm_middle

/-- Two arrivals of one time step commute. -/
theorem add_comm (s : State) (p q : ProcessInitial)
    (harr : p.arrivalTime = q.arrivalTime) (hpid : p.pid ≠ q.pid) :
    addToReadyQueue (addToReadyQueue s p) q = addToReadyQueue (addToReadyQueue s q) p := by
  have hcomm := skipInsert_comm (f := fun p : ScoredProcess => p.arrivalTime)
    (g := fun p => p.pid) (x := ScoredProcess.ofInitial q) (y := ScoredProcess.ofInitial p)
    harr.symm hpid.symm s.fastQueue
  exact congrArg (fun l => { s with fastQueue := l }) hcomm

/-- Somebody is current already, or comes from the fast or from the smart queue,
or both queues are empty. -/
theorem dispatch_cases (D : Type) [DoubleArith D] (s : State) :
    (∃ c, s.current = some c ∧ dispatch D s = s) ∨
    (∃ p rest, s.current = none ∧ s.fastQueue = p :: rest ∧
      dispatch D s = { s with fastQueue := rest, current := some p, priorityLevel := 0 }) ∨
    (∃ b, s.current = none ∧ s.fastQueue = [] ∧ best D s.smartQueue = some b ∧
      dispatch D s = { s with
        smartQueue := s.smartQueue.eraseP fun p => p.pid = b.pid
        current := some b
        priorityLevel := 1 }) ∨
    (s.current = none ∧ s.fastQueue = [] ∧ best D s.smartQueue = none ∧ dispatch D s = s) := by
  cases hc : s.current with
  | some c => exact Or.inl ⟨c, rfl, by simp [dispatch, hc]⟩
  | none =>
    cases hf : s.fastQueue with
    | cons p rest => exact Or.inr (Or.inl ⟨p, rest, rfl, rfl, by simp [dispatch, hc, hf]⟩)
    | nil =>
      cases hb : best D s.smartQueue with
      | none => exact Or.inr (Or.inr (Or.inr ⟨rfl, rfl, rfl, by simp [dispatch, hc, hf, hb]⟩))
      | some b =>
        exact Or.inr (Or.inr (Or.inl ⟨b, rfl, rfl, rfl, by simp [dispatch, hc, hf, hb]⟩))

theorem nodup_smartQueue {s : State} (hv : ValidJobs (s.nodes.map fun p => p.toJob)) :
    (s.smartQueue.map fun p => p.pid).Nodup := by
  have h := hv.nodup
  rw [List.map_map] at h
  exact h.sublist ((((List.sublist_append_right _ _).trans
    (List.sublist_append_right _ _))).map _)

theorem dispatch_nodes (D : Type) [DoubleArith D] {s : State}
    (hv : ValidJobs (s.nodes.map fun p => p.toJob)) : (dispatch D s).nodes.Perm s.nodes := by
  rcases dispatch_cases D s with
    ⟨c, -, h⟩ | ⟨p, rest, hc, hf, h⟩ | ⟨b, hc, hf, hb, h⟩ | ⟨-, -, -, h⟩
  · rw [h]
  · rw [h, State.nodes, State.nodes, hc, hf]
    exact List.Perm.refl _
  · rw [h, State.nodes, State.nodes, hc, hf]
    exact (perm_cons_eraseP (nodup_smartQueue hv) (best_mem hb)).symm
  · rw [h]

/-- A process anywhere makes a process current. -/
theorem dispatch_current_ne_none (D : Type) [DoubleArith D] {s : State}
    (hv : ValidJobs (s.nodes.map fun p => p.toJob)) (hne : s.nodes ≠ []) :
    ∃ c, (dispatch D s).current = some c := by
  rcases dispatch_cases D s with ⟨c, hc, h⟩ | ⟨p, rest, -, -, h⟩ | ⟨b, -, -, -, h⟩ | ⟨hc, hf, hb, -⟩
  · exact ⟨c, by rw [h, hc]⟩
  · exact ⟨p, by rw [h]⟩
  · exact ⟨b, by rw [h]⟩
  · -- all scores beat the one the scan starts from, so somebody is chosen
    cases hq : s.smartQueue with
    | nil => exact absurd (by rw [State.nodes, hc, hf, hq]; rfl) hne
    | cons p rest =>
      have hmem : p.toJob ∈ s.nodes.map fun p => p.toJob :=
        List.mem_map_of_mem (by simp [State.nodes, hq])
      obtain ⟨b, hb'⟩ : ∃ b, best D (p :: rest) = some b :=
        best_cons (hv.lt _ hmem) (hv.lt_uintMax _ hmem)
      rw [hq, hb'] at hb
      cases hb

theorem map_wait_toJob (l : List ScoredProcess) :
    (l.map ScoredProcess.wait).map (fun p => p.toJob) = l.map fun p => p.toJob := by
  rw [List.map_map]
  rfl

/-- The current process leaves, goes to the smart queue, or stays. -/
theorem execute_nodes (s : State) (c : ScoredProcess) (hlt : c.processedTime < c.processingTime)
    (hle : c.processingTime ≤ uintMax) :
    (execute s c).1 = c.pid ∧
      ((execute s c).2.nodes.map fun p => p.toJob).Perm
        (c.toJob.served ++ (s.fastQueue ++ s.smartQueue).map fun p => p.toJob) := by
  have hqueued : (s.fastQueue.map ScoredProcess.wait ++ s.smartQueue.map ScoredProcess.wait).map
      (fun p => p.toJob) = (s.fastQueue ++ s.smartQueue).map fun p => p.toJob := by
    rw [← List.map_append, map_wait_toJob]
  rw [ScoredProcess.served_toJob hlt hle, execute, retire]
  by_cases hdone : c.execute.processedTime = c.execute.processingTime
  · rw [if_pos hdone, if_pos hdone]
    exact ⟨rfl, hqueued ▸ List.Perm.refl _⟩
  · rw [if_neg hdone, if_neg hdone, ← hqueued]
    split
    · -- demotion: the process goes to the back of the smart queue
      refine ⟨rfl, ?_⟩
      show ((s.fastQueue.map ScoredProcess.wait ++
        (s.smartQueue.map ScoredProcess.wait ++ [c.execute.demote])).map _).Perm _
      rw [← List.append_assoc, List.map_append]
      exact List.perm_append_comm
    · exact ⟨rfl, List.Perm.refl _⟩

theorem getNextScheduledProcess_of_nil (D : Type) [DoubleArith D] {s : State}
    (h : s.nodes = []) : getNextScheduledProcess D s = (0, s) := by
  obtain ⟨hc, hqueued⟩ := List.append_eq_nil_iff.mp h
  obtain ⟨hf, hq⟩ := List.append_eq_nil_iff.mp hqueued
  have hcur : s.current = none := Option.toList_eq_nil_iff.mp hc
  have hdisp : dispatch D s = s := by simp [dispatch, hcur, hf, hq, best, scan]
  simp [getNextScheduledProcess, hdisp, hcur]

theorem getNextScheduledProcess_of_current {D : Type} [DoubleArith D] {s : State}
    {c : ScoredProcess} (h : (dispatch D s).current = some c) :
    getNextScheduledProcess D s = execute (dispatch D s) c := by
  simp [getNextScheduledProcess, h]

/-- The process that is current after the dispatch was there before. -/
theorem mem_of_dispatch {D : Type} [DoubleArith D] {s : State} {c : ScoredProcess}
    (hv : ValidJobs (s.nodes.map fun p => p.toJob)) (h : (dispatch D s).current = some c) :
    c.toJob ∈ s.nodes.map fun p => p.toJob := by
  have hmem : c ∈ (dispatch D s).nodes := by
    rw [State.nodes, h]
    exact List.mem_cons_self
  exact List.mem_map_of_mem ((dispatch_nodes D hv).mem_iff.mp hmem)

/-- With a process anywhere, one process is served. -/
theorem getNextScheduledProcess_serve (D : Type) [DoubleArith D] {s : State}
    (hv : ValidJobs (s.nodes.map fun p => p.toJob)) (hne : s.nodes ≠ []) :
    ∃ c rest, (s.nodes.map fun p => p.toJob).Perm (c :: rest) ∧
      (getNextScheduledProcess D s).1 = c.pid ∧
      ((getNextScheduledProcess D s).2.nodes.map fun p => p.toJob).Perm (c.served ++ rest) := by
  obtain ⟨c, hc⟩ := dispatch_current_ne_none D hv hne
  have hperm := (dispatch_nodes D hv).map fun p => p.toJob
  rw [State.nodes, hc] at hperm
  have hmem := mem_of_dispatch hv hc
  rw [getNextScheduledProcess_of_current hc]
  obtain ⟨hpid, hnodes⟩ :=
    execute_nodes (dispatch D s) c (hv.lt _ hmem) (hv.lt_uintMax _ hmem).le
  exact ⟨c.toJob, _, hperm.symm, hpid, hnodes⟩

end Scored

end Cosc240
