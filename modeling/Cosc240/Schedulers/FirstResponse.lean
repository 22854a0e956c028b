import Cosc240.Schedulers.CustomSlices
import Cosc240.Schedulers.Levels
import Cosc240.Schedulers.MlfqSlices
import Cosc240.Simulator.Returned

/-!
# How long a process waits for its first unit of time

A process that has just arrived is in queue 0, and nobody who arrives later gets
ahead of it there. It waits for the slice in progress, which may come from the
lowest level, and for one slice of queue 0 for each process ahead of it. What is
left of these slices bounds the number of calls until it is served, and gets
smaller with each call.

- `FirstReturned`: a pid is returned in a time step for the first time.
- `Approaches`: a measure on the globals that each call makes smaller until the pid is served.
  `Approaches.returned_within` is the bound that follows.
- `SliceStep`: what a call does to the pids in the first queue and to what is left of the slice in
  progress. `SliceStep.closer` says that it brings everybody closer whom it does not serve.
- `Mlfq.Waits` and `Scored.Waits`: the measure for the three files, with `Mlfq.sliceStep` and
  `Scored.sliceStep` for their calls (constant.c:140–196, exponential.c:137–194, custom.c:336–387).

Main result:

- `first_response`: a process that arrives at `t` and finds `a` processes ahead of it in queue 0 is
  returned for the first time no later than `t + 11 + 3 * a` under `constant.c`, `t + 31 + 2 * a`
  under `exponential.c`, and `t + 3 + 2 * a` under `custom.c`.
-/

namespace Cosc240

open Lib

/-! ## Served within so many calls -/

/-- `pid` is returned in time step `i` for the first time. -/
def FirstReturned (σ : List Nat) (pid i : Nat) : Prop :=
  σ[i]? = some pid ∧ ∀ j < i, σ[j]? ≠ some pid

theorem exists_firstReturned {σ : List Nat} {pid i : Nat} (h : σ[i]? = some pid) :
    ∃ j ≤ i, FirstReturned σ pid j := by
  have hex : ∃ i, σ[i]? = some pid := ⟨i, h⟩
  exact ⟨Nat.find hex, Nat.find_min' hex h, Nat.find_spec hex, fun _ hj => Nat.find_min hex hj⟩

section Within

variable {S : Scheduler}

/-- `W n` says of the globals that `pid` is served within `n + 1` calls. -/
structure Approaches (B : Books S) (T : Table) (timeBound : UInt32) (pid : Nat)
    (W : Nat → S.State → Prop) : Prop where
  /-- It is one of the processes there. -/
  mem : ∀ n s, W n s → ∃ j ∈ B.contents s, j.pid = pid
  /-- More arrivals do not change the bound. -/
  arrivals : ∀ n t s, Enters S T timeBound t s → W n s.sched →
    W n (addArrivals S s.processes t s.sched)
  /-- A call that serves somebody else makes it smaller. -/
  next : ∀ n t s pid' sched, Enters S T timeBound t s →
    W n (addArrivals S s.processes t s.sched) → s.answer t = some (pid', sched) →
    pid' = pid ∨ ∃ m < n, W m sched

variable {B : Books S} {T : Table} {timeBound : UInt32} {pid : Nat} {W : Nat → S.State → Prop}

/-- **A bound on the calls before `pid` is served.** -/
theorem Approaches.returned_within (hW : Approaches B T timeBound pid W) {n t : Nat} {s : Sim S}
    (h : Enters S T timeBound t s) (hn : W n (addArrivals S s.processes t s.sched))
    (ht : t + n < timeBound.toNat) :
    ∃ i ≤ t + n, (returned S T.start timeBound)[i]? = some pid := by
  -- the bound gets smaller with each call, and arrivals do not change it
  induction n using Nat.strongRecOn generalizing t s with
  | ind n ih =>
    obtain ⟨pid', sched, hanswer, hget, hreach⟩ := B.returned_enters h
    rcases hW.next n t s pid' sched h hn hanswer with rfl | ⟨m, hm, hsched⟩
    · exact ⟨t, Nat.le_add_right t n, hget⟩
    · obtain ⟨j, hj, -⟩ := hW.mem m sched hsched
      have hrun := (B.agree_reached hreach).stillRunning_of_mem hj
      have henters : Enters S T timeBound (t + 1) _ := ⟨hreach, by omega, hrun⟩
      obtain ⟨i, hi, hget⟩ := ih m hm henters (hW.arrivals m _ _ henters hsched) (by omega)
      exact ⟨i, by omega, hget⟩

/-- A process that arrives finds itself in the queue, and with `a` processes ahead
of it there it is returned for the first time at most `bound a` later, if the run
lasts until then. -/
def Responds (S : Scheduler) (T : Table) (timeBound : UInt32) (queue : S.State → List Nat)
    (bound : Nat → Nat) (p : ProcessInitial) : Prop :=
  ∃ s, Enters S T timeBound p.arrivalTime s ∧
    p.pid ∈ queue (addArrivals S s.processes p.arrivalTime s.sched) ∧
    ∀ a, (queue (addArrivals S s.processes p.arrivalTime s.sched))[a]? = some p.pid →
      p.arrivalTime + bound a < timeBound.toNat →
      ∃ i ≤ p.arrivalTime + bound a, FirstReturned (returned S T.start timeBound) p.pid i

/-- **The first response**, for a scheduler that lines up its arrivals in a queue. -/
theorem Approaches.responds {p : ProcessInitial} (hW : Approaches B T timeBound p.pid W)
    (hp : p ∈ T.processes) (ht : p.arrivalTime < timeBound.toNat) {queue : S.State → List Nat}
    {bound : Nat → Nat}
    (hqueue : ∀ t s, Enters S T timeBound t s → queue (addArrivals S s.processes t s.sched) =
      queue s.sched ++ (T.arrivals t).map ProcessInitial.pid)
    (hbound : ∀ t s a, Enters S T timeBound t s →
      (queue (addArrivals S s.processes t s.sched))[a]? = some p.pid →
      W (bound a) (addArrivals S s.processes t s.sched)) :
    Responds S T timeBound queue bound p := by
  obtain ⟨s, hs⟩ := B.enters_of_le (T := T) hp (Nat.le_refl _) ht
  refine ⟨s, hs, ?_, fun a ha hlt => ?_⟩
  · rw [hqueue _ s hs]
    exact List.mem_append_right _ (List.mem_map_of_mem (Table.mem_arrivals.mpr ⟨hp, rfl⟩))
  · obtain ⟨i, hi, hget⟩ := hW.returned_within hs (hbound _ s a hs ha) hlt
    obtain ⟨j, hj, hfirst⟩ := exists_firstReturned hget
    exact ⟨j, hj.trans hi, hfirst⟩

end Within

/-- What a call that serves `served` does to the pids in the first queue and to
what is left of the slice in progress. -/
inductive SliceStep (slice served : Nat) : List Nat → Nat → List Nat → Nat → Prop
  /-- The slice gets shorter, or ends. -/
  | goOn {pids : List Nat} {residual residual' : Nat} (h : residual' < residual) :
      SliceStep slice served pids residual pids residual'
  /-- The head of the queue starts a slice. -/
  | start {rest : List Nat} {residual' : Nat} (h : residual' < slice) :
      SliceStep slice served (served :: rest) 0 rest residual'

/-- A call that does not serve a process in the queue brings it closer. -/
theorem SliceStep.closer {slice served pid a n residual residual' : Nat} {pids pids' : List Nat}
    (h : SliceStep slice served pids residual pids' residual') (ha : pids[a]? = some pid)
    (hn : residual + slice * a ≤ n) :
    served = pid ∨ ∃ m < n, ∃ a, pids'[a]? = some pid ∧ residual' + slice * a ≤ m := by
  cases h with
  | goOn h => exact .inr ⟨n - 1, by omega, a, ha, by omega⟩
  | start h =>
    cases a with
    | zero => exact .inl (Option.some.inj ha)
    | succ a =>
      rw [Nat.mul_succ] at hn
      exact .inr ⟨n - 1, by omega, a, ha, by omega⟩

/-! ## `constant.c` and `exponential.c` -/

namespace Mlfq

/-- The pids in queue 0. -/
def State.topPids (s : State) : List Nat := (s.priorityQueues topLevel).map fun p => p.pid

/-- What is left of the slice in progress. -/
def State.residual (sliceLength : Level → Nat) (s : State) : Nat :=
  match s.current with
  | none => 0
  | some c => sliceLength s.priorityLevel - c.quantumUsed

/-- `pid` waits in queue 0, for slices of `n` time steps at most. -/
def Waits (sliceLength : Level → Nat) (pid n : Nat) (s : State) : Prop :=
  ∃ a, s.topPids[a]? = some pid ∧ s.residual sliceLength + sliceLength topLevel * a ≤ n

variable {sliceLength : Level → Nat} {Earned : Level → Nat → Prop} {s : State} {pid n : Nat}

theorem nextLevel_ne_topLevel (k : Level) : nextLevel k ≠ topLevel := by
  intro h
  have hval : min (k.val + 1) 3 = 0 := congrArg Fin.val h
  omega

/-- A unit of time uses up the slice in progress, and leaves queue 0 alone. -/
theorem execute_residual (sliceLength : Level → Nat) (s : State) {c : QuantumProcess}
    (hquantum : c.quantumUsed < uintMax) :
    (execute sliceLength s c).2.residual sliceLength ≤
        sliceLength s.priorityLevel - (c.quantumUsed + 1) ∧
      (execute sliceLength s c).2.topPids = s.topPids := by
  have hone : c.execute.quantumUsed = c.quantumUsed + 1 := incr_of_lt hquantum (Nat.le_refl _)
  rw [execute]
  by_cases hdone : c.execute.processedTime = c.execute.processingTime
  · rw [if_pos hdone]
    exact ⟨Nat.zero_le _, rfl⟩
  · dsimp only
    rw [if_neg hdone]
    by_cases hslice : c.execute.quantumUsed = sliceLength s.priorityLevel
    · rw [if_pos hslice]
      refine ⟨Nat.zero_le _, ?_⟩
      rw [State.topPids, State.topPids]
      dsimp only
      -- a demotion never leads back to queue 0
      rw [Function.update_of_ne (nextLevel_ne_topLevel s.priorityLevel).symm]
    · rw [if_neg hslice]
      refine ⟨?_, rfl⟩
      rw [State.residual]
      dsimp only
      rw [hone]

/-- A slice in progress has had a time step already. -/
theorem Entitled.residual_le (hs : Entitled sliceLength Earned s) {longest : Nat}
    (hlongest : ∀ k, sliceLength k ≤ longest) : s.residual sliceLength ≤ longest - 1 := by
  rw [State.residual]
  split
  · exact Nat.zero_le _
  · next c hc =>
    obtain ⟨hpos, -, -⟩ := hs.current c hc
    have hle := hlongest s.priorityLevel
    omega

/-- **One call**, while anybody is in queue 0. -/
theorem sliceStep (he : Entitlement sliceLength Earned) (hs : Entitled sliceLength Earned s)
    (hv : ValidJobs (s.nodes.map QuantumProcess.toJob)) (hne : s.topPids ≠ []) :
    SliceStep (sliceLength topLevel) (getNextScheduledProcess sliceLength s).1
      s.topPids (s.residual sliceLength) (getNextScheduledProcess sliceLength s).2.topPids
      ((getNextScheduledProcess sliceLength s).2.residual sliceLength) := by
  have hqueue : s.priorityQueues topLevel ≠ [] := fun h => hne (List.map_eq_nil_iff.mpr h)
  rcases dispatch_cases s with ⟨c, hc, hd⟩ | ⟨i, p, rest, hc, hq, hbefore, hd⟩ | ⟨-, hq, -⟩
  · -- the slice in progress gets shorter, and queue 0 does not move
    obtain ⟨-, hquantum, k, -, hprogress⟩ := hs.current c hc
    have hcurrent : (dispatch s).current = some c := by rw [hd, hc]
    have hmem := mem_of_dispatch hcurrent
    have hlt := hv.lt _ hmem
    have hmax := hv.lt_uintMax _ hmem
    obtain ⟨hresidual, htop⟩ := execute_residual sliceLength s (c := c) (by omega)
    have hnow : s.residual sliceLength = sliceLength s.priorityLevel - c.quantumUsed := by
      rw [State.residual, hc]
    rw [getNextScheduledProcess_of_current sliceLength hcurrent, hd, htop]
    exact .goOn (by omega)
  · -- queue 0 is the first that is not empty
    obtain rfl : i = topLevel := by
      by_contra hne
      exact hqueue (hbefore topLevel (Fin.pos_of_ne_zero hne))
    have hcurrent : (dispatch s).current = some p := by rw [hd]
    have hmem := mem_of_dispatch hcurrent
    have hfresh := (hs.queued topLevel p (by rw [hq]; exact List.mem_cons_self)).1
    obtain ⟨hresidual, htop⟩ := execute_residual sliceLength (dispatch s) (c := p)
      (by rw [hfresh]; decide)
    have hlevel : (dispatch s).priorityLevel = topLevel := by rw [hd]
    have hpids : (dispatch s).topPids = rest.map fun p => p.pid := by
      rw [State.topPids, hd]
      dsimp only
      rw [Function.update_self]
    have hpids' : s.topPids = p.pid :: rest.map fun p => p.pid := by
      rw [State.topPids, hq]
      rfl
    have hnone : s.residual sliceLength = 0 := by rw [State.residual, hc]
    have hpos := he.pos topLevel
    rw [hlevel, hfresh] at hresidual
    rw [getNextScheduledProcess_of_current sliceLength hcurrent,
      (execute_nodes sliceLength (dispatch s) p (hv.lt _ hmem) (hv.lt_uintMax _ hmem).le).1,
      htop, hpids, hpids', hnone]
    exact .start (by omega)
  · exact absurd (hq topLevel) hqueue

/-- **One call**, while `pid` waits in queue 0. -/
theorem Waits.next (he : Entitlement sliceLength Earned) (hs : Entitled sliceLength Earned s)
    (hv : ValidJobs (s.nodes.map QuantumProcess.toJob)) (h : Waits sliceLength pid n s) :
    (getNextScheduledProcess sliceLength s).1 = pid ∨
      ∃ m < n, Waits sliceLength pid m (getNextScheduledProcess sliceLength s).2 := by
  obtain ⟨a, ha, hn⟩ := h
  have hne : s.topPids ≠ [] := List.ne_nil_of_mem (List.mem_of_getElem? ha)
  exact (sliceStep he hs hv hne).closer ha hn

section Runs

variable {T : Table} {timeBound : UInt32}

/-- The arrivals of a time step go behind everybody in queue 0. -/
theorem addArrivals_topPids {t : Nat} {s : Sim (scheduler sliceLength)}
    (h : Reached (scheduler sliceLength) T.start timeBound t s) :
    State.topPids (addArrivals (scheduler sliceLength) s.processes t s.sched) =
        State.topPids s.sched ++ (T.arrivals t).map ProcessInitial.pid ∧
      State.residual sliceLength (addArrivals (scheduler sliceLength) s.processes t s.sched) =
        State.residual sliceLength s.sched := by
  have hagree := (books sliceLength).agree_reached h
  rw [addArrivals_eq sliceLength h.initial fun p hp => hagree.arrivalTime_lt
    (List.mem_map_of_mem (List.mem_append_right _ (mem_allQueues.mpr ⟨_, hp⟩)))]
  refine ⟨?_, rfl⟩
  rw [State.topPids]
  dsimp only
  rw [Function.update_self, List.map_append, List.map_map]
  rfl

/-- Whoever waits in queue 0 is a process that the scheduler holds. -/
theorem Waits.mem {s : State} (h : Waits sliceLength pid n s) :
    ∃ j ∈ s.nodes.map QuantumProcess.toJob, j.pid = pid := by
  obtain ⟨a, ha, -⟩ := h
  obtain ⟨p, hp, rfl⟩ := List.mem_map.mp (List.mem_of_getElem? ha)
  exact ⟨p.toJob,
    List.mem_map_of_mem (List.mem_append_right _ (mem_allQueues.mpr ⟨_, hp⟩)), rfl⟩

theorem Waits.addArrivals {t : Nat} {s : Sim (scheduler sliceLength)}
    (h : Enters (scheduler sliceLength) T timeBound t s) (hW : Waits sliceLength pid n s.sched) :
    Waits sliceLength pid n (addArrivals (scheduler sliceLength) s.processes t s.sched) := by
  obtain ⟨a, ha, hn⟩ := hW
  obtain ⟨htop, hresidual⟩ := addArrivals_topPids h.reached
  refine ⟨a, ?_, ?_⟩
  · rw [htop, List.getElem?_append_left (List.getElem?_eq_some_iff.mp ha).1]
    exact ha
  · rw [hresidual]
    exact hn

/-- `Waits.next` in a run. -/
theorem Waits.answer (he : Entitlement sliceLength Earned) {t pid' : Nat}
    {s : Sim (scheduler sliceLength)} {sched : State}
    (h : Enters (scheduler sliceLength) T timeBound t s)
    (hW : Waits sliceLength pid n
      (Cosc240.addArrivals (scheduler sliceLength) s.processes t s.sched))
    (hanswer : s.answer t = some (pid', sched)) :
    pid' = pid ∨ ∃ m < n, Waits sliceLength pid m sched := by
  obtain ⟨hentitled, -⟩ := Entitled.callState he (CallState.arrived h)
  have hv := (books sliceLength).valid_addArrivals ((books sliceLength).agree_reached h.reached)
  have hstep := Waits.next he hentitled hv hW
  rw [show getNextScheduledProcess sliceLength _ = (pid', sched) from
    Option.some.inj hanswer] at hstep
  exact hstep

theorem Waits.approaches (he : Entitlement sliceLength Earned) (pid : Nat) :
    Approaches (books sliceLength) T timeBound pid (Waits sliceLength pid) where
  mem _ _ h := Waits.mem h
  arrivals _ _ _ h hW := Waits.addArrivals h hW
  next _ _ _ _ _ h hW hanswer := Waits.answer he h hW hanswer

/-- **The first response of a multi-level feedback queue**, with slices of at most
`longest` time steps. -/
theorem responds (he : Entitlement sliceLength Earned) {longest : Nat}
    (hlongest : ∀ k, sliceLength k ≤ longest) {p : ProcessInitial} (hp : p ∈ T.processes)
    (ht : p.arrivalTime < timeBound.toNat) :
    Responds (scheduler sliceLength) T timeBound State.topPids
      (fun a => longest - 1 + sliceLength topLevel * a) p := by
  refine (Waits.approaches he p.pid).responds hp ht
    (fun t s h => (addArrivals_topPids h.reached).1) fun t s a h ha => ⟨a, ha, ?_⟩
  obtain ⟨hentitled, -⟩ := Entitled.callState he (CallState.arrived h)
  exact Nat.add_le_add_right (Entitled.residual_le hentitled hlongest) _

end Runs

end Mlfq

/-! ## `custom.c` -/

namespace Scored

/-- The pids in the fast queue. -/
def State.fastPids (s : State) : List Nat := s.fastQueue.map fun p => p.pid

/-- What is left of the slice in progress. -/
def State.residual (s : State) : Nat :=
  match s.current with
  | none => 0
  | some c => (s.priorityLevel + 1) * 2 - c.quantumUsed

/-- `pid` waits in the fast queue, for slices of `n` time steps at most. -/
def Waits (pid n : Nat) (s : State) : Prop :=
  ∃ a, s.fastPids[a]? = some pid ∧ s.residual + 2 * a ≤ n

variable {s : State} {pid n : Nat}

theorem fastPids_wait (l : List ScoredProcess) :
    (l.map ScoredProcess.wait).map (fun p => p.pid) = l.map fun p => p.pid := by
  rw [List.map_map]
  rfl

/-- A unit of time uses up the slice in progress, and nobody leaves or enters the
fast queue. -/
theorem execute_residual (s : State) {c : ScoredProcess} (hquantum : c.quantumUsed < uintMax) :
    (execute s c).2.residual ≤ (s.priorityLevel + 1) * 2 - (c.quantumUsed + 1) ∧
      (execute s c).2.fastPids = s.fastPids := by
  have hone : c.execute.quantumUsed = c.quantumUsed + 1 := incr_of_lt hquantum (Nat.le_refl _)
  rw [execute, retire]
  by_cases hdone : c.execute.processedTime = c.execute.processingTime
  · rw [if_pos hdone]
    exact ⟨Nat.zero_le _, fastPids_wait _⟩
  · rw [if_neg hdone]
    by_cases hslice : c.execute.quantumUsed ≥ ((runCurrent s c).priorityLevel + 1) * 2
    · rw [if_pos hslice]
      exact ⟨Nat.zero_le _, fastPids_wait _⟩
    · rw [if_neg hslice]
      refine ⟨?_, fastPids_wait _⟩
      rw [State.residual, runCurrent]
      dsimp only
      rw [hone]

/-- A slice in progress has had a time step already. -/
theorem Entitled.residual_le (hs : Entitled s) : s.residual ≤ 3 := by
  rw [State.residual]
  split
  · exact Nat.zero_le _
  · next c hc =>
    obtain ⟨hpos, -, k, hearned, -⟩ := hs.current c hc
    -- the level is 0 or 1, so the slice is 2 or 4 time steps long
    have hlevel : s.priorityLevel ≤ 1 := by
      rcases hearned with ⟨h, -⟩ | ⟨h, -⟩
      · omega
      · omega
    omega

/-- **One call**, while anybody is in the fast queue. -/
theorem sliceStep (D : Type) [DoubleArith D] (hs : Entitled s)
    (hv : ValidJobs (s.nodes.map fun p => p.toJob)) (hne : s.fastPids ≠ []) :
    SliceStep 2 (getNextScheduledProcess D s).1 s.fastPids s.residual
      (getNextScheduledProcess D s).2.fastPids (getNextScheduledProcess D s).2.residual := by
  have hqueue : s.fastQueue ≠ [] := fun h => hne (List.map_eq_nil_iff.mpr h)
  rcases dispatch_cases D s with
    ⟨c, hc, hd⟩ | ⟨p, rest, hc, hf, hd⟩ | ⟨-, -, hf, -, -⟩ | ⟨-, hf, -, -⟩
  · -- the slice in progress gets shorter, and the fast queue does not move
    obtain ⟨-, hquantum, k, -, hprogress⟩ := hs.current c hc
    have hcurrent : (dispatch D s).current = some c := by rw [hd, hc]
    have hmem := mem_of_dispatch hv hcurrent
    have hlt := hv.lt _ hmem
    have hmax := hv.lt_uintMax _ hmem
    obtain ⟨hresidual, hfast⟩ := execute_residual s (c := c) (by omega)
    have hnow : s.residual = (s.priorityLevel + 1) * 2 - c.quantumUsed := by
      rw [State.residual, hc]
    rw [getNextScheduledProcess_of_current hcurrent, hd, hfast]
    exact .goOn (by omega)
  · -- the head of the fast queue starts a slice
    have hcurrent : (dispatch D s).current = some p := by rw [hd]
    have hmem := mem_of_dispatch hv hcurrent
    have hfresh := (hs.fast p (by rw [hf]; exact List.mem_cons_self)).1
    obtain ⟨hresidual, hfast⟩ := execute_residual (dispatch D s) (c := p)
      (by rw [hfresh]; decide)
    have hlevel : (dispatch D s).priorityLevel = 0 := by rw [hd]
    have hpids : (dispatch D s).fastPids = rest.map fun p => p.pid := by
      rw [State.fastPids, hd]
    have hpids' : s.fastPids = p.pid :: rest.map fun p => p.pid := by
      rw [State.fastPids, hf]
      rfl
    have hnone : s.residual = 0 := by rw [State.residual, hc]
    rw [hlevel, hfresh] at hresidual
    rw [getNextScheduledProcess_of_current hcurrent,
      (execute_nodes (dispatch D s) p (hv.lt _ hmem) (hv.lt_uintMax _ hmem).le).1,
      hfast, hpids, hpids', hnone]
    exact .start (by omega)
  · exact absurd hf hqueue
  · exact absurd hf hqueue

/-- **One call**, while `pid` waits in the fast queue. -/
theorem Waits.next (D : Type) [DoubleArith D] (hs : Entitled s)
    (hv : ValidJobs (s.nodes.map fun p => p.toJob)) (h : Waits pid n s) :
    (getNextScheduledProcess D s).1 = pid ∨
      ∃ m < n, Waits pid m (getNextScheduledProcess D s).2 := by
  obtain ⟨a, ha, hn⟩ := h
  have hne : s.fastPids ≠ [] := List.ne_nil_of_mem (List.mem_of_getElem? ha)
  exact (sliceStep D hs hv hne).closer ha hn

end Scored

namespace Custom

/-- The pids in the fast queue. -/
def State.fastPids {D : Type} (s : State D) : List Nat := s.fastQueue.map fun p => p.pid

theorem scored_fastPids {D : Type} (s : State D) : s.scored.fastPids = s.fastPids := by
  rw [Scored.State.fastPids, State.fastPids, State.scored, List.map_map]
  rfl

section Runs

variable {D : Type} [DoubleArith D] {T : Table} {timeBound : UInt32} {pid n : Nat}

theorem addArrivals_fastPids {t : Nat} {s : Sim (scheduler D)}
    (h : Reached (scheduler D) T.start timeBound t s) :
    (State.scored (addArrivals (scheduler D) s.processes t s.sched)).fastPids =
        (State.scored s.sched).fastPids ++ (T.arrivals t).map ProcessInitial.pid ∧
      (State.scored (addArrivals (scheduler D) s.processes t s.sched)).residual =
        (State.scored s.sched).residual := by
  rw [scored_addArrivals ((books D).agree_reached h)]
  refine ⟨?_, rfl⟩
  rw [Scored.State.fastPids]
  dsimp only
  rw [List.map_append, List.map_map]
  rfl

omit [DoubleArith D] in
theorem waits_mem {s : State D} (h : Scored.Waits pid n s.scored) :
    ∃ j ∈ s.nodes.map fun p => p.toJob, j.pid = pid := by
  obtain ⟨a, ha, -⟩ := h
  rw [scored_fastPids] at ha
  obtain ⟨p, hp, rfl⟩ := List.mem_map.mp (List.mem_of_getElem? ha)
  exact ⟨p.toJob,
    List.mem_map_of_mem (List.mem_append_right _ (List.mem_append_left _ hp)), rfl⟩

theorem waits_addArrivals {t : Nat} {s : Sim (scheduler D)}
    (h : Enters (scheduler D) T timeBound t s) (hW : Scored.Waits pid n (State.scored s.sched)) :
    Scored.Waits pid n (State.scored (addArrivals (scheduler D) s.processes t s.sched)) := by
  obtain ⟨a, ha, hn⟩ := hW
  obtain ⟨hfast, hresidual⟩ := addArrivals_fastPids h.reached
  refine ⟨a, ?_, ?_⟩
  · rw [hfast, List.getElem?_append_left (List.getElem?_eq_some_iff.mp ha).1]
    exact ha
  · rw [hresidual]
    exact hn

/-- `Scored.Waits.next` in a run. -/
theorem waits_answer {t pid' : Nat} {s : Sim (scheduler D)} {sched : State D}
    (h : Enters (scheduler D) T timeBound t s)
    (hW : Scored.Waits pid n (State.scored (addArrivals (scheduler D) s.processes t s.sched)))
    (hanswer : s.answer t = some (pid', sched)) :
    pid' = pid ∨ ∃ m < n, Scored.Waits pid m sched.scored := by
  obtain ⟨hentitled, hok, hv⟩ := (keeps_entitled D).callState (CallState.arrived h)
  obtain ⟨sched', hnext, hscored, -⟩ := Ok.getNextScheduledProcess hok hv
  cases hanswer.symm.trans hnext
  rw [hscored]
  exact hW.next D hentitled (valid_scored hv)

theorem waits_approaches (D : Type) [DoubleArith D] (pid : Nat) :
    Approaches (books D) T timeBound pid fun n s => Scored.Waits pid n (State.scored s) where
  mem _ _ h := waits_mem h
  arrivals _ _ _ h hW := waits_addArrivals h hW
  next _ _ _ _ _ h hW hanswer := waits_answer h hW hanswer

/-- **The first response of `custom.c`.** -/
theorem responds (D : Type) [DoubleArith D] {p : ProcessInitial} (hp : p ∈ T.processes)
    (ht : p.arrivalTime < timeBound.toNat) :
    Responds (scheduler D) T timeBound State.fastPids (fun a => 3 + 2 * a) p := by
  refine (waits_approaches D p.pid).responds hp ht (fun t s h => ?_) fun t s a h ha => ?_
  · have hfast := (addArrivals_fastPids h.reached).1
    exact (scored_fastPids _).symm.trans
      (hfast.trans (congrArg (· ++ _) (scored_fastPids _)))
  · obtain ⟨hentitled, -⟩ := (keeps_entitled D).callState (CallState.arrived h)
    have hscored := scored_fastPids (addArrivals (scheduler D) s.processes t s.sched)
    exact ⟨a, hscored.symm ▸ ha,
      Nat.add_le_add_right (Scored.Entitled.residual_le hentitled) _⟩

end Runs

end Custom

/-- **First response.** A process that arrives at `t` and finds `a` processes ahead
of it in queue 0 is returned for the first time no later than `t + 11 + 3 * a`
under `constant.c`, `t + 31 + 2 * a` under `exponential.c`, and `t + 3 + 2 * a`
under `custom.c`. -/
theorem first_response (D : Type) [DoubleArith D] (T : Table) (timeBound : UInt32)
    (p : ProcessInitial) (hp : p ∈ T.processes) (ht : p.arrivalTime < timeBound.toNat) :
    Responds Constant.scheduler T timeBound Mlfq.State.topPids (fun a => 11 + 3 * a) p ∧
    Responds Exponential.scheduler T timeBound Mlfq.State.topPids (fun a => 31 + 2 * a) p ∧
    Responds (Custom.scheduler D) T timeBound Custom.State.fastPids (fun a => 3 + 2 * a) p := by
  have hconstant : ∀ k, Constant.sliceLength k ≤ 12 := by decide
  have hexponential : ∀ k, Exponential.sliceLength k ≤ 32 := by decide
  exact ⟨Mlfq.responds Constant.entitlement hconstant hp ht,
    Mlfq.responds Exponential.entitlement hexponential hp ht, Custom.responds D hp ht⟩

/-- Process 2 of the example of `readme.md` under `custom.c`. -/
theorem first_response_readme :
    Responds (Custom.scheduler ℚ) readmeTable 1000000 Custom.State.fastPids
      (fun a => 3 + 2 * a) ⟨2, 1, 2⟩ :=
  (first_response ℚ readmeTable 1000000 ⟨2, 1, 2⟩ (by decide) (by decide)).2.2

end Cosc240
