import Cosc240.Simulator.Run
import Cosc240.Simulator.Schedule

/-!
# Two copies of the progress of each process

A scheduler keeps its own `processed_time` next to the one in the simulator's
table. `Books` says what it takes for the two to stay equal: adding a process
adds its node, and each call of `get_next_scheduled_process` gives one unit of
time to one of the nodes, or returns 0 when there is none.

- `ValidJobs`: nodes that are well formed. There is one for each process, and none of them complete.
- `Books S`: a scheduler that keeps its books, with its nodes as a list (`contents`), an invariant
  of its own (`Ok`), and one law for each of its two functions.
- `pendingJobs`: the nodes that the scheduler should hold in a time step.
- `Agree B T t s`: the two copies agree at the tick boundary before time step `t`.

From that alone, and for every admitted table:

- `Books.tick_agree`: one time step. The scheduler makes a work-conserving choice, the simulator
  carries it out (simulator.c:190–218), and the two copies still agree.
- `Books.agree_reached`: they agree in every reached state.
- `Books.runSimulation_eq`: a run never faults and never stops early.
- `Agree.trace`: the printed trace is the schedule behind the state, with its time steps.
- `Books.complete_at_end`: the row of a process that completes is final.
-/

namespace Cosc240

/-! ## Bookkeeping schedulers -/

/-- The nodes of a scheduler are well formed: one node for each process, and
none of them complete. -/
structure ValidJobs (jobs : List Job) : Prop where
  nodup : (jobs.map Job.pid).Nodup
  lt : ∀ j ∈ jobs, j.processedTime < j.processingTime
  lt_uintMax : ∀ j ∈ jobs, j.processingTime < uintMax

/-- A scheduler that keeps its books. `contents` lists the nodes in its queues
together with `current`, and `Ok` is whatever else it keeps invariant. -/
structure Books (S : Scheduler) where
  contents : S.State → List Job
  Ok : S.State → Prop
  init_ok : Ok S.init
  init_contents : contents S.init = []
  add_ok : ∀ s p, Ok s → ValidJobs (p.job :: contents s) → Ok (S.addToReadyQueue s p)
  add_contents : ∀ s p, (contents (S.addToReadyQueue s p)).Perm (p.job :: contents s)
  idle : ∀ s, Ok s → contents s = [] →
    ∃ s', S.getNextScheduledProcess s = some (0, s') ∧ Ok s' ∧ contents s' = []
  serve : ∀ s, Ok s → ValidJobs (contents s) → contents s ≠ [] →
    ∃ j rest s', (contents s).Perm (j :: rest) ∧
      S.getNextScheduledProcess s = some (j.pid, s') ∧ Ok s' ∧
      (contents s').Perm (j.served ++ rest)

theorem ValidJobs.perm {l l' : List Job} (h : ValidJobs l) (hp : l.Perm l') : ValidJobs l' where
  nodup := (hp.map Job.pid).nodup_iff.mp h.nodup
  lt j hj := h.lt j (hp.mem_iff.mpr hj)
  lt_uintMax j hj := h.lt_uintMax j (hp.mem_iff.mpr hj)

theorem ValidJobs.sublist {l l' : List Job} (h : ValidJobs l) (hs : l'.Sublist l) :
    ValidJobs l' where
  nodup := h.nodup.sublist (hs.map _)
  lt j hj := h.lt j (hs.subset hj)
  lt_uintMax j hj := h.lt_uintMax j (hs.subset hj)

/-! ## Rows and nodes -/

section Rows

variable {T : Table} {processes : List ProcessStats}

/-- The nodes a scheduler should hold at time `t`: one for each process that has
arrived by `t` and is not complete. -/
def pendingJobs (t : Nat) (processes : List ProcessStats) : List Job :=
  (processes.filter fun p => p.Pending t).map ProcessStats.job

theorem mem_pendingJobs {t : Nat} {j : Job} :
    j ∈ pendingJobs t processes ↔ ∃ p ∈ processes, p.Pending t ∧ p.job = j := by
  simp [pendingJobs, and_assoc]

theorem pendingJobs_valid (hi : processes.map ProcessStats.initial = T.processes) (t : Nat) :
    ValidJobs (pendingJobs t processes) where
  nodup := by
    have hsub := (List.filter_sublist (p := fun p => p.Pending t) (l := processes)).map
      (fun p => p.initial.pid)
    unfold pendingJobs
    rw [List.map_map]
    exact (pids_nodup hi).sublist hsub
  lt j hj := by
    obtain ⟨p, -, hpend, rfl⟩ := mem_pendingJobs.mp hj
    exact hpend.2
  lt_uintMax j hj := by
    obtain ⟨p, hp, -, rfl⟩ := mem_pendingJobs.mp hj
    have : p.initial.processingTime < 1000000 := T.processingTime_lt _ (initial_mem hi hp)
    show p.initial.processingTime < 4294967295
    omega

/-- A row is found under its pid, and nowhere before. -/
theorem getPidIndex_append {l₁ l₂ : List ProcessStats} {p : ProcessStats}
    (h : ∀ q ∈ l₁, q.initial.pid ≠ p.initial.pid) :
    getPidIndex p.initial.pid (l₁ ++ p :: l₂) = l₁.length := by
  have hnone : l₁.findIdx? (fun q => q.initial.pid = p.initial.pid) = none := by
    rw [List.findIdx?_eq_none_iff]
    intro q hq
    simpa using h q hq
  rw [getPidIndex, List.findIdx?_append, hnone]
  simp [List.findIdx?_cons]

/-- Serving one row of a table with distinct pids changes that row only. -/
theorem map_serve_append {l₁ l₂ : List ProcessStats} {p : ProcessStats} {t : Nat}
    (hnd : ((l₁ ++ p :: l₂).map fun p => p.initial.pid).Nodup) :
    (l₁ ++ p :: l₂).map (ProcessStats.serve t p.initial.pid) =
      l₁ ++ p.serve t p.initial.pid :: l₂ := by
  rw [List.map_append, List.map_cons, List.nodup_append] at hnd
  obtain ⟨-, hnd₂, hdisj⟩ := hnd
  have h₁ : ∀ q ∈ l₁, q.serve t p.initial.pid = q := fun q hq =>
    ProcessStats.serve_of_ne (hdisj _ (List.mem_map_of_mem hq) _ (by simp))
  have h₂ : ∀ q ∈ l₂, q.serve t p.initial.pid = q := fun q hq =>
    ProcessStats.serve_of_ne fun heq =>
      (List.nodup_cons.mp hnd₂).1 (heq ▸ List.mem_map_of_mem hq)
  rw [List.map_append, List.map_cons, List.map_congr_left h₁, List.map_congr_left h₂]
  simp

theorem map_serve_zero (hi : processes.map ProcessStats.initial = T.processes) (t : Nat) :
    processes.map (ProcessStats.serve t 0) = processes := by
  have h : ∀ q ∈ processes, q.serve t 0 = q := fun q hq =>
    ProcessStats.serve_of_ne (Nat.ne_of_gt (T.pid_pos _ (initial_mem hi hq)))
  rw [List.map_congr_left h]
  simp

end Rows

/-! ## One time step -/

/-- The simulator's side of a time step in which the scheduler returns 0. -/
theorem tick_of_zero {S : Scheduler} {s : Sim S} {t : Nat} {sched : S.State}
    (hnext : S.getNextScheduledProcess (addArrivals S s.processes t s.sched) = some (0, sched)) :
    s.tick t = some (.next { s with sched, output := s.output ++ [.step t 0] }) := by
  simp [Sim.tick, hnext]

/-- The simulator's side of a time step in which the scheduler returns the pid
of a process that is not complete. -/
theorem tick_of_pid {S : Scheduler} {T : Table} {s : Sim S} {t : Nat} {sched : S.State}
    {p : ProcessStats} (hi : s.processes.map ProcessStats.initial = T.processes)
    (hp : p ∈ s.processes) (hlt : p.processedTime < p.initial.processingTime)
    (hnext : S.getNextScheduledProcess (addArrivals S s.processes t s.sched) =
      some (p.initial.pid, sched)) :
    s.tick t = some (.next
      { processes := s.processes.map (ProcessStats.serve t p.initial.pid), sched,
        output := s.output ++ [.step t p.initial.pid] }) := by
  have hpos : 0 < p.initial.pid := T.pid_pos _ (initial_mem hi hp)
  have hmax : p.initial.processingTime < 1000000 := T.processingTime_lt _ (initial_mem hi hp)
  have hincr : incr p.processedTime = p.processedTime + 1 :=
    incr_of_lt hlt (by show p.initial.processingTime ≤ 4294967295; omega)
  have hnd := pids_nodup hi
  obtain ⟨l₁, l₂, hsplit⟩ := List.append_of_mem hp
  have hbefore : ∀ q ∈ l₁, q.initial.pid ≠ p.initial.pid := by
    rw [hsplit, List.map_append, List.nodup_append] at hnd
    exact fun q hq => hnd.2.2 _ (List.mem_map_of_mem hq) _ (by simp)
  rw [hsplit] at hnd
  have hserve := map_serve_append (t := t) hnd
  have hindex : getPidIndex p.initial.pid s.processes = l₁.length := by
    rw [hsplit, getPidIndex_append hbefore]
  have hget : s.processes[l₁.length]? = some p := by simp [hsplit]
  have hset : ∀ q, s.processes.set l₁.length q = l₁ ++ q :: l₂ := by
    intro q
    simp [hsplit]
  have hsplit' : s.processes.map (ProcessStats.serve t p.initial.pid) =
      l₁ ++ p.serve t p.initial.pid :: l₂ := by rw [hsplit, hserve]
  rw [hsplit']
  simp only [Sim.tick, hnext, hindex, hget, hset, hincr, Nat.not_lt_zero, if_false, gt_iff_lt,
    if_pos hpos]
  by_cases hdone : p.processedTime + 1 = p.initial.processingTime
  · rw [if_pos hdone]
    simp [ProcessStats.serve, hdone]
  · rw [if_neg hdone, if_neg (by omega)]
    simp [ProcessStats.serve, hdone]

/-! ## Runs -/

/-- The two copies agree at the tick boundary before time step `t`. -/
structure Agree {S : Scheduler} (B : Books S) (T : Table) (t : Nat) (s : Sim S) : Prop where
  ok : B.Ok s.sched
  /-- The scheduler holds the processes that arrived before `t` and are not
  complete, each of them once and with the simulator's `processed_time`. -/
  books : (B.contents s.sched).Perm
    ((s.processes.filter fun p => p.initial.arrivalTime < t ∧
      p.processedTime < p.initial.processingTime).map ProcessStats.job)
  /-- The run so far is a work-conserving schedule, and that is what was printed. -/
  schedule : ∃ σ, σ.length = t ∧ Schedule T σ s.processes ∧
    s.output = .header :: σ.mapIdx Line.step

namespace Books

variable {S : Scheduler} (B : Books S) {T : Table} {timeBound : UInt32}

/-- Adding a list of processes adds their nodes. -/
theorem foldl_add (ps : List ProcessInitial) (s : S.State) (hok : B.Ok s)
    (hv : ValidJobs (ps.map ProcessInitial.job ++ B.contents s)) :
    B.Ok (ps.foldl S.addToReadyQueue s) ∧
      (B.contents (ps.foldl S.addToReadyQueue s)).Perm
        (ps.map ProcessInitial.job ++ B.contents s) := by
  induction ps generalizing s with
  | nil => exact ⟨hok, List.Perm.refl _⟩
  | cons p ps ih =>
    rw [List.foldl_cons]
    have hadd := B.add_contents s p
    have hmove : (ps.map ProcessInitial.job ++ B.contents (S.addToReadyQueue s p)).Perm
        (p.job :: ps.map ProcessInitial.job ++ B.contents s) :=
      (hadd.append_left _).trans List.perm_middle
    have hp : ValidJobs (p.job :: B.contents s) :=
      hv.sublist ((List.sublist_append_right _ _).cons_cons _)
    obtain ⟨hok', hperm⟩ := ih _ (B.add_ok s p hok hp) (hv.perm hmove.symm)
    exact ⟨hok', hperm.trans hmove⟩

theorem agree_start (T : Table) : Agree B T 0 (Sim.start S T.start) where
  ok := B.init_ok
  books := by
    show (B.contents S.init).Perm _
    rw [B.init_contents]
    simp
  schedule := ⟨[], rfl, .start, rfl⟩

/-- The nodes of the arrivals and the nodes that are there already make up the
pending processes. -/
theorem arrivals_perm {t : Nat} {s : Sim S} (h : Agree B T t s) :
    ((arrivalsAt s.processes t).map ProcessInitial.job ++ B.contents s.sched).Perm
      (pendingJobs t s.processes) := by
  obtain ⟨σ, rfl, hσ, -⟩ := h.schedule
  -- the rows of the arrivals are untouched, so their nodes are the new ones
  have hnew : (arrivalsAt s.processes σ.length).map ProcessInitial.job =
      (s.processes.filter fun p => p.initial.arrivalTime = σ.length).map ProcessStats.job := by
    rw [arrivalsAt, List.map_map]
    refine List.map_congr_left fun p hp => ?_
    obtain ⟨hp, harr⟩ := List.mem_filter.mp hp
    have hzero := (hσ.rowOk p hp).eq_zero_of_le (of_decide_eq_true harr).ge
    show p.initial.job = p.job
    rw [ProcessInitial.job, ProcessStats.job, hzero]
  rw [hnew]
  refine (h.books.append_left _).trans ?_
  rw [← List.map_append]
  refine List.Perm.map _ ?_
  have hfilter := List.filter_append_perm (fun p => p.initial.arrivalTime = σ.length)
    (s.processes.filter fun p => p.Pending σ.length)
  rw [List.filter_filter, List.filter_filter] at hfilter
  have h₁ : s.processes.filter (fun p => decide (p.initial.arrivalTime = σ.length) &&
      decide (p.Pending σ.length)) =
      s.processes.filter fun p => p.initial.arrivalTime = σ.length := by
    refine List.filter_congr fun p hp => ?_
    have hpos := T.processingTime_pos _ (initial_mem hσ.initial hp)
    by_cases harr : p.initial.arrivalTime = σ.length
    · have hzero := (hσ.rowOk p hp).eq_zero_of_le harr.ge
      simp [ProcessStats.Pending, harr, hzero, hpos]
    · simp [harr]
  have h₂ : s.processes.filter (fun p => (!decide (p.initial.arrivalTime = σ.length)) &&
      decide (p.Pending σ.length)) =
      s.processes.filter fun p => p.initial.arrivalTime < σ.length ∧
        p.processedTime < p.initial.processingTime := by
    refine List.filter_congr fun p _ => ?_
    rw [← decide_not, ← Bool.decide_and, decide_eq_decide]
    unfold ProcessStats.Pending
    omega
  rw [h₁, h₂] at hfilter
  exact hfilter

theorem valid_arrivals {t : Nat} {s : Sim S} (h : Agree B T t s) :
    ValidJobs ((arrivalsAt s.processes t).map ProcessInitial.job ++ B.contents s.sched) := by
  obtain ⟨σ, -, hσ, -⟩ := h.schedule
  exact (pendingJobs_valid hσ.initial t).perm (B.arrivals_perm h).symm

theorem valid_contents {t : Nat} {s : Sim S} (h : Agree B T t s) :
    ValidJobs (B.contents s.sched) :=
  (B.valid_arrivals h).sublist (List.sublist_append_right _ _)

/-- Once the arrivals of time step `t` are in, the scheduler holds exactly the
pending processes. -/
theorem agree_arrivals {t : Nat} {s : Sim S} (h : Agree B T t s) :
    B.Ok (addArrivals S s.processes t s.sched) ∧
      (B.contents (addArrivals S s.processes t s.sched)).Perm (pendingJobs t s.processes) := by
  rw [addArrivals_eq_foldl]
  obtain ⟨hok, hperm⟩ :=
    B.foldl_add (arrivalsAt s.processes t) s.sched h.ok (B.valid_arrivals h)
  exact ⟨hok, hperm.trans (B.arrivals_perm h)⟩

theorem valid_addArrivals {t : Nat} {s : Sim S} (h : Agree B T t s) :
    ValidJobs (B.contents (addArrivals S s.processes t s.sched)) := by
  obtain ⟨σ, -, hσ, -⟩ := h.schedule
  exact (pendingJobs_valid hσ.initial t).perm (B.agree_arrivals h).2.symm

/-- What `Dispatch` and the scheduler's books look like after a time step. -/
theorem served_append {t : Nat} {l₁ l₂ : List ProcessStats} {p : ProcessStats}
    (hpend : p.Pending t) :
    pendingJobs t (l₁ ++ p.serve t p.initial.pid :: l₂) =
      pendingJobs t l₁ ++ (p.job.served ++ pendingJobs t l₂) := by
  have hself : pendingJobs t [p.serve t p.initial.pid] = p.job.served := by
    obtain ⟨harr, hlt⟩ := hpend
    by_cases hdone : p.processedTime + 1 = p.initial.processingTime
    · simp [pendingJobs, ProcessStats.serve, ProcessStats.Pending, Job.served, ProcessStats.job,
        hdone]
    · have hlt' : p.processedTime + 1 < p.initial.processingTime := by omega
      simp [pendingJobs, ProcessStats.serve, ProcessStats.Pending, Job.served, ProcessStats.job,
        hdone, hlt', harr]
  have hcons : p.serve t p.initial.pid :: l₂ = [p.serve t p.initial.pid] ++ l₂ := rfl
  rw [← hself, hcons, pendingJobs, List.filter_append, List.filter_append, List.map_append,
    List.map_append]
  rfl

theorem pendingJobs_append {t : Nat} {l₁ l₂ : List ProcessStats} {p : ProcessStats}
    (hpend : p.Pending t) :
    pendingJobs t (l₁ ++ p :: l₂) = pendingJobs t l₁ ++ p.job :: pendingJobs t l₂ := by
  simp [pendingJobs, List.filter_append, hpend]

/-- What is pending in time step `t` is what the books should show at its end. -/
theorem pendingJobs_eq_filter (t : Nat) (processes : List ProcessStats) :
    pendingJobs t processes = (processes.filter fun p => p.initial.arrivalTime < t + 1 ∧
      p.processedTime < p.initial.processingTime).map ProcessStats.job := by
  rw [pendingJobs]
  congr 1
  refine List.filter_congr fun p _ => ?_
  rw [decide_eq_decide, ProcessStats.Pending, Nat.lt_succ_iff]

/-- The two copies agree again, if the scheduler's books show what is pending after
the choice has been carried out. -/
theorem agree_next {t pid : Nat} {s : Sim S} {sched : S.State} (h : Agree B T t s)
    (hrun : stillRunning s.processes = true) (hd : Dispatch t s.processes pid) (hok : B.Ok sched)
    (hbooks : (B.contents sched).Perm
      (pendingJobs t (s.processes.map (ProcessStats.serve t pid)))) :
    Agree B T (t + 1)
      { processes := s.processes.map (ProcessStats.serve t pid), sched,
        output := s.output ++ [.step t pid] } := by
  obtain ⟨σ, rfl, hσ, hout⟩ := h.schedule
  rw [pendingJobs_eq_filter] at hbooks
  refine ⟨hok, hbooks, σ ++ [pid], by simp, hσ.tick hrun hd, ?_⟩
  rw [hout, List.mapIdx_append]
  simp

/-- When a pending process is served, the books change as the table does. -/
theorem served_perm {t : Nat} {processes : List ProcessStats} {p : ProcessStats} {rest : List Job}
    (hi : processes.map ProcessStats.initial = T.processes) (hp : p ∈ processes)
    (hpend : p.Pending t) (hrest : (pendingJobs t processes).Perm (p.job :: rest)) :
    (p.job.served ++ rest).Perm
      (pendingJobs t (processes.map (ProcessStats.serve t p.initial.pid))) := by
  have hnd := pids_nodup hi
  obtain ⟨l₁, l₂, hsplit⟩ := List.append_of_mem hp
  rw [hsplit] at hnd hrest
  rw [pendingJobs_append hpend] at hrest
  have hothers : rest.Perm (pendingJobs t l₁ ++ pendingJobs t l₂) :=
    (hrest.symm.trans List.perm_middle).cons_inv
  rw [hsplit, map_serve_append hnd, served_append hpend]
  refine (hothers.append_left _).trans ?_
  rw [← List.append_assoc, ← List.append_assoc]
  exact List.perm_append_comm.append_right _

/-- **One time step.** The scheduler makes a work-conserving choice, the
simulator carries it out, and the two copies still agree. -/
theorem tick_agree {t : Nat} {s : Sim S} (h : Agree B T t s)
    (hrun : stillRunning s.processes = true) :
    ∃ pid sched, S.getNextScheduledProcess (addArrivals S s.processes t s.sched) =
        some (pid, sched) ∧
      Dispatch t s.processes pid ∧
      s.tick t = some (.next
        { processes := s.processes.map (ProcessStats.serve t pid), sched,
          output := s.output ++ [.step t pid] }) ∧
      Agree B T (t + 1)
        { processes := s.processes.map (ProcessStats.serve t pid), sched,
          output := s.output ++ [.step t pid] } := by
  obtain ⟨hok, hperm⟩ := B.agree_arrivals h
  obtain ⟨σ, -, hσ, -⟩ := h.schedule
  have hi := hσ.initial
  by_cases hnil : pendingJobs t s.processes = []
  · -- nobody is pending: the scheduler returns 0
    rw [hnil] at hperm
    obtain ⟨sched, hnext, hok', hcont⟩ := B.idle _ hok hperm.eq_nil
    have hd : Dispatch t s.processes 0 := .idle fun p hp hpend => by
      have hmem : p.job ∈ pendingJobs t s.processes := mem_pendingJobs.mpr ⟨p, hp, hpend, rfl⟩
      rw [hnil] at hmem
      cases hmem
    refine ⟨0, sched, hnext, hd, ?_, B.agree_next h hrun hd hok' ?_⟩
    · rw [map_serve_zero hi]
      exact tick_of_zero hnext
    · rw [map_serve_zero hi, hnil, hcont]
  · have hne : B.contents (addArrivals S s.processes t s.sched) ≠ [] := by
      intro h
      rw [h] at hperm
      exact hnil hperm.symm.eq_nil
    obtain ⟨j, rest, sched, hrest, hnext, hok', hcont⟩ :=
      B.serve _ hok (B.valid_addArrivals h) hne
    have hrest' := hperm.symm.trans hrest
    obtain ⟨p, hp, hpend, rfl⟩ := mem_pendingJobs.mp (hrest'.mem_iff.mpr List.mem_cons_self)
    have hd : Dispatch t s.processes p.initial.pid := .serve hp hpend
    exact ⟨p.initial.pid, sched, hnext, hd, tick_of_pid hi hp hpend.2 hnext,
      B.agree_next h hrun hd hok' (hcont.trans (served_perm hi hp hpend hrest'))⟩

/-- **The two copies agree in every reached state.** -/
theorem agree_reached {t : Nat} {s : Sim S} (h : Reached S T.start timeBound t s) :
    Agree B T t s := by
  induction h with
  | start => exact B.agree_start T
  | tick h _ hrun hstep ih =>
    obtain ⟨pid, sched, -, -, htick, hagree⟩ := B.tick_agree ih hrun
    rw [hstep] at htick
    cases htick
    exact hagree

include B in
/-- **A run goes to its end**: no fault, no early `return FALSE`. -/
theorem runSimulation_eq (T : Table) (timeBound : UInt32) :
    ∃ N s, runSimulation S T.start timeBound = some (!stillRunning s.processes, s) ∧
      Reached S T.start timeBound N s ∧
      (stillRunning s.processes = true → N = timeBound.toNat) := by
  refine runSimulation_total fun t s hs _ hrun => ?_
  obtain ⟨pid, sched, -, -, htick, -⟩ := B.tick_agree (B.agree_reached hs) hrun
  exact ⟨_, htick⟩

include B in
/-- A run that returns `TRUE` has done all work. -/
theorem reached_of_runSimulation_true {s : Sim S}
    (h : runSimulation S T.start timeBound = some (true, s)) :
    ∃ N, Reached S T.start timeBound N s ∧ stillRunning s.processes = false := by
  obtain ⟨N, s', hrun, hs, -⟩ := B.runSimulation_eq T timeBound
  rw [h, Option.some.injEq, Prod.mk.injEq] at hrun
  obtain ⟨hstill, rfl⟩ := hrun
  exact ⟨N, hs, (Bool.not_eq_true' _).mp hstill.symm⟩

include B in
/-- A row of a complete process is final. -/
theorem complete_row_mem {t t' : Nat} {s s' : Sim S}
    (h : Reached S T.start timeBound t s) (h' : Reached S T.start timeBound t' s') (hle : t ≤ t')
    {p : ProcessStats} (hp : p ∈ s.processes)
    (hdone : p.processedTime = p.initial.processingTime) : p ∈ s'.processes := by
  induction h' with
  | start =>
    cases Nat.le_zero.mp hle
    exact h.unique .start ▸ hp
  | @tick t' s' s'' h' hbound hrun hstep ih =>
    rcases Nat.lt_or_eq_of_le hle with hlt | rfl
    · have hp' := ih (Nat.le_of_lt_succ hlt)
      have hagree := B.agree_reached h'
      obtain ⟨σ, -, hσ, -⟩ := hagree.schedule
      obtain ⟨pid, sched, -, hd, htick, -⟩ := B.tick_agree hagree hrun
      rw [hstep] at htick
      cases htick
      refine List.mem_map.mpr ⟨p, hp', ProcessStats.serve_of_ne fun heq => ?_⟩
      have hpend := hd.of_pid_eq hσ.initial hp' heq
      exact Nat.lt_irrefl _ (hdone ▸ hpend.2)
    · exact h.unique (.tick h' hbound hrun hstep) ▸ hp

include B in
/-- A process that completes in time step `t` is in the table at the end of the
run with that `end_time`. -/
theorem complete_at_end {t : Nat} {s sEnd : Sim S} {result : Bool}
    (h : Reached S T.start timeBound t s) (hbound : t < timeBound.toNat)
    (hrun : stillRunning s.processes = true) {p : ProcessStats} (hp : p ∈ s.processes)
    (hlast : p.processedTime + 1 = p.initial.processingTime) {sched : S.State}
    (hnext : S.getNextScheduledProcess (addArrivals S s.processes t s.sched) =
      some (p.initial.pid, sched))
    (hend : runSimulation S T.start timeBound = some (result, sEnd)) :
    { p with processedTime := p.processedTime + 1, endTime := t } ∈ sEnd.processes := by
  obtain ⟨pid, sched', hnext', -, htick, -⟩ := B.tick_agree (B.agree_reached h) hrun
  cases hnext.symm.trans hnext'
  have hserve : p.serve t p.initial.pid =
      { p with processedTime := p.processedTime + 1, endTime := t } := by
    rw [ProcessStats.serve, if_pos rfl, if_pos hlast]
  obtain ⟨N, sN, hrunN, hN, hbig⟩ := B.runSimulation_eq T timeBound
  cases hend.symm.trans hrunN
  rw [← hserve]
  refine B.complete_row_mem (.tick h hbound hrun htick) hN ?_ (List.mem_map_of_mem hp) ?_
  · -- the run does not end before this time step
    by_contra hle
    have hstill : stillRunning sEnd.processes = true := by
      rcases Nat.lt_or_eq_of_le (show N ≤ t by omega) with hlt | rfl
      · exact hN.stillRunning_of_lt h hlt
      · exact hN.unique h ▸ hrun
    have hN := hbig hstill
    omega
  · rw [hserve]
    exact hlast

end Books

/-! ## The printed trace -/

theorem filterMap_step? (σ : List Nat) :
    (Line.header :: σ.mapIdx Line.step).filterMap Line.step? = σ.mapIdx fun t pid => (t, pid) := by
  rw [List.filterMap_cons_none rfl]
  induction σ using List.reverseRecOn with
  | nil => rfl
  | append_singleton σ pid ih =>
    rw [List.mapIdx_append, List.mapIdx_append, List.filterMap_append, ih]
    rfl

/-- The trace of a reached state is the schedule behind it, with its time steps. -/
theorem Agree.trace {S : Scheduler} {B : Books S} {T : Table} {t : Nat} {s : Sim S}
    (h : Agree B T t s) :
    ∃ σ, σ.length = t ∧ Schedule T σ s.processes ∧ s.trace = σ.mapIdx fun t pid => (t, pid) := by
  obtain ⟨σ, hlen, hσ, hout⟩ := h.schedule
  refine ⟨σ, hlen, hσ, ?_⟩
  rw [Sim.trace, hout, filterMap_step?]

theorem map_fst_mapIdx (σ : List Nat) :
    (σ.mapIdx fun t pid => (t, pid)).map Prod.fst = List.range σ.length := by
  refine List.ext_getElem (by simp) fun i hi hi' => ?_
  simp

theorem mem_mapIdx_pair {σ : List Nat} {t pid : Nat} :
    (t, pid) ∈ σ.mapIdx (fun t pid => (t, pid)) ↔ σ[t]? = some pid := by
  rw [List.mem_mapIdx, List.getElem?_eq_some_iff]
  constructor
  · rintro ⟨i, hi, heq⟩
    cases heq
    exact ⟨hi, rfl⟩
  · rintro ⟨hi, heq⟩
    exact ⟨t, hi, by rw [heq]⟩

end Cosc240
