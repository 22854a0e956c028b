import Cosc240.Schedulers.CustomRefines

/-!
# The wait times of `custom.c`

`update_wait_times` (custom.c:266–279) counts the time each process spends in a queue. At every tick
boundary the time since the arrival of a live process is what it has waited plus
what it has received, so the count that is freed with a complete process is the
wait time in the statistics (simulator.c:241–243).

- `Scored.Accounted`: all time since the arrival of a process is accounted for. It is proved for the
  two-queue scheduler, where the counters are next to the processes.
- `Scored.Accounted.runCurrent`: in one unit of time each process either waits or runs.
- `accounted_reached`: in every reached state of `custom.c` all time is accounted for, and
  `Ok.history_account` says so of the history that `get_process_history` finds.

Main results:

- `live_account` and `complete_account`: the account of a live process, and that of a process that
  completes, against its row at the end of the run.
- `custom_wait_times`: both of them, for every run. The witness is a time step of the crowded table
  in which one process completes and another one has been waiting.
-/

namespace Cosc240

namespace Scored

/-! ## The two-queue scheduler -/

/-- All time since the arrival of a process is accounted for. -/
def Accounted (t : Nat) (s : State) : Prop :=
  ∀ p ∈ s.nodes, p.waitTime + p.processedTime + p.arrivalTime = t

variable {t : Nat} {s : State}

theorem Accounted.of_perm {s' : State} (h : Accounted t s) (hperm : s'.nodes.Perm s.nodes) :
    Accounted t s' := fun p hp => h p (hperm.mem_iff.mp hp)

theorem Accounted.addToReadyQueue (h : Accounted t s) {process : ProcessInitial}
    (harr : process.arrivalTime = t) : Accounted t (addToReadyQueue s process) := by
  intro p hp
  rcases List.mem_cons.mp ((addToReadyQueue_nodes s process).mem_iff.mp hp) with rfl | hp
  · show 0 + 0 + process.arrivalTime = t
    omega
  · exact h p hp

theorem Accounted.foldl_add (h : Accounted t s) {ps : List ProcessInitial}
    (harr : ∀ p ∈ ps, p.arrivalTime = t) :
    Accounted t (ps.foldl Scored.addToReadyQueue s) := by
  induction ps generalizing s with
  | nil => exact h
  | cons p ps ih =>
    exact ih (h.addToReadyQueue (harr p (by simp))) fun q hq => harr q (List.mem_cons_of_mem _ hq)

/-- In one unit of time each process either waits or runs. -/
theorem Accounted.runCurrent (h : Accounted t s) (ht : t < uintMax) {c : ScoredProcess}
    (hc : s.current = some c) (hlt : c.processedTime < c.processingTime)
    (hle : c.processingTime ≤ uintMax) : Accounted (t + 1) (runCurrent s c) := by
  have hnodes := nodes_of_current hc
  have hnodes' : (Scored.runCurrent s c).nodes =
      c.execute :: (s.fastQueue ++ s.smartQueue).map ScoredProcess.wait := by
    rw [List.map_append]
    rfl
  intro p hp
  rw [hnodes'] at hp
  rcases List.mem_cons.mp hp with rfl | hp
  · -- the current process has received the time step
    have hsum := h c (hnodes ▸ List.mem_cons_self)
    show c.waitTime + incr c.processedTime + c.arrivalTime = t + 1
    rw [incr_of_lt hlt hle]
    omega
  · -- the others have waited for it
    obtain ⟨q, hq, rfl⟩ := List.mem_map.mp hp
    have hsum := h q (hnodes ▸ List.mem_cons_of_mem _ hq)
    show incr q.waitTime + q.processedTime + q.arrivalTime = t + 1
    rw [incr_of_lt (show q.waitTime < uintMax by omega) (Nat.le_refl _)]
    omega

/-- Moving a process, or freeing it, changes no account. -/
theorem Accounted.retire (h : Accounted t s) {c : ScoredProcess} (hc : s.current = some c) :
    Accounted t (retire s c).2 := by
  have hnodes := nodes_of_current hc
  rw [Accounted, hnodes] at h
  rw [Scored.retire]
  split
  · -- the process is freed
    exact fun p hp => h p (List.mem_cons_of_mem _ hp)
  · split
    · -- the process changes queues
      intro p hp
      have hp' : p ∈ s.fastQueue ++ (s.smartQueue ++ [c.demote]) := hp
      rw [← List.append_assoc] at hp'
      rcases List.mem_append.mp hp' with hp' | hp'
      · exact h p (List.mem_cons_of_mem _ hp')
      · rw [List.mem_singleton.mp hp']
        exact h c (List.mem_cons_self)
    · rw [Accounted, hnodes]
      exact h

/-- **One time step.** -/
theorem Accounted.getNextScheduledProcess (D : Type) [DoubleArith D] (h : Accounted t s)
    (ht : t < uintMax) (hv : ValidJobs (s.nodes.map fun p => p.toJob)) :
    Accounted (t + 1) (getNextScheduledProcess D s).2 := by
  by_cases hnil : s.nodes = []
  · rw [getNextScheduledProcess_of_nil D hnil]
    intro p hp
    rw [hnil] at hp
    cases hp
  · obtain ⟨c, hc⟩ := dispatch_current_ne_none D hv hnil
    have hperm := dispatch_nodes D hv
    have hjob := mem_of_dispatch hv hc
    rw [getNextScheduledProcess_of_current hc, execute]
    exact ((h.of_perm hperm).runCurrent ht hc (hv.lt _ hjob) (hv.lt_uintMax _ hjob).le).retire rfl

end Scored

namespace Custom

variable {D : Type} {T : Table} {timeBound : UInt32}

/-! ## Runs of `custom.c` -/

/-- The arrivals of a time step are accounted for. -/
theorem accounted_arrivals [DoubleArith D] {t : Nat} {s : Sim (scheduler D)}
    (hagree : Agree (books D) T t s)
    (h : Scored.Accounted t (State.scored s.sched)) :
    Scored.Accounted t (State.scored (addArrivals (scheduler D) s.processes t s.sched)) := by
  have hview : State.scored (addArrivals (scheduler D) s.processes t s.sched) =
      (arrivalsAt s.processes t).foldl Scored.addToReadyQueue (State.scored s.sched) := by
    rw [addArrivals_eq_foldl]
    exact (oblivious D).view_foldl _ _ hagree.ok ((books D).valid_arrivals hagree)
  rw [hview]
  exact h.foldl_add fun p hp => (mem_arrivalsAt.mp hp).2

theorem lt_uintMax_of_lt {t : Nat} (h : t < timeBound.toNat) : t < uintMax :=
  Nat.lt_of_lt_of_le h (Nat.le_of_lt_succ (UInt32.toNat_lt timeBound))

/-- In every reached state all time is accounted for. -/
theorem accounted_reached [DoubleArith D] {t : Nat} {s : Sim (scheduler D)}
    (h : Reached (scheduler D) T.start timeBound t s) :
    Scored.Accounted t (State.scored s.sched) := by
  induction h with
  | start => exact fun p hp => by cases hp
  | @tick t s s' h hbound hrun hstep ih =>
    have hagree := (books D).agree_reached h
    have hvalid := (books D).valid_addArrivals hagree
    obtain ⟨pid, sched, hnext, -, htick, -⟩ := (books D).tick_agree hagree hrun
    rw [hstep] at htick
    cases htick
    obtain ⟨s', hnext', hscored, -⟩ :=
      Ok.getNextScheduledProcess ((books D).agree_arrivals hagree).1 hvalid
    have heq := hnext.symm.trans hnext'
    cases heq
    show Scored.Accounted (t + 1) (State.scored sched)
    rw [hscored]
    exact (accounted_arrivals hagree ih).getNextScheduledProcess D (lt_uintMax_of_lt hbound)
      (valid_scored hvalid)

/-- The account of a node, with the history that `get_process_history` finds. -/
theorem Ok.history_account {s : State D} (hok : Ok s)
    (hnd : (s.nodes.map fun p => p.pid).Nodup) {t : Nat} (h : Scored.Accounted t s.scored)
    {p : CustomProcess} (hp : p ∈ s.nodes) :
    ∃ history, getProcessHistory s.processHistories p.pid = some (some history) ∧
      history.waitTime + p.processedTime + p.arrivalTime = t := by
  obtain ⟨history, hfind, -, -⟩ := hok.find_history hnd hp rfl
  refine ⟨history, ?_, ?_⟩
  · rw [hok.processHistories hp, getProcessHistory, Option.map_some, hfind]
  · have hmem : attach s.histories p ∈ s.scored.nodes := by
      rw [scored_nodes]
      exact List.mem_map_of_mem hp
    have hsum := h _ hmem
    have hwait : (attach s.histories p).waitTime = history.waitTime := by
      rw [attach, counters_of_find? hfind]
    rw [hwait] at hsum
    exact hsum

/-! ## Complete processes -/

/-- The pid that is returned is that of the process that has just run. -/
theorem getNextScheduledProcess_pid [DoubleArith D] {s s₁ s₂ s' : State D} {c : CustomProcess}
    {pid : Nat} (hdisp : dispatch s = some s₁) (hc : s₁.current = some c)
    (hcur : runCurrent s₁ c = some s₂) (hnext : getNextScheduledProcess s = some (pid, s')) :
    pid = c.pid := by
  simp only [getNextScheduledProcess, hdisp, hc, hcur, retire] at hnext
  split at hnext
  · cases hnext
  · split at hnext
    · cases hnext
      rfl
    · split at hnext
      · split at hnext
        · cases hnext
        · cases hnext
          rfl
      · cases hnext
        rfl

/-- The wait time of a row, from its account. -/
theorem calculateWaitTime_eq {p : ProcessStats} {wait : Nat} (hend : p.endTime < uintMax)
    (h : wait + p.processedTime + p.initial.arrivalTime = p.endTime + 1)
    (hpos : 0 < p.processedTime) : calculateWaitTime p = wait := by
  have hturn : calculateTurnaroundTime p = p.endTime - p.initial.arrivalTime + 1 := by
    rw [calculateTurnaroundTime, usub_of_le (by omega) hend.le, toUInt_of_le (by omega)]
  rw [calculateWaitTime, hturn, usub_of_le (by omega) (by omega)]
  omega

section Runs

variable [DoubleArith D] {t : Nat} {s : Sim (scheduler D)}

/-- A live process in the table has a node, and the history of the node accounts
for the time since its arrival. -/
theorem live_account (h : Reached (scheduler D) T.start timeBound (t + 1) s) {p : ProcessStats}
    (hp : p ∈ s.processes) (harr : p.initial.arrivalTime ≤ t)
    (hlt : p.processedTime < p.initial.processingTime) :
    ∃ node ∈ State.nodes s.sched, node.toJob = p.job ∧
      ∃ history, getProcessHistory (State.processHistories s.sched) node.pid =
          some (some history) ∧
        history.waitTime + node.processedTime = t - p.initial.arrivalTime + 1 := by
  have hagree := (books D).agree_reached h
  have hmem : p.job ∈ (State.nodes s.sched).map fun p => p.toJob :=
    hagree.books.mem_iff.mpr (List.mem_map.mpr ⟨p, List.mem_filter.mpr
      ⟨hp, decide_eq_true ⟨Nat.lt_succ_of_le harr, hlt⟩⟩, rfl⟩)
  obtain ⟨node, hnode, hjob⟩ := List.mem_map.mp hmem
  have hnd : ((State.nodes s.sched).map fun p => p.pid).Nodup :=
    pids_nodup_of_valid ((books D).valid_contents hagree)
  obtain ⟨history, hget, hsum⟩ :=
    Ok.history_account hagree.ok hnd (accounted_reached h) hnode
  refine ⟨node, hnode, hjob, history, hget, ?_⟩
  have harrival : node.arrivalTime = p.initial.arrivalTime := congrArg Job.arrivalTime hjob
  omega

/-- The process that runs in a time step is pending, and at the end of its unit of
time, before it is moved or freed, its history accounts for the time step too. -/
theorem current_account (h : Reached (scheduler D) T.start timeBound t s)
    (hbound : t < timeBound.toNat) {s₁ s₂ : State D} {c : CustomProcess}
    (hdisp : dispatch (addArrivals (scheduler D) s.processes t s.sched) = some s₁)
    (hc : s₁.current = some c) (hcur : runCurrent s₁ c = some s₂) :
    c.toJob ∈ pendingJobs t s.processes ∧ c.execute.processedTime = c.processedTime + 1 ∧
      ∃ history, getProcessHistory s₂.processHistories c.pid = some (some history) ∧
        history.waitTime + c.execute.processedTime + c.arrivalTime = t + 1 := by
  have hagree := (books D).agree_reached h
  have hvalid := (books D).valid_addArrivals hagree
  obtain ⟨hok, hpending⟩ := (books D).agree_arrivals hagree
  obtain ⟨s₁', hdisp', hscored, hok₁, hperm⟩ := Ok.dispatch hok hvalid
  cases hdisp.symm.trans hdisp'
  have hv₁ : ValidJobs (s₁.nodes.map fun p => p.toJob) := hvalid.perm (hperm.symm.map _)
  obtain ⟨s₂', hcur', hscored₂, hok₂, hc₂, hpids⟩ := hok₁.runCurrent hv₁ hc
  cases hcur.symm.trans hcur'
  have hcmem : c ∈ s₁.nodes := by simp [State.nodes, hc]
  have hcjob : c.toJob ∈ s₁.nodes.map fun p => p.toJob := List.mem_map_of_mem hcmem
  have hlt := hv₁.lt _ hcjob
  have hle := (hv₁.lt_uintMax _ hcjob).le
  have hacc₁ : Scored.Accounted t s₁.scored := by
    rw [hscored]
    exact (accounted_arrivals hagree (accounted_reached h)).of_perm
      (Scored.dispatch_nodes D (valid_scored hvalid))
  have hacc₂ : Scored.Accounted (t + 1) s₂.scored := by
    rw [hscored₂]
    refine hacc₁.runCurrent (lt_uintMax_of_lt hbound) ?_ hlt hle
    rw [State.scored, hc]
    rfl
  have hnd₂ : (s₂.nodes.map fun p => p.pid).Nodup := hpids ▸ pids_nodup_of_valid hv₁
  exact ⟨hpending.mem_iff.mp ((hperm.map _).mem_iff.mp hcjob), incr_of_lt hlt hle,
    hok₂.history_account hnd₂ hacc₂ (show c.execute ∈ s₂.nodes by simp [State.nodes, hc₂])⟩

/-- The wait time of a process that completes, as its history has it just before it
is freed, is that of its row at the end of the run. -/
theorem complete_account (h : Reached (scheduler D) T.start timeBound t s)
    (hbound : t < timeBound.toNat) (hrun : stillRunning s.processes = true) {s₁ s₂ : State D}
    {c : CustomProcess}
    (hdisp : dispatch (addArrivals (scheduler D) s.processes t s.sched) = some s₁)
    (hc : s₁.current = some c) (hcur : runCurrent s₁ c = some s₂)
    (hdone : c.execute.processedTime = c.execute.processingTime) {result : Bool}
    {sEnd : Sim (scheduler D)}
    (hend : runSimulation (scheduler D) T.start timeBound = some (result, sEnd)) :
    ∃ history, getProcessHistory s₂.processHistories c.pid = some (some history) ∧
      ∃ p ∈ sEnd.processes, p.initial.pid = c.pid ∧
        history.waitTime = calculateWaitTime p := by
  obtain ⟨hpending, hincr, history, hget, hsum⟩ := current_account h hbound hdisp hc hcur
  -- the row of `c` after this time step, which is final
  obtain ⟨p, hp, -, hjob⟩ := mem_pendingJobs.mp hpending
  obtain ⟨hpid, htotal, harrival, hproc⟩ := Job.mk.inj hjob
  have hlast : p.processedTime + 1 = p.initial.processingTime := by
    rw [hproc, htotal, ← hincr]
    exact hdone
  obtain ⟨pid, sched, hnext, -, -, -⟩ :=
    (books D).tick_agree ((books D).agree_reached h) hrun
  have hserved := getNextScheduledProcess_pid hdisp hc hcur hnext
  rw [hserved, ← hpid] at hnext
  refine ⟨history, hget, _, (books D).complete_at_end h hbound hrun hp hlast hnext hend, hpid, ?_⟩
  refine (calculateWaitTime_eq (lt_uintMax_of_lt hbound) ?_ (Nat.succ_pos _)).symm
  show history.waitTime + (p.processedTime + 1) + p.initial.arrivalTime = t + 1
  rw [hproc, harrival]
  exact hincr ▸ hsum

end Runs

/-- **Wait accounting.** After the call of time step `t` each process that has
arrived and is not complete has waited for the time since its arrival less what
it has received. When a process completes, the wait time that is about to be
freed with its history is the one that `calculate_wait_time` gives for its row at
the end of the run. -/
theorem custom_wait_times (D : Type) [DoubleArith D] (T : Table) (timeBound : UInt32) :
    (∀ t s, Reached (scheduler D) T.start timeBound (t + 1) s →
      ∀ p ∈ s.processes, p.initial.arrivalTime ≤ t →
        p.processedTime < p.initial.processingTime →
        ∃ node ∈ State.nodes s.sched, node.toJob = p.job ∧
          ∃ history, getProcessHistory (State.processHistories s.sched) node.pid =
              some (some history) ∧
            history.waitTime + node.processedTime = t - p.initial.arrivalTime + 1) ∧
    ∀ t s s₁ s₂ c result sEnd, Reached (scheduler D) T.start timeBound t s →
      t < timeBound.toNat → stillRunning s.processes = true →
      dispatch (addArrivals (scheduler D) s.processes t s.sched) = some s₁ →
      s₁.current = some c → runCurrent s₁ c = some s₂ →
      c.execute.processedTime = c.execute.processingTime →
      runSimulation (scheduler D) T.start timeBound = some (result, sEnd) →
      ∃ history, getProcessHistory s₂.processHistories c.pid = some (some history) ∧
        ∃ p ∈ sEnd.processes, p.initial.pid = c.pid ∧
          history.waitTime = calculateWaitTime p := by
  constructor
  · intro t s h p hp harr hlt
    exact live_account h hp harr hlt
  · intro t s s₁ s₂ c result sEnd h hbound hrun hdisp hc hcur hdone hend
    exact complete_account h hbound hrun hdisp hc hcur hdone hend

/-- The crowded table, at the start of time step 7: process 3 has arrived and is
not complete, and process 2 completes in this time step. -/
theorem custom_wait_times_crowded :
    ∃ s result sEnd s₁ s₂ c, Reached (scheduler ℚ) crowdedTable.start 1000000 7 s ∧
      runSimulation (scheduler ℚ) crowdedTable.start 1000000 = some (result, sEnd) ∧
      (∃ p ∈ s.processes, p.initial.pid = 3 ∧ ∃ node ∈ State.nodes s.sched, node.toJob = p.job ∧
        ∃ history, getProcessHistory (State.processHistories s.sched) node.pid =
            some (some history) ∧
          history.waitTime + node.processedTime = 6 - p.initial.arrivalTime + 1) ∧
      dispatch (addArrivals (scheduler ℚ) s.processes 7 s.sched) = some s₁ ∧
      s₁.current = some c ∧ runCurrent s₁ c = some s₂ ∧ c.pid = 2 ∧
      ∃ history, getProcessHistory s₂.processHistories c.pid = some (some history) ∧
        ∃ p ∈ sEnd.processes, p.initial.pid = c.pid ∧
          history.waitTime = calculateWaitTime p := by
  obtain ⟨s, h, htest⟩ := exists_reached (scheduler ℚ) crowdedTable.start 1000000 7
    (p := fun s => stillRunning s.processes = true ∧
      (∃ p ∈ s.processes, p.initial.pid = 3 ∧ p.initial.arrivalTime ≤ 6 ∧
        p.processedTime < p.initial.processingTime) ∧
      (dispatch (addArrivals (scheduler ℚ) s.processes 7 s.sched)).any fun s₁ =>
        s₁.current.any fun c => (runCurrent s₁ c).any fun _ =>
          c.pid = 2 ∧ c.execute.processedTime = c.execute.processingTime) (by decide +kernel)
  obtain ⟨hrun, ⟨p, hp, hpid, harr, hlt⟩, hdispatch⟩ := of_decide_eq_true htest
  obtain ⟨s₁, hdisp, hcurrent⟩ := (Option.any_eq_true _ _).mp hdispatch
  obtain ⟨c, hc, hcall⟩ := (Option.any_eq_true _ _).mp hcurrent
  obtain ⟨s₂, hcur, hlast⟩ := (Option.any_eq_true _ _).mp hcall
  obtain ⟨hc2, hdone⟩ := of_decide_eq_true hlast
  obtain ⟨N, sEnd, hend, -⟩ := (books ℚ).runSimulation_eq crowdedTable 1000000
  obtain ⟨hlive, hcomplete⟩ := custom_wait_times ℚ crowdedTable 1000000
  exact ⟨s, _, sEnd, s₁, s₂, c, h, hend, ⟨p, hp, hpid, hlive 6 s h p hp harr hlt⟩, hdisp, hc,
    hcur, hc2, hcomplete 7 s s₁ s₂ c _ sEnd h (by decide) hrun hdisp hc hcur hdone hend⟩

end Custom

end Cosc240
