import Cosc240.Schedulers.FcfsCalls
import Mathlib.Order.Interval.Finset.Nat

/-!
# When `fcfs.c` runs each process

In a run of the simulator the processes run one after the other, by arrival time
and then by pid, each without interruption from the time it has arrived and the
one before it is complete. The slots of the table say when that is, and the
invariant is that the trace so far is the part of the slots that lies in the
past.

- `Table.byKey`, `Table.slots`: the processes in that order, and the slot of each. It starts at the
  maximum of the finish before it and its arrival, and is as long as its processing time.
- `Fills`: a trace is the part of the slots before its end.
- `Fills.pending_iff`: a process is pending from its arrival to the end of its slot.
- `pid_eq_iff`: the pid returned at the present time is that of the process whose slot it is in,
  which combines the sorted list (`FcfsCalls`) with the position in the slots.

Main results:

- `fills_reached`: in every reached state the list is sorted and the trace fills the slots.
- `fcfs_correct`: after any calls, `process_list` is sorted by arrival time and pid and holds what
  is not complete, and the next call returns the right pid. In a run that returns `TRUE` each
  process runs exactly in its slot, and its `end_time` is the last time step of the slot.
-/

namespace Cosc240

open Lib

/-! ## Slots -/

/-- The processes by arrival time, then by pid. -/
def Table.byKey (T : Table) : List ProcessInitial :=
  T.processes.insertionSort fun p q =>
    p.arrivalTime < q.arrivalTime ∨ p.arrivalTime = q.arrivalTime ∧ p.pid ≤ q.pid

/-- Process `i` starts at `max C_{i-1} arrival_i` and finishes at `C_i`, which
is `processing_i` later. -/
def Table.slots (T : Table) : List (Slot ProcessInitial) :=
  Lib.slots ProcessInitial.arrivalTime ProcessInitial.processingTime 0 T.byKey

section Table

variable {T : Table}

theorem Table.byKey_perm (T : Table) : T.byKey.Perm T.processes :=
  List.perm_insertionSort _ _

theorem Table.byKey_sorted (T : Table) :
    T.byKey.Pairwise (KeyLt ProcessInitial.arrivalTime ProcessInitial.pid) := by
  have : Std.Total fun p q : ProcessInitial =>
      p.arrivalTime < q.arrivalTime ∨ p.arrivalTime = q.arrivalTime ∧ p.pid ≤ q.pid :=
    ⟨fun p q => by omega⟩
  have : IsTrans ProcessInitial fun p q =>
      p.arrivalTime < q.arrivalTime ∨ p.arrivalTime = q.arrivalTime ∧ p.pid ≤ q.pid :=
    ⟨fun p q r hpq hqr => by omega⟩
  have hle : T.byKey.Pairwise fun p q =>
      p.arrivalTime < q.arrivalTime ∨ p.arrivalTime = q.arrivalTime ∧ p.pid ≤ q.pid :=
    List.pairwise_insertionSort _ _
  have hne : T.byKey.Pairwise fun p q => p.pid ≠ q.pid :=
    List.pairwise_map.mp ((T.byKey_perm.map ProcessInitial.pid).nodup_iff.mpr T.pids_nodup)
  refine (hle.and hne).imp fun {p q} h => ?_
  show p.arrivalTime < q.arrivalTime ∨ p.arrivalTime = q.arrivalTime ∧ p.pid < q.pid
  obtain ⟨h, hpid⟩ := h
  omega

theorem Table.slots_job (T : Table) : T.slots.map Slot.job = T.byKey := slots_map_job 0 T.byKey

theorem Table.job_mem {slot : Slot ProcessInitial} (h : slot ∈ T.slots) :
    slot.job ∈ T.processes := by
  rw [← T.byKey_perm.mem_iff, ← T.slots_job]
  exact List.mem_map_of_mem h

theorem Table.exists_slot {p : ProcessInitial} (h : p ∈ T.processes) :
    ∃ slot ∈ T.slots, slot.job = p := by
  rw [← T.byKey_perm.mem_iff, ← T.slots_job] at h
  exact List.mem_map.mp h

/-- Two slots that contain one time step are the same. -/
theorem Table.slot_unique {slot slot' : Slot ProcessInitial} (h : slot ∈ T.slots)
    (h' : slot' ∈ T.slots) {t : Nat} (hs : slot.start ≤ t) (hf : t < slot.finish)
    (hs' : slot'.start ≤ t) (hf' : t < slot'.finish) : slot = slot' := by
  by_contra hne
  have hpair : T.slots.Pairwise fun s s' : Slot ProcessInitial =>
      s.finish ≤ s'.start ∨ s'.finish ≤ s.start :=
    (slots_pairwise 0 T.byKey).imp Or.inl
  have : Std.Symm fun s s' : Slot ProcessInitial =>
      s.finish ≤ s'.start ∨ s'.finish ≤ s.start := ⟨fun _ _ => Or.symm⟩
  rcases hpair.forall h h' hne with hle | hle
  · omega
  · omega

end Table

/-! ## The slots and the trace -/

section Trace

variable {T : Table} {σ : List Nat} {processes : List ProcessStats}

/-- The trace `σ` is the part of the slots before `σ.length`. -/
def Fills (T : Table) (σ : List Nat) : Prop :=
  ∀ slot ∈ T.slots, ∀ i, σ[i]? = some slot.job.pid ↔
    slot.start ≤ i ∧ i < slot.finish ∧ i < σ.length

theorem Fills.processedTime_eq (h : Fills T σ) {slot : Slot ProcessInitial}
    (hslot : slot ∈ T.slots) {p : ProcessStats} (hrow : RowOk σ p) (hp : p.initial = slot.job) :
    p.processedTime = min slot.finish σ.length - slot.start := by
  have hset : (Finset.range σ.length).filter (fun i => σ[i]? = some slot.job.pid) =
      Finset.Ico slot.start (min slot.finish σ.length) := by
    ext i
    rw [Finset.mem_filter, h slot hslot i, Finset.mem_range, Finset.mem_Ico]
    omega
  rw [hrow.count, hp, count_eq_card, hset, Nat.card_Ico]

/-- A process is pending from its arrival to the end of its slot. -/
theorem Fills.pending_iff (h : Fills T σ) {slot : Slot ProcessInitial}
    (hslot : slot ∈ T.slots) {p : ProcessStats} (hrow : RowOk σ p) (hp : p.initial = slot.job) :
    p.Pending σ.length ↔ slot.job.arrivalTime ≤ σ.length ∧ σ.length < slot.finish := by
  have hproc := h.processedTime_eq hslot hrow hp
  have hfinish : slot.finish = slot.start + slot.job.processingTime := slots_finish hslot
  have hpos := T.processingTime_pos _ (Table.job_mem hslot)
  rw [ProcessStats.Pending, hproc, hp]
  omega

/-- The slot of the first pending process contains the present. -/
theorem Fills.start_le (h : Fills T σ) (hσ : Schedule T σ processes)
    {slot : Slot ProcessInitial} (hslot : slot ∈ T.slots)
    (harr : slot.job.arrivalTime ≤ σ.length)
    (hfirst : ∀ p ∈ processes, p.Pending σ.length → p.initial ≠ slot.job →
      KeyLt ProcessInitial.arrivalTime ProcessInitial.pid slot.job p.initial) :
    slot.start ≤ σ.length := by
  obtain ⟨pre, post, hsplit⟩ := List.append_of_mem hslot
  refine Lib.start_le hsplit (Nat.zero_le _) harr fun slot' hslot' => ?_
  by_contra hlt
  -- the process of an earlier slot that is not over would be pending, and come first
  have hmem : slot' ∈ T.slots := hsplit ▸ List.mem_append_left _ hslot'
  have hsorted := T.byKey_sorted
  rw [← T.slots_job, hsplit, List.map_append, List.map_cons] at hsorted
  have hbefore : KeyLt ProcessInitial.arrivalTime ProcessInitial.pid slot'.job slot.job :=
    (List.pairwise_append.mp hsorted).2.2 _ (List.mem_map_of_mem hslot') _ (by simp)
  have harr' : slot'.job.arrivalTime ≤ slot.job.arrivalTime := by
    rcases hbefore with hlt | ⟨heq, -⟩
    · exact hlt.le
    · exact heq.le
  obtain ⟨p, hp, hinit⟩ := mem_rows hσ.initial (Table.job_mem hmem)
  have hpend : p.Pending σ.length :=
    (h.pending_iff hmem (hσ.rowOk p hp) hinit).mpr ⟨harr'.trans harr, by omega⟩
  by_cases heq : p.initial = slot.job
  · rw [← hinit, heq] at hbefore
    exact hbefore.asymm hbefore
  · rw [← hinit] at hbefore
    exact (hfirst p hp hpend heq).asymm hbefore

end Trace

namespace Fcfs

/-! ## `process_list` in a run -/

variable {T : Table} {timeBound : UInt32}

/-- `process_list` is sorted after the arrivals. -/
theorem sorted_addArrivals {processes : List ProcessStats} {t : Nat}
    {processList : List FcfsProcess}
    (hv : ValidJobs ((arrivalsAt processes t).map ProcessInitial.job ++ processList))
    (hs : processList.Pairwise Before) :
    List.Pairwise Before (addArrivals scheduler processes t processList) := by
  have hnd := hv.nodup
  rw [List.map_append, List.nodup_append] at hnd
  obtain ⟨hnew, -, hdisj⟩ := hnd
  have hfold : addArrivals scheduler processes t processList =
      ((arrivalsAt processes t).map ProcessInitial.job).foldl
        (fun l j => skipInsert Job.arrivalTime Job.pid j l) processList := by
    refine (addArrivals_eq_foldl scheduler processes t processList).trans ?_
    rw [List.foldl_map]
    rfl
  rw [hfold]
  exact foldl_skipInsert_sorted hs (List.pairwise_map.mp hnew) fun j hj k hk =>
    (hdisj _ (List.mem_map_of_mem hj) _ (List.mem_map_of_mem hk)).symm

/-- The pid that is returned, and the list that is left. -/
theorem next_cases {processList : List FcfsProcess} (hv : ValidJobs processList) :
    processList = [] ∧ getNextScheduledProcess processList = (0, []) ∨
      ∃ j rest, processList = j :: rest ∧
        getNextScheduledProcess processList = (j.pid, j.served ++ rest) := by
  cases processList with
  | nil => exact Or.inl ⟨rfl, rfl⟩
  | cons j rest =>
    refine Or.inr ⟨j, rest, rfl, ?_⟩
    exact getNextScheduledProcess_cons (hv.lt j (by simp)) (hv.lt_uintMax j (by simp)).le

/-- `process_list` is sorted after the next process is taken. -/
theorem sorted_next {processList : List FcfsProcess} (hv : ValidJobs processList)
    (hs : processList.Pairwise Before) :
    (getNextScheduledProcess processList).2.Pairwise Before := by
  rcases next_cases hv with ⟨-, hnext⟩ | ⟨j, rest, rfl, hnext⟩
  · rw [hnext]
    exact List.Pairwise.nil
  · rw [hnext]
    exact sorted_served hs

/-- **The pid returned at the present time** is that of the process whose slot it
is in. -/
theorem pid_eq_iff {σ : List Nat} {processes : List ProcessStats} {processList : List FcfsProcess}
    (hσ : Schedule T σ processes) (h : Fills T σ) (hsorted : processList.Pairwise Before)
    (hperm : processList.Perm (pendingJobs σ.length processes)) {slot : Slot ProcessInitial}
    (hslot : slot ∈ T.slots) :
    (getNextScheduledProcess processList).1 = slot.job.pid ↔
      slot.start ≤ σ.length ∧ σ.length < slot.finish := by
  have hv : ValidJobs processList := (pendingJobs_valid hσ.initial _).perm hperm.symm
  have hpending : ∀ p ∈ processes, p.Pending σ.length → p.job ∈ processList := fun p hp hpend =>
    hperm.mem_iff.mpr (mem_pendingJobs.mpr ⟨p, hp, hpend, rfl⟩)
  rcases next_cases hv with ⟨hnil, hnext⟩ | ⟨j, rest, hcons, hnext⟩
  · -- nobody is pending, so the present is in no slot
    rw [hnext]
    constructor
    · intro hz
      exact absurd hz (Nat.ne_of_lt (T.pid_pos _ (Table.job_mem hslot)))
    · rintro ⟨hstart, hfinish⟩
      obtain ⟨p, hp, hinit⟩ := mem_rows hσ.initial (Table.job_mem hslot)
      have harr : slot.job.arrivalTime ≤ σ.length := (arrival_le_start hslot).trans hstart
      have hmem := hpending p hp
        ((h.pending_iff hslot (hσ.rowOk p hp) hinit).mpr ⟨harr, hfinish⟩)
      rw [hnil] at hmem
      cases hmem
  · rw [hnext]
    obtain ⟨p, hp, hpend, rfl⟩ := mem_pendingJobs.mp (hperm.mem_iff.mp (hcons ▸ List.mem_cons_self))
    obtain ⟨slot', hslot', hjob⟩ := Table.exists_slot (initial_mem hσ.initial hp)
    obtain ⟨harr, hfinish⟩ := (h.pending_iff hslot' (hσ.rowOk p hp) hjob.symm).mp hpend
    have hstart : slot'.start ≤ σ.length := by
      refine h.start_le hσ hslot' harr fun q hq hqpend hne => ?_
      have hmem := hpending q hq hqpend
      rw [hcons, List.mem_cons] at hmem
      rw [hcons] at hsorted
      rw [hjob] at hne ⊢
      rcases hmem with heq | hmem
      · have hpid : q.initial.pid = p.initial.pid := congrArg Job.pid heq
        exact absurd (congrArg ProcessStats.initial (eq_of_pid_eq hσ.initial hq hp hpid)) hne
      · exact (List.pairwise_cons.mp hsorted).1 q.job hmem
    constructor
    · intro hpid
      have heq : slot'.job = slot.job :=
        T.eq_of_pid_eq (Table.job_mem hslot') (Table.job_mem hslot) (by rw [hjob]; exact hpid)
      have hnd : (T.slots.map Slot.job).Nodup := by
        rw [T.slots_job]
        exact T.byKey_perm.nodup_iff.mpr T.nodup
      rw [← List.inj_on_of_nodup_map hnd hslot' hslot heq]
      exact ⟨hstart, hfinish⟩
    · rintro ⟨hs, hf⟩
      rw [← Table.slot_unique hslot' hslot hstart hfinish hs hf, hjob]
      rfl

/-- One more time step in the slots. -/
theorem fills_concat {σ : List Nat} {pid : Nat} (h : Fills T σ)
    (hpid : ∀ slot ∈ T.slots, pid = slot.job.pid ↔
      slot.start ≤ σ.length ∧ σ.length < slot.finish) : Fills T (σ ++ [pid]) := by
  intro slot hslot i
  rw [List.length_append, List.length_singleton]
  rw [getElem?_concat_eq_some_iff, h slot hslot i, hpid slot hslot]
  omega

/-- **In every reached state** the list is sorted and the trace fills the slots. -/
theorem fills_reached {t : Nat} {s : Sim scheduler} (h : Reached scheduler T.start timeBound t s) :
    List.Pairwise Before s.sched ∧ ∃ σ, σ.length = t ∧ Schedule T σ s.processes ∧
      s.output = .header :: σ.mapIdx Line.step ∧ Fills T σ := by
  induction h with
  | start =>
    refine ⟨List.Pairwise.nil, [], rfl, .start, rfl, fun slot _ i => ?_⟩
    simp
  | tick h _ hrun hstep ih =>
    obtain ⟨hsorted, σ, rfl, hσ, hout, hfills⟩ := ih
    have hagree := books.agree_reached h
    obtain ⟨pid, sched, hnext, hd, htick, -⟩ := books.tick_agree hagree hrun
    rw [hstep] at htick
    cases htick
    have hsorted' := sorted_addArrivals (books.valid_arrivals hagree) hsorted
    have hperm := (books.agree_arrivals hagree).2
    have hsorted₁ := sorted_next (books.valid_addArrivals hagree) hsorted'
    have hnext' : getNextScheduledProcess (addArrivals scheduler _ σ.length _) = (pid, sched) :=
      Option.some.inj hnext
    refine ⟨?_, σ ++ [pid], by simp, hσ.tick hrun hd, ?_, fills_concat hfills fun slot hslot => ?_⟩
    · exact (congrArg (List.Pairwise Before) (congrArg Prod.snd hnext')).mp hsorted₁
    · rw [hout, List.mapIdx_append]
      simp
    · exact (Eq.congr_left (congrArg Prod.fst hnext')).symm.trans
        (pid_eq_iff hσ hfills hsorted' hperm hslot)

/-- **`fcfs.c`.** After any calls that add processes with distinct pids and some
work each, `process_list` is strictly sorted by arrival time and pid and holds
exactly the processes that are not complete, and the next call returns the pid
of the first of them, or 0. In a run that returns `TRUE` each process runs
exactly in its slot, and its `end_time` is the last time step of the slot. -/
theorem fcfs_correct :
    (∀ cs : List Call, ((cs.filterMap Call.process?).map ProcessInitial.pid).Nodup →
      (∀ p ∈ cs.filterMap Call.process?, 0 < p.processingTime ∧ p.processingTime ≤ uintMax) →
      (calls cs).1.Pairwise Before ∧
        (calls cs).2.map initialOf = cs.filterMap Call.process? ∧
        (calls cs).1.Perm (incomplete (calls cs).2) ∧
        IsNext (calls cs).2 (getNextScheduledProcess (calls cs).1).1) ∧
    ∀ (T : Table) (timeBound : UInt32) (s : Sim scheduler),
      runSimulation scheduler T.start timeBound = some (true, s) →
      ∀ slot ∈ T.slots,
        (∀ t, (t, slot.job.pid) ∈ s.trace ↔ slot.start ≤ t ∧ t < slot.finish) ∧
        ∃ p ∈ s.processes, p.initial = slot.job ∧ p.endTime = slot.finish - 1 := by
  constructor
  · intro cs hnd hwork
    have hok := callsOk cs hnd (fun p hp => (hwork p hp).1) fun p hp => (hwork p hp).2
    exact ⟨hok.sorted, calls_ledger cs, hok.holds, hok.isNext⟩
  · intro T timeBound s hrun slot hslot
    obtain ⟨N, hs, hstill⟩ := books.reached_of_runSimulation_true hrun
    obtain ⟨-, σ, rfl, hσ, hout, hfills⟩ := fills_reached hs
    have htrace : s.trace = σ.mapIdx fun t pid => (t, pid) := by
      rw [Sim.trace, hout, filterMap_step?]
    obtain ⟨p, hp, hinit⟩ := mem_rows hσ.initial (Table.job_mem hslot)
    have hrow := hσ.rowOk p hp
    have hfinish : slot.finish = slot.start + slot.job.processingTime := slots_finish hslot
    have hpos := T.processingTime_pos _ (Table.job_mem hslot)
    -- the run is over, so the slot is
    have hdone : p.processedTime = p.initial.processingTime := hσ.processedTime_eq hstill hp
    have hover : slot.finish ≤ σ.length := by
      have hproc := hfills.processedTime_eq hslot hrow hinit
      rw [hdone, hinit] at hproc
      omega
    refine ⟨fun t => ?_, p, hp, hinit, ?_⟩
    · rw [htrace, mem_mapIdx_pair, hfills slot hslot t]
      omega
    · obtain ⟨hend, hlast⟩ := hrow.last hdone
      rw [hinit] at hend hlast
      have hin := (hfills slot hslot p.endTime).mp hend
      have hmax := hlast (slot.finish - 1) ((hfills slot hslot _).mpr (by omega))
      omega

/-- Processes that are added out of order, and the example of `readme.md`, in
which process 2 arrives at time 2 and runs at time 10. -/
theorem fcfs_correct_readme :
    IsNext (calls [.add ⟨7, 2, 5⟩, .next, .add ⟨4, 1, 0⟩]).2 4 ∧
      ∃ s, runSimulation scheduler readmeTable.start 1000000 = some (true, s) ∧
        ∀ t, (t, 2) ∈ s.trace ↔ 10 ≤ t ∧ t < 11 := by
  have hcalls := fcfs_correct.1 [.add ⟨7, 2, 5⟩, .next, .add ⟨4, 1, 0⟩] (by decide) (by decide)
  refine ⟨hcalls.2.2.2, ?_⟩
  let s : Sim scheduler :=
    { processes := [⟨⟨1, 10, 0⟩, 10, 9⟩, ⟨⟨2, 1, 2⟩, 1, 10⟩, ⟨⟨3, 2, 6⟩, 2, 12⟩]
      sched := []
      output := .header :: [1, 1, 1, 1, 1, 1, 1, 1, 1, 1, 2, 3, 3].mapIdx Line.step }
  have hrun : runSimulation scheduler readmeTable.start 1000000 = some (true, s) := rfl
  have hslot : (⟨⟨2, 1, 2⟩, 10, 11⟩ : Slot ProcessInitial) ∈ readmeTable.slots := by decide
  exact ⟨s, hrun, (fcfs_correct.2 readmeTable 1000000 s hrun _ hslot).1⟩

end Fcfs

end Cosc240
