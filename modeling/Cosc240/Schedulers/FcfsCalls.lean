import Cosc240.Schedulers.Fcfs

/-!
# `fcfs.c` under any calls

Whatever the order in which processes are added, and whenever the next one is
asked for, `process_list` is sorted and holds what is not complete. Nothing is assumed of the
simulator here: the calls of `add_to_ready_queue` and `get_next_scheduled_process`
(fcfs.c:69–136) come in any order.

- `Call`: a call of either function. `calls` are the list and the ledger after some calls. The
  ledger keeps a record of all processes that were ever added, and is brought up to date from the
  calls and the returned pids alone (`credit`).
- `Before`: the order of `process_list`, by arrival time and then by pid.
- `IsNext`: the pid to return, that of the first process which is not complete, or 0.
- `CallsOk`: the invariant between calls. The list is sorted, and holds the processes of the ledger
  that are not complete.

Main results:

- `CallsOk.add` and `CallsOk.next`: each of the two calls keeps the invariant.
- `CallsOk.isNext`: what is returned is the right pid.
- `callsOk`: the invariant holds after any calls that add processes with distinct pids.
-/

namespace Cosc240

open Lib

namespace Fcfs

/-- The order of `process_list`: by arrival time, then by pid. -/
abbrev Before : Job → Job → Prop := KeyLt Job.arrivalTime Job.pid

/-- A call from the simulator. -/
inductive Call where
  | add (process : ProcessInitial)
  | next

/-- The process that a call adds, if any. -/
def Call.process? : Call → Option ProcessInitial
  | add process => some process
  | next => none

/-- `pid` has been returned: its process gets a unit of time, if it needs one. -/
def credit (pid : Nat) (ledger : List Job) : List Job :=
  ledger.map fun j =>
    if j.pid = pid ∧ j.processedTime < j.processingTime then
      { j with processedTime := j.processedTime + 1 }
    else j

/-- The processes of the ledger that need more time. -/
def incomplete (ledger : List Job) : List Job :=
  ledger.filter fun j => j.processedTime < j.processingTime

/-- `process_list` and the ledger after a call. -/
def call (s : List FcfsProcess × List Job) : Call → List FcfsProcess × List Job
  | .add process => (addToReadyQueue s.1 process, s.2 ++ [process.job])
  | .next =>
    let (pid, processList) := getNextScheduledProcess s.1
    (processList, credit pid s.2)

/-- `process_list` and the ledger after some calls. -/
def calls (cs : List Call) : List FcfsProcess × List Job :=
  cs.foldl call ([], [])

/-- The pid to return: that of the first process which is not complete, or 0. -/
def IsNext (ledger : List Job) (pid : Nat) : Prop :=
  incomplete ledger = [] ∧ pid = 0 ∨
    ∃ j ∈ incomplete ledger, pid = j.pid ∧ ∀ k ∈ incomplete ledger, k ≠ j → Before j k

/-- The invariant between calls. -/
structure CallsOk (processList : List FcfsProcess) (ledger : List Job) : Prop where
  sorted : processList.Pairwise Before
  /-- `process_list` holds exactly the processes that are not complete. -/
  holds : processList.Perm (incomplete ledger)
  pids_nodup : (ledger.map Job.pid).Nodup
  le_uintMax : ∀ j ∈ ledger, j.processingTime ≤ uintMax

theorem callsOk_nil : CallsOk [] [] where
  sorted := List.Pairwise.nil
  holds := List.Perm.refl _
  pids_nodup := List.nodup_nil
  le_uintMax j hj := by cases hj

section Step

variable {processList : List FcfsProcess} {ledger : List Job}

theorem incomplete_sublist (ledger : List Job) : (incomplete ledger).Sublist ledger :=
  List.filter_sublist

theorem incomplete_append (l₁ l₂ : List Job) :
    incomplete (l₁ ++ l₂) = incomplete l₁ ++ incomplete l₂ :=
  List.filter_append _ _

theorem incomplete_cons_of_lt {j : Job} (h : j.processedTime < j.processingTime)
    (l : List Job) : incomplete (j :: l) = j :: incomplete l := by
  simp [incomplete, h]

@[simp] theorem credit_map_pid (pid : Nat) (ledger : List Job) :
    (credit pid ledger).map Job.pid = ledger.map Job.pid := by
  rw [credit, List.map_map]
  refine List.map_congr_left fun j _ => ?_
  rw [Function.comp_apply]
  split <;> rfl

/-- A pid that is not in the ledger earns nothing. -/
theorem credit_of_ne {pid : Nat} (h : ∀ j ∈ ledger, j.pid ≠ pid) : credit pid ledger = ledger := by
  rw [credit, List.map_congr_left fun j hj => if_neg fun hc => h j hj hc.1]
  simp

/-- Nothing changes when everything is complete. -/
theorem credit_of_complete (pid : Nat) (h : incomplete ledger = []) :
    credit pid ledger = ledger := by
  have hnone : ∀ j ∈ ledger, ¬ j.processedTime < j.processingTime := by
    intro j hj hlt
    exact List.filter_eq_nil_iff.mp h j hj (decide_eq_true hlt)
  rw [credit, List.map_congr_left fun j hj => if_neg fun hc => hnone j hj hc.2]
  simp

/-- A unit of time for one process of the ledger. -/
theorem incomplete_credit {l₁ l₂ : List Job} {j : Job}
    (hnd : ((l₁ ++ j :: l₂).map Job.pid).Nodup) (hlt : j.processedTime < j.processingTime) :
    incomplete (credit j.pid (l₁ ++ j :: l₂)) =
      incomplete l₁ ++ (j.served ++ incomplete l₂) := by
  rw [List.map_append, List.map_cons, List.nodup_append] at hnd
  obtain ⟨-, hnd₂, hdisj⟩ := hnd
  have h₁ : credit j.pid l₁ = l₁ := credit_of_ne fun k hk =>
    hdisj _ (List.mem_map_of_mem hk) _ (by simp)
  have h₂ : credit j.pid l₂ = l₂ := credit_of_ne fun k hk heq =>
    (List.nodup_cons.mp hnd₂).1 (heq ▸ List.mem_map_of_mem hk)
  have hself : credit j.pid [j] = [{ j with processedTime := j.processedTime + 1 }] := by
    simp [credit, hlt]
  have hserved : incomplete [{ j with processedTime := j.processedTime + 1 }] = j.served := by
    rw [Job.served]
    by_cases hdone : j.processedTime + 1 = j.processingTime
    · simp [incomplete, hdone]
    · have hlt' : j.processedTime + 1 < j.processingTime := by omega
      simp [incomplete, hdone, hlt']
  have hsplit : credit j.pid (l₁ ++ j :: l₂) =
      credit j.pid l₁ ++ (credit j.pid [j] ++ credit j.pid l₂) := by
    simp [credit]
  rw [hsplit, h₁, h₂, hself, incomplete_append, incomplete_append, hserved]

theorem CallsOk.lt (h : CallsOk processList ledger) {j : Job} (hj : j ∈ processList) :
    j.processedTime < j.processingTime :=
  of_decide_eq_true (List.mem_filter.mp (h.holds.mem_iff.mp hj)).2

theorem CallsOk.mem (h : CallsOk processList ledger) {j : Job} (hj : j ∈ processList) :
    j ∈ ledger :=
  (incomplete_sublist ledger).subset (h.holds.mem_iff.mp hj)

/-- **Adding a process** with a new pid keeps the list sorted. -/
theorem CallsOk.add (h : CallsOk processList ledger) {process : ProcessInitial}
    (hnew : process.pid ∉ ledger.map Job.pid) (hpos : 0 < process.processingTime)
    (hmax : process.processingTime ≤ uintMax) :
    CallsOk (addToReadyQueue processList process) (ledger ++ [process.job]) where
  sorted := skipInsert_sorted h.sorted fun j hj heq => by
    -- the pids of the list are pids of the ledger
    have hpid : j.pid = process.pid := heq
    exact hnew (hpid ▸ List.mem_map_of_mem (h.mem hj))
  holds := by
    rw [incomplete_append, incomplete_cons_of_lt hpos]
    exact (skipInsert_perm process.job processList).trans
      ((h.holds.cons _).trans (List.perm_append_singleton _ _).symm)
  pids_nodup := by
    rw [List.map_append, List.map_singleton]
    exact List.nodup_append.mpr ⟨h.pids_nodup, List.nodup_singleton _, by
      rintro pid hpid _ hself rfl
      rw [List.mem_singleton.mp hself] at hpid
      exact hnew hpid⟩
  le_uintMax j hj := by
    rcases List.mem_append.mp hj with hj | hj
    · exact h.le_uintMax j hj
    · rw [List.mem_singleton.mp hj]
      exact hmax

/-- What is returned is the pid of the first process that is not complete. -/
theorem CallsOk.isNext (h : CallsOk processList ledger) :
    IsNext ledger (getNextScheduledProcess processList).1 := by
  cases hl : processList with
  | nil =>
    have hnil := h.holds
    rw [hl] at hnil
    exact Or.inl ⟨hnil.symm.eq_nil, rfl⟩
  | cons j rest =>
    have hj : j ∈ processList := by simp [hl]
    rw [getNextScheduledProcess_cons (h.lt hj) (h.le_uintMax j (h.mem hj))]
    refine Or.inr ⟨j, h.holds.mem_iff.mp hj, rfl, fun k hk hne => ?_⟩
    have hsorted := h.sorted
    rw [hl] at hsorted
    have hk' := h.holds.mem_iff.mpr hk
    rw [hl, List.mem_cons] at hk'
    rcases hk' with rfl | hk'
    · exact absurd rfl hne
    · exact (List.pairwise_cons.mp hsorted).1 k hk'

/-- What is left of a process has its place in the list. -/
theorem sorted_served {j : Job} {rest : List Job} (h : (j :: rest).Pairwise Before) :
    (j.served ++ rest).Pairwise Before := by
  obtain ⟨hj, hrest⟩ := List.pairwise_cons.mp h
  rw [Job.served]
  split
  · exact hrest
  · exact List.pairwise_cons.mpr ⟨fun k hk => hj k hk, hrest⟩

/-- **Asking for the next process** keeps the list sorted. -/
theorem CallsOk.next (h : CallsOk processList ledger) :
    CallsOk (getNextScheduledProcess processList).2
      (credit (getNextScheduledProcess processList).1 ledger) := by
  cases hl : processList with
  | nil =>
    have hnil := h.holds
    rw [hl] at hnil
    rw [credit_of_complete _ hnil.symm.eq_nil]
    show CallsOk [] ledger
    exact hl ▸ h
  | cons j rest =>
    have hj : j ∈ processList := by simp [hl]
    have hlt := h.lt hj
    obtain ⟨l₁, l₂, hsplit⟩ := List.append_of_mem (h.mem hj)
    have hnd := h.pids_nodup
    rw [hsplit] at hnd
    -- the head is one incomplete process of the ledger, and the rest are the others
    have hrest : rest.Perm (incomplete l₁ ++ incomplete l₂) := by
      have hholds := h.holds
      rw [hl, hsplit, incomplete_append, incomplete_cons_of_lt hlt] at hholds
      exact (hholds.trans List.perm_middle).cons_inv
    rw [getNextScheduledProcess_cons hlt (h.le_uintMax j (h.mem hj))]
    refine ⟨sorted_served (hl ▸ h.sorted), ?_, ?_, fun k hk => ?_⟩
    · rw [hsplit, incomplete_credit hnd hlt]
      refine (hrest.append_left _).trans ?_
      rw [← List.append_assoc, ← List.append_assoc]
      exact List.perm_append_comm.append_right _
    · rw [credit_map_pid]
      exact h.pids_nodup
    · obtain ⟨k', hk', rfl⟩ := List.mem_map.mp hk
      split
      · exact h.le_uintMax k' hk'
      · exact h.le_uintMax k' hk'

end Step

/-! ## Any number of calls -/

/-- What the simulator said about a process. -/
def initialOf (j : Job) : ProcessInitial := ⟨j.pid, j.processingTime, j.arrivalTime⟩

/-- The ledger lists what was added. -/
theorem calls_ledger (cs : List Call) :
    (calls cs).2.map initialOf = cs.filterMap Call.process? := by
  induction cs using List.reverseRecOn with
  | nil => rfl
  | append_singleton cs c ih =>
    rw [calls, List.foldl_append, List.foldl_cons, List.foldl_nil, List.filterMap_append, ← ih]
    cases c with
    | add process =>
      show (((calls cs).2 ++ [process.job]).map initialOf) = _
      rw [List.map_append]
      rfl
    | next =>
      show (credit _ (calls cs).2).map initialOf = _
      rw [credit, List.map_map, List.filterMap_cons_none rfl, List.filterMap_nil, List.append_nil]
      refine List.map_congr_left fun j _ => ?_
      rw [Function.comp_apply]
      split <;> rfl

/-- The invariant holds after any calls that add processes with distinct pids. -/
theorem callsOk (cs : List Call)
    (hnd : ((cs.filterMap Call.process?).map ProcessInitial.pid).Nodup)
    (hpos : ∀ p ∈ cs.filterMap Call.process?, 0 < p.processingTime)
    (hmax : ∀ p ∈ cs.filterMap Call.process?, p.processingTime ≤ uintMax) :
    CallsOk (calls cs).1 (calls cs).2 := by
  induction cs using List.reverseRecOn with
  | nil => exact callsOk_nil
  | append_singleton cs c ih =>
    rw [List.filterMap_append] at hnd hpos hmax
    rw [List.map_append] at hnd
    have hok := ih (List.nodup_append.mp hnd).1 (fun p hp => hpos p (List.mem_append_left _ hp))
      fun p hp => hmax p (List.mem_append_left _ hp)
    rw [calls, List.foldl_append, List.foldl_cons, List.foldl_nil]
    cases c with
    | add process =>
      refine hok.add (fun hmem => ?_) (hpos process (by simp [Call.process?]))
        (hmax process (by simp [Call.process?]))
      have hpids : (calls cs).2.map Job.pid =
          (cs.filterMap Call.process?).map ProcessInitial.pid := by
        rw [← calls_ledger, List.map_map]
        rfl
      rw [hpids] at hmem
      exact (List.nodup_append.mp hnd).2.2 _ hmem _ (by simp [Call.process?]) rfl
    | next => exact hok.next

end Fcfs

end Cosc240
