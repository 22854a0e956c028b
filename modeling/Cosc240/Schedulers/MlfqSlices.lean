import Cosc240.Schedulers.Mlfq
import Cosc240.Schedulers.Slices

/-!
# `constant.c` and `exponential.c`, slice by slice

The multi-level feedback queue that the two files document (constant.c:130–134), in terms of whole
slices, and the proof that `get_next_scheduled_process`, called once for each
time step, schedules exactly that. The globals `current`, `priority_level` and
`quantum_used` are the slice in progress and the time it has had.

- `reference`: four FIFO queues as a `SliceMachine`. Arrivals go to queue 0 in pid order. The head
  of the first queue that is not empty runs for its slice, and goes to the next queue if it is not
  complete then; from the last one it goes to the back of the same queue.
- `referenceTrace`: its trace for a number of time steps.
- `Follows`: the globals are the queues of the reference and its slice in progress.

Main results:

- `execute_follows`: one unit of time for a slice. The test for equality with the slice length is
  not jumped over.
- `getNextScheduledProcess_follows` and `addArrivals_follows`: one call is one time step of the
  reference.
- `mlfq_refines`: in every run of `constant.c` and `exponential.c` the trace is that of the
  reference with slice lengths `3 * (k + 1)` and `2 * (k + 1) ^ 2`.
-/

namespace Cosc240

open Lib SliceMachine

namespace Mlfq

/-! ## The reference -/

/-- Four FIFO queues. Arrivals go to queue 0. The head of the first queue that
is not empty runs for its slice, and goes to the next queue if it is not complete
then. -/
def reference (sliceLength : Level → Nat) (T : Table) :
    SliceMachine (Level → List Job) (Slice Level) where
  arrive t q :=
    Function.update q topLevel (q topLevel ++ (T.arrivals t).map ProcessInitial.job)
  pick _ q :=
    match (List.finRange 4).find? fun k => !(q k).isEmpty with
    | none => none
    | some k =>
      match q k with
      | [] => none
      | p :: rest => some (⟨k, p⟩, Function.update q k rest)
  length i := i.length sliceLength
  finish i q :=
    if (i.processAfter sliceLength).processedTime = i.process.processingTime then q
    else
      let level := nextLevel i.level
      Function.update q level (q level ++ [i.processAfter sliceLength])
  label i := i.process.pid

/-- The trace of the reference for the first `n` time steps. -/
def referenceTrace (sliceLength : Level → Nat) (T : Table) (n : Nat) : List (Nat × Nat) :=
  ((reference sliceLength T).reference (fun _ => []) n).mapIdx fun t pid => (t, pid)

/-! ## What keeps its slices from being empty -/

section Lawful

variable {sliceLength : Level → Nat} {T : Table}

theorem forall_mem_update {q : Level → List Job} {P : Job → Prop} {k : Level} {l : List Job}
    (hq : ∀ k, ∀ p ∈ q k, P p) (hl : ∀ p ∈ l, P p) :
    ∀ k', ∀ p ∈ Function.update q k l k', P p := by
  intro k' p hp
  by_cases hk : k' = k
  · rw [hk, Function.update_self] at hp
    exact hl p hp
  · rw [Function.update_of_ne hk] at hp
    exact hq k' p hp

/-- What is picked is the head of the first queue that is not empty. -/
theorem pick_some {t : Nat} {q q' : Level → List Job} {i : Slice Level}
    (h : (reference sliceLength T).pick t q = some (i, q')) :
    ∃ rest, q i.level = i.process :: rest ∧ q' = Function.update q i.level rest := by
  simp only [reference] at h
  split at h
  · cases h
  · split at h
    · cases h
    next k _ p rest hk =>
      cases h
      exact ⟨rest, hk, rfl⟩

/-- The head of the first queue that is not empty is picked. -/
theorem pick_of_cons (sliceLength : Level → Nat) (T : Table) (t : Nat) {q : Level → List Job}
    {k : Level} {p : Job} {rest : List Job} (hk : q k = p :: rest) (hbefore : ∀ j < k, q j = []) :
    (reference sliceLength T).pick t q = some (⟨k, p⟩, Function.update q k rest) := by
  have hfind := find?_not_isEmpty (by rw [hk]; exact List.cons_ne_nil p rest) hbefore
  simp only [reference]
  rw [hfind]
  simp only [hk]

theorem pick_of_nil (sliceLength : Level → Nat) (T : Table) (t : Nat) {q : Level → List Job}
    (hnil : ∀ k, q k = []) : (reference sliceLength T).pick t q = none := by
  have hfind : ((List.finRange 4).find? fun k => !(q k).isEmpty) = none :=
    List.find?_eq_none.mpr fun k _ => by simp [hnil k]
  simp only [reference]
  rw [hfind]

theorem reference_lawful (hlen : ∀ k, 0 < sliceLength k) :
    (reference sliceLength T).Lawful (fun q => ∀ k, ∀ p ∈ q k, p.Unfinished)
      (fun i => i.process.Unfinished) where
  arrive t q hq := by
    refine forall_mem_update hq fun p hp => ?_
    rcases List.mem_append.mp hp with hp | hp
    · exact hq 0 p hp
    · obtain ⟨p', hp', rfl⟩ := List.mem_map.mp hp
      exact T.unfinished_job (Table.mem_arrivals.mp hp').1
  pick t q i q' hq h := by
    obtain ⟨rest, hk, rfl⟩ := pick_some h
    refine ⟨hq i.level i.process (by simp [hk]), forall_mem_update hq fun p hp => ?_⟩
    exact hq i.level p (by simp [hk, hp])
  length_pos i hi := Slice.length_pos hlen hi
  finish i q hi hq := by
    simp only [reference]
    split
    · exact hq
    next hne =>
      refine forall_mem_update hq fun p hp => ?_
      rcases List.mem_append.mp hp with hp | hp
      · exact hq _ p hp
      · rw [List.mem_singleton.mp hp]
        exact Slice.unfinished_processAfter hi hne

end Lawful

/-! ## One time step -/

/-- A process in a queue has used nothing of its next slice. -/
def queued (p : Job) : QuantumProcess := { toJob := p, quantumUsed := 0 }

/-- The globals are the queues of the reference and its slice in progress. -/
structure Follows (s : State) (r : Running (Level → List Job) (Slice Level)) : Prop where
  queues : ∀ k, s.priorityQueues k = (r.queues k).map queued
  current : s.current = r.current.map fun ij => ij.1.running ij.2
  level : ∀ i j, r.current = some (i, j) → s.priorityLevel = i.level

section Step

variable {sliceLength : Level → Nat} {T : Table} {s : State}

theorem map_queued_update {q : Level → List Job} {queues : Level → List QuantumProcess}
    (h : ∀ k, queues k = (q k).map queued) {k : Level} {l : List QuantumProcess} {l' : List Job}
    (hl : l = l'.map queued) :
    ∀ k', Function.update queues k l k' = (Function.update q k l' k').map queued := by
  intro k'
  by_cases hk : k' = k
  · rw [hk, Function.update_self, Function.update_self, hl]
  · rw [Function.update_of_ne hk, Function.update_of_ne hk, h]

/-- **One unit of time for a slice.** The test for equality with the slice length
is not jumped over: it succeeds at the end of the slice, or the process is
complete then. -/
theorem execute_follows {q : Level → List Job} (hq : ∀ k, s.priorityQueues k = (q k).map queued)
    {i : Slice Level} (hi : i.process.Unfinished) {j : Nat} (hj : j < i.length sliceLength)
    (hlevel : s.priorityLevel = i.level) :
    (execute sliceLength s (i.running j)).1 = i.process.pid ∧
      Follows (execute sliceLength s (i.running j)).2
        ((reference sliceLength T).advance i j q) := by
  rw [execute, Slice.execute_running hi hj, hlevel]
  cases Slice.ends hi hj with
  | complete hdone hlast hafter =>
    rw [if_pos hdone, advance, if_pos (show j + 1 = (reference sliceLength T).length i from hlast)]
    refine ⟨rfl, fun k => ?_, rfl, fun i' j' h => by cases h⟩
    simp only [reference, if_pos hafter]
    exact hq k
  | usedUp hdone hlast hafter hquantum =>
    rw [if_neg hdone, if_pos hquantum, advance,
      if_pos (show j + 1 = (reference sliceLength T).length i from hlast)]
    refine ⟨rfl, ?_, rfl, fun i' j' h => by cases h⟩
    simp only [reference, if_neg hafter]
    refine map_queued_update hq ?_
    rw [hq, List.map_append, List.map_singleton, Slice.running_eq_processAfter hlast, queued]
  | goesOn hdone hlast hquantum =>
    rw [if_neg hdone, if_neg hquantum.ne, advance,
      if_neg (show j + 1 ≠ (reference sliceLength T).length i from hlast)]
    refine ⟨rfl, hq, rfl, fun i' j' h => ?_⟩
    cases h
    rfl

/-- With the arrivals in the queues, one call is one time step of the
reference. -/
theorem getNextScheduledProcess_follows {t : Nat} {r : Running (Level → List Job) (Slice Level)}
    (hlen : ∀ k, 0 < sliceLength k)
    (hr : r.Ok (reference sliceLength T) (fun q => ∀ k, ∀ p ∈ q k, p.Unfinished)
      (fun i => i.process.Unfinished))
    (hs : Follows s ⟨(reference sliceLength T).arrive t r.queues, r.current⟩) :
    (getNextScheduledProcess sliceLength s).1 = ((reference sliceLength T).tick t r).1 ∧
      Follows (getNextScheduledProcess sliceLength s).2
        ((reference sliceLength T).tick t r).2 := by
  have harr := (reference_lawful (T := T) hlen).arrive t _ hr.queues
  cases hc : r.current with
  | some ij =>
    -- a slice is in progress, and goes on
    obtain ⟨i, j⟩ := ij
    obtain ⟨hi, -, hj⟩ := hr.current i j hc
    have hcur : s.current = some (i.running j) := by rw [hs.current, hc]; rfl
    have hdisp : dispatch s = s := by simp [dispatch, hcur]
    rw [getNextScheduledProcess_of_current sliceLength (by rw [hdisp, hcur]), hdisp, tick, hc]
    exact execute_follows hs.queues hi hj (hs.level i j hc)
  | none =>
    have hcur : s.current = none := by rw [hs.current, hc]; rfl
    rw [tick, hc]
    rcases dispatch_cases s with
      ⟨c, hc', -⟩ | ⟨k, p, rest, -, hk, hbefore, hdisp⟩ | ⟨-, hnil, hdisp⟩
    · rw [hcur] at hc'
      cases hc'
    · -- a new slice begins
      obtain ⟨p', rest', hk', hp, hrest⟩ :=
        List.map_eq_cons_iff.mp ((hs.queues k).symm.trans hk)
      have hpick := pick_of_cons sliceLength T t hk' fun j hj =>
        List.map_eq_nil_iff.mp ((hs.queues j).symm.trans (hbefore j hj))
      obtain ⟨hi, -⟩ := (reference_lawful hlen).pick t _ _ _ harr hpick
      have hrun : (dispatch s).current = some ((⟨k, p'⟩ : Slice Level).running 0) := by
        rw [hdisp, ← hp]
        rfl
      rw [getNextScheduledProcess_of_current sliceLength hrun, hpick]
      refine execute_follows ?_ hi (Slice.length_pos hlen hi) (by rw [hdisp])
      rw [hdisp]
      exact map_queued_update hs.queues hrest.symm
    · -- all queues are empty
      have hpick := pick_of_nil sliceLength T t fun j =>
        List.map_eq_nil_iff.mp ((hs.queues j).symm.trans (hnil j))
      have hnext : getNextScheduledProcess sliceLength s = (0, s) := by
        simp [getNextScheduledProcess, hdisp, hcur]
      rw [hnext, hpick]
      exact ⟨rfl, hs.queues, by rw [hcur]; rfl, fun i' j' h => by cases h⟩

/-! ## Arrivals -/

theorem foldl_addToReadyQueue (ps : List ProcessInitial) (s : State) :
    ps.foldl addToReadyQueue s =
      { s with
        priorityQueues := Function.update s.priorityQueues 0
          (ps.foldl (fun l p => skipInsert (fun p => p.arrivalTime) (fun p => p.pid)
            (newQuantumProcess p) l) (s.priorityQueues 0)) } := by
  induction ps generalizing s with
  | nil => simp
  | cons p ps ih =>
    rw [List.foldl_cons, ih, List.foldl_cons]
    simp [addToReadyQueue]

/-- The arrivals of a time step end up at the back of queue 0 in pid order. -/
theorem addArrivals_eq (sliceLength : Level → Nat) {processes : List ProcessStats}
    (hi : processes.map ProcessStats.initial = T.processes) {t : Nat}
    (hold : ∀ p ∈ s.priorityQueues 0, p.arrivalTime < t) :
    addArrivals (scheduler sliceLength) processes t s =
      { s with
        priorityQueues := Function.update s.priorityQueues 0
          (s.priorityQueues 0 ++ (T.arrivals t).map newQuantumProcess) } := by
  refine (addArrivals_eq_foldl (scheduler sliceLength) processes t s).trans ?_
  refine (foldl_addToReadyQueue _ s).trans ?_
  have hfold := foldl_skipInsert_arrivals (fun p : QuantumProcess => p.arrivalTime)
    (fun p => p.pid) newQuantumProcess hi (fun _ => rfl) (fun _ => rfl) hold
  rw [hfold]

/-- The reference does the same with its queue 0. -/
theorem addArrivals_follows {processes : List ProcessStats}
    (hi : processes.map ProcessStats.initial = T.processes) {t : Nat}
    (hold : ∀ p ∈ s.priorityQueues 0, p.arrivalTime < t)
    {r : Running (Level → List Job) (Slice Level)} (hs : Follows s r) :
    Follows (addArrivals (scheduler sliceLength) processes t s)
      ⟨(reference sliceLength T).arrive t r.queues, r.current⟩ := by
  rw [addArrivals_eq sliceLength hi hold]
  refine ⟨map_queued_update hs.queues ?_, hs.current, hs.level⟩
  rw [hs.queues, List.map_append, List.map_map]
  rfl

end Step

/-! ## Runs -/

theorem follows_init : Follows init ⟨fun _ => [], none⟩ :=
  ⟨fun _ => rfl, rfl, fun _ _ h => by cases h⟩

/-- **The trace of a multi-level feedback queue is that of the reference**, and
the globals are its state. -/
theorem trace_eq_reference {sliceLength : Level → Nat} (hlen : ∀ k, 0 < sliceLength k)
    {T : Table} {timeBound : UInt32} {t : Nat} {s : Sim (scheduler sliceLength)}
    (h : Reached (scheduler sliceLength) T.start timeBound t s) :
    s.trace = referenceTrace sliceLength T t ∧
      Follows s.sched ((reference sliceLength T).after t 0 ⟨fun _ => [], none⟩) := by
  have hgood : ∀ k : Level, ∀ p ∈ ([] : List Job), p.Unfinished := fun _ p hp => by cases hp
  refine (books sliceLength).trace_eq_reference (reference_lawful hlen) hgood
    (fun _ s r => Follows s r) follows_init (fun t s r _ hagree hs hr => ?_) h
  obtain ⟨σ, -, hσ, -⟩ := hagree.schedule
  have hold : ∀ p ∈ State.priorityQueues s.sched 0, p.arrivalTime < t := fun p hp =>
    hagree.arrivalTime_lt (j := p.toJob)
      (List.mem_map_of_mem (List.mem_append_right _ (mem_allQueues.mpr ⟨0, hp⟩)))
  obtain ⟨hpid, hfollows⟩ := getNextScheduledProcess_follows hlen hr
    (addArrivals_follows hσ.initial hold hs)
  exact ⟨_, congrArg some (Prod.ext hpid rfl), hfollows⟩

end Mlfq

/-- **`constant.c` and `exponential.c` refine the scheduler they document.** In
every run the trace is that of the multi-level feedback queue with slice lengths
`3 * (k + 1)` and `2 * (k + 1) ^ 2`. -/
theorem mlfq_refines (T : Table) (timeBound : UInt32) :
    (∀ t s, Reached Constant.scheduler T.start timeBound t s →
      s.trace = Mlfq.referenceTrace (fun k => 3 * (k.val + 1)) T t) ∧
    ∀ t s, Reached Exponential.scheduler T.start timeBound t s →
      s.trace = Mlfq.referenceTrace (fun k => 2 * (k.val + 1) ^ 2) T t := by
  constructor
  · intro t s h
    exact (Mlfq.trace_eq_reference (fun k => Nat.mul_pos (by decide) (Nat.succ_pos _)) h).1
  · intro t s h
    have hlen : (fun k : Mlfq.Level => 2 * (k.val + 1) ^ 2) = Exponential.sliceLength := by
      funext k
      rw [Exponential.sliceLength, Nat.pow_two]
    rw [hlen]
    exact (Mlfq.trace_eq_reference
      (fun k => Nat.mul_pos (by decide) (Nat.mul_pos (Nat.succ_pos _) (Nat.succ_pos _))) h).1

/-- Both files on the crowded table: process 1 uses up its slice at the top level
and comes back in the longer one of the level below. -/
theorem mlfq_refines_crowded :
    (∃ s, Reached Constant.scheduler crowdedTable.start 30 14 s ∧
      s.trace.map Prod.snd = [1, 1, 1, 2, 2, 2, 3, 3, 3, 1, 1, 1, 1, 1] ∧
      s.trace = Mlfq.referenceTrace (fun k => 3 * (k.val + 1)) crowdedTable 14) ∧
    ∃ s, Reached Exponential.scheduler crowdedTable.start 30 14 s ∧
      s.trace.map Prod.snd = [1, 1, 2, 2, 3, 3, 1, 1, 1, 1, 1, 1, 1, 4] ∧
      s.trace = Mlfq.referenceTrace (fun k => 2 * (k.val + 1) ^ 2) crowdedTable 14 := by
  obtain ⟨hconstant, hexponential⟩ := mlfq_refines crowdedTable 30
  constructor
  · obtain ⟨s, h, htest⟩ := exists_reached Constant.scheduler crowdedTable.start 30 14
      (p := fun s => s.trace.map Prod.snd = [1, 1, 1, 2, 2, 2, 3, 3, 3, 1, 1, 1, 1, 1])
      (by decide +kernel)
    exact ⟨s, h, of_decide_eq_true htest, hconstant 14 s h⟩
  · obtain ⟨s, h, htest⟩ := exists_reached Exponential.scheduler crowdedTable.start 30 14
      (p := fun s => s.trace.map Prod.snd = [1, 1, 2, 2, 3, 3, 1, 1, 1, 1, 1, 1, 1, 4])
      (by decide +kernel)
    exact ⟨s, h, of_decide_eq_true htest, hexponential 14 s h⟩

end Cosc240
