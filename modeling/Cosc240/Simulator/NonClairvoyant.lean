import Cosc240.Simulator.Returned
import Cosc240.Simulator.Slices

/-!
# Schedulers that do not know how long a process will take

Every list node carries the `processing_time` of its process. A scheduler is
non-clairvoyant if that number matters in one place only: the test whether the
process that has just run is complete. `NonClairvoyant` says so by erasing the
number: the answer is a function of the globals without processing times, and so
are the next globals, given the outcome of that test.

- `Job.erase`, `ProcessInitial.erase`: a node and a process without processing time.
- `Books.completes`: the time step given to a pid completes its process. `Books.completes_iff` reads
  it off the table.
- `Table.SameArrivals`: two tables with the same pids and arrival times, in any order.
- `Undecided`: after some pids, a process that needs a different time in the other table is not
  complete in either.

Main results:

- `Undecided.remaining` and `Undecided.complete`: then the two runs have work to do at the same
  time, and the completion test has the same outcome.
- `sameOn`: two runs of a non-clairvoyant scheduler return the same up to time step `t`, if nobody
  whose processing time differs is complete by then in either.
-/

namespace Cosc240

/-! ## Erasing processing times -/

/-- The process, without its processing time. -/
def ProcessInitial.erase (p : ProcessInitial) : ProcessInitial := { p with processingTime := 0 }

/-- The node, without its processing time. -/
def Job.erase (j : Job) : Job := { j with processingTime := 0 }

/-- The time step given to `pid` completes its process. -/
def Books.completes {S : Scheduler} (B : Books S) (s : S.State) (pid : Nat) : Bool :=
  (B.contents s).any fun j => j.pid = pid ∧ j.processedTime + 1 = j.processingTime

/-- A scheduler that uses processing times for the completion test only. -/
structure NonClairvoyant {S : Scheduler} (B : Books S) where
  /-- The globals without processing times. -/
  erase : S.State → S.State
  pid : S.State → Nat
  next : S.State → Bool → S.State
  add_erase : ∀ s p, erase (S.addToReadyQueue s p) = S.addToReadyQueue (erase s) p.erase
  add_comm : ∀ s p q, p.arrivalTime = q.arrivalTime → p.pid ≠ q.pid →
    S.addToReadyQueue (S.addToReadyQueue s p) q = S.addToReadyQueue (S.addToReadyQueue s q) p
  next_erase : ∀ s p s', ValidJobs (B.contents s) → S.getNextScheduledProcess s = some (p, s') →
    p = pid (erase s) ∧ erase s' = next (erase s) (B.completes s p)

section Completes

variable {S : Scheduler} {B : Books S}

/-- In well-formed books the test is about one node. -/
theorem Books.completes_of_mem {s : S.State} (hv : ValidJobs (B.contents s)) {j : Job}
    (hj : j ∈ B.contents s) :
    B.completes s j.pid = decide (j.processedTime + 1 = j.processingTime) := by
  rw [completes, Bool.eq_iff_iff, List.any_eq_true, decide_eq_true_iff]
  constructor
  · rintro ⟨k, hk, heq⟩
    obtain ⟨hpid, hdone⟩ := of_decide_eq_true heq
    rwa [List.inj_on_of_nodup_map hv.nodup hk hj hpid] at hdone
  · intro hdone
    exact ⟨j, hj, decide_eq_true ⟨rfl, hdone⟩⟩

/-- In a run, the test compares what the process has received by the end of the
time step with what it needs. -/
theorem Books.completes_iff {T : Table} {timeBound : UInt32} {t : Nat} {s : Sim S}
    (h : Enters S T timeBound t s) {pid : Nat} {sched : S.State}
    (hanswer : s.answer t = some (pid, sched)) :
    B.completes (addArrivals S s.processes t s.sched) pid = true ↔
      ∃ p ∈ T.processes, p.pid = pid ∧
        ((returned S T.start timeBound).take (t + 1)).count pid = p.processingTime := by
  have hagree := B.agree_reached h.reached
  have hperm := (B.agree_arrivals hagree).2
  obtain ⟨hle, hσ, -⟩ := B.returned_reached h.reached
  obtain ⟨pid', sched', hanswer', hget, hreach⟩ := B.returned_enters h
  cases hanswer.symm.trans hanswer'
  obtain ⟨pid', sched', hanswer', hd, -⟩ := B.tick_agree hagree h.running
  cases hanswer.symm.trans hanswer'
  have hlt := (B.returned_reached hreach).1
  have hcount : ((returned S T.start timeBound).take (t + 1)).count pid =
      ((returned S T.start timeBound).take t).count pid + 1 := by
    rw [List.getElem?_eq_getElem hlt, Option.some.injEq] at hget
    rw [List.take_succ_eq_append_getElem hlt, List.count_append, hget]
    simp
  rw [Books.completes, List.any_eq_true]
  constructor
  · rintro ⟨j, hj, heq⟩
    obtain ⟨hpid, hdone⟩ := of_decide_eq_true heq
    obtain ⟨p, hp, -, rfl⟩ := mem_pendingJobs.mp (hperm.mem_iff.mp hj)
    subst hpid
    refine ⟨p.initial, initial_mem hσ.initial hp, rfl, ?_⟩
    have hrow := (hσ.rowOk p hp).count
    rw [hcount]
    show _ = p.job.processingTime
    rw [← hdone]
    exact congrArg (· + 1) hrow.symm
  · rintro ⟨q, hq, rfl, hdone⟩
    obtain ⟨p, hp, rfl⟩ := mem_rows hσ.initial hq
    have hrow := (hσ.rowOk p hp).count
    refine ⟨p.job, hperm.mem_iff.mpr (mem_pendingJobs.mpr
      ⟨p, hp, hd.of_pid_eq hσ.initial hp rfl, rfl⟩), decide_eq_true ⟨rfl, ?_⟩⟩
    rw [hcount] at hdone
    show p.processedTime + 1 = p.initial.processingTime
    rw [hrow, hdone]

end Completes

/-! ## Two tables -/

/-- The pids and arrival times are the same, in any order. -/
def Table.SameArrivals (T T' : Table) : Prop :=
  (T.processes.map fun p => (p.pid, p.arrivalTime)).Perm
    (T'.processes.map fun p => (p.pid, p.arrivalTime))

/-- After `σ`, a process that needs a different time in the other table is not
complete in either. -/
def Undecided (T T' : Table) (σ : List Nat) : Prop :=
  ∀ p ∈ T.processes, ∀ p' ∈ T'.processes, p.pid = p'.pid →
    p.processingTime ≠ p'.processingTime →
    σ.count p.pid < min p.processingTime p'.processingTime

section Tables

variable {T T' : Table} {σ : List Nat}

theorem Undecided.sublist {σ' : List Nat} (h : Undecided T T' σ) (hs : σ'.Sublist σ) :
    Undecided T T' σ' := fun p hp p' hp' hpid hne =>
  Nat.lt_of_le_of_lt (hs.count_le _) (h p hp p' hp' hpid hne)

theorem Table.SameArrivals.symm (h : T.SameArrivals T') : T'.SameArrivals T := List.Perm.symm h

theorem Undecided.symm (h : Undecided T T' σ) : Undecided T' T σ := by
  intro p hp p' hp' hpid hne
  rw [hpid, Nat.min_comm]
  exact h p' hp' p hp hpid.symm hne.symm

theorem Table.SameArrivals.exists_mem (h : T.SameArrivals T') {p : ProcessInitial}
    (hp : p ∈ T.processes) : ∃ p' ∈ T'.processes, p'.pid = p.pid := by
  have hmem := h.mem_iff.mp (List.mem_map_of_mem hp)
  obtain ⟨p', hp', heq⟩ := List.mem_map.mp hmem
  exact ⟨p', hp', (Prod.mk.inj heq).1⟩

/-- Somebody still needs time in one table exactly if somebody does in the other. -/
theorem Undecided.remaining (h : Undecided T T' σ) (harr : T.SameArrivals T')
    (hwork : ∃ q ∈ T.processes, 0 < remaining σ q) : ∃ q ∈ T'.processes, 0 < remaining σ q := by
  obtain ⟨p, hp, hpos⟩ := hwork
  obtain ⟨p', hp', hpid⟩ := harr.exists_mem hp
  refine ⟨p', hp', ?_⟩
  rw [Cosc240.remaining] at hpos ⊢
  by_cases heq : p.processingTime = p'.processingTime
  · rwa [hpid, ← heq]
  · -- where the lengths differ the process still needs time in both tables
    have hlt := h p hp p' hp' hpid.symm heq
    rw [hpid]
    omega

/-- And a process is complete in one exactly if it is in the other. -/
theorem Undecided.complete (h : Undecided T T' σ) (harr : T.SameArrivals T') {pid : Nat}
    (hdone : ∃ p ∈ T.processes, p.pid = pid ∧ σ.count pid = p.processingTime) :
    ∃ p ∈ T'.processes, p.pid = pid ∧ σ.count pid = p.processingTime := by
  obtain ⟨p, hp, rfl, hdone⟩ := hdone
  obtain ⟨p', hp', hpid⟩ := harr.exists_mem hp
  refine ⟨p', hp', hpid, ?_⟩
  -- a process that is complete needs the same in both tables
  by_contra hne
  have hlt := h p hp p' hp' hpid.symm fun heq => hne (hdone.trans heq)
  omega

end Tables

/-! ## Two runs -/

namespace NonClairvoyant

variable {S : Scheduler} {B : Books S} (N : NonClairvoyant B) {T T' : Table}
  {timeBound timeBound' : UInt32}

theorem erase_foldl (ps : List ProcessInitial) (s : S.State) :
    N.erase (ps.foldl S.addToReadyQueue s) =
      (ps.map ProcessInitial.erase).foldl S.addToReadyQueue (N.erase s) := by
  induction ps generalizing s with
  | nil => rfl
  | cons p ps ih =>
    rw [List.foldl_cons, ih, N.add_erase]
    rfl

/-- Without processing times the arrivals of a time step are the same. -/
theorem arrivals_erase {t : Nat} {s s' : Sim S} (harr : T.SameArrivals T')
    (h : Reached S T.start timeBound t s) (h' : Reached S T'.start timeBound' t s') :
    ((arrivalsAt s.processes t).map ProcessInitial.erase).Perm
      ((arrivalsAt s'.processes t).map ProcessInitial.erase) := by
  have heq : ∀ l : List ProcessInitial,
      (l.filter fun p => p.arrivalTime = t).map ProcessInitial.erase =
        (((l.map fun p => (p.pid, p.arrivalTime)).filter fun k => k.2 = t).map
          fun k => ⟨k.1, 0, k.2⟩) := by
    intro l
    rw [List.filter_map, List.map_map]
    rfl
  rw [arrivalsAt_eq h.initial, arrivalsAt_eq h'.initial, heq, heq]
  exact (harr.filter _).map _

/-- The erased globals agree once the arrivals of a time step are in. -/
theorem erase_addArrivals {t : Nat} {s s' : Sim S} (harr : T.SameArrivals T')
    (h : Reached S T.start timeBound t s) (h' : Reached S T'.start timeBound' t s')
    (herase : N.erase s.sched = N.erase s'.sched) :
    N.erase (addArrivals S s.processes t s.sched) =
      N.erase (addArrivals S s'.processes t s'.sched) := by
  rw [addArrivals_eq_foldl, addArrivals_eq_foldl, N.erase_foldl, N.erase_foldl, ← herase]
  refine (arrivals_erase harr h h').foldl_eq' (fun p' hp' q' hq' v => ?_) _
  obtain ⟨p, hp, rfl⟩ := List.mem_map.mp hp'
  obtain ⟨q, hq, rfl⟩ := List.mem_map.mp hq'
  have htime : p.arrivalTime = q.arrivalTime :=
    (mem_arrivalsAt.mp hp).2.trans (mem_arrivalsAt.mp hq).2.symm
  by_cases hpid : p.pid = q.pid
  · have heq : p.erase = q.erase := by
      rw [ProcessInitial.erase, ProcessInitial.erase, hpid, htime]
    rw [heq]
  · exact N.add_comm v p.erase q.erase htime hpid

include N in
/-- **Two runs of a non-clairvoyant scheduler** return the same up to time step
`t`, if nobody whose processing time differs is complete by then in either. -/
theorem sameOn {t : Nat} (harr : T.SameArrivals T') (ht : t < timeBound.toNat)
    (ht' : t < timeBound'.toNat)
    (hundecided : Undecided T T' ((returned S T.start timeBound).take t)) :
    SameOn 0 (t + 1) (returned S T.start timeBound) (returned S T'.start timeBound') := by
  have hbefore : ∀ k, k ≤ t → Undecided T T' ((returned S T.start timeBound).take k) :=
    fun k hk => hundecided.sublist (List.take_sublist_take_left hk)
  refine B.lockstep B ht ht' (fun _ s s' => N.erase s = N.erase s')
    ⟨_, _, .start, .start, rfl⟩ ?_ ?_
  · -- the loops go on together, since the same pids have been returned
    intro k s s' _ hk hsame hs hs'
    have hσ := (B.returned_reached hs).2.1
    have hσ' := (B.returned_reached hs').2.1
    have hbefore := hbefore k (Nat.le_of_lt_succ hk)
    rw [← hsame.take_eq] at hσ'
    rw [Bool.eq_iff_iff, hσ.stillRunning_iff, hσ'.stillRunning_iff]
    exact ⟨hbefore.remaining harr, hbefore.symm.remaining harr.symm⟩
  · intro k s s' pid pid' sched sched' _ hk hsame hs hs' herase hanswer hanswer'
    have herase := N.erase_addArrivals harr hs.reached hs'.reached herase
    obtain ⟨hpid, hnext⟩ := N.next_erase _ _ _
      (B.valid_addArrivals (B.agree_reached hs.reached)) hanswer
    obtain ⟨hpid', hnext'⟩ := N.next_erase _ _ _
      (B.valid_addArrivals (B.agree_reached hs'.reached)) hanswer'
    have heq : pid = pid' := by rw [hpid, hpid', herase]
    refine ⟨heq, fun hlt => ?_⟩
    subst heq
    -- the completion test has the same outcome in both runs
    obtain ⟨p, _, hp, hget, -⟩ := B.returned_enters hs
    obtain ⟨p', _, hp', hget', -⟩ := B.returned_enters hs'
    cases hanswer.symm.trans hp
    cases hanswer'.symm.trans hp'
    have htake := (hsame.succ (hget.trans hget'.symm)).take_eq
    have hbefore := hbefore (k + 1) (Nat.le_of_lt_succ hlt)
    have htest : B.completes (addArrivals S s.processes k s.sched) pid =
        B.completes (addArrivals S s'.processes k s'.sched) pid := by
      rw [Bool.eq_iff_iff, B.completes_iff hs hanswer, B.completes_iff hs' hanswer', ← htake]
      exact ⟨hbefore.complete harr, hbefore.symm.complete harr.symm⟩
    rw [hnext, hnext', herase, htest]

end NonClairvoyant

end Cosc240
