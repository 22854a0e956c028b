import Cosc240.Simulator.Recorded
import Cosc240.Simulator.Verdict

/-!
# What `TRUE` means

`run_simulation` (simulator.c:177–221) with an arbitrary scheduler that returns 0 or a pid of the
table in each time step. The verdict depends on how often each pid is returned, and on nothing
else: the scheduler may stall, or run a process that has not arrived.

- `Returns`: the scheduler returns the pids of a sequence, for as long as it is asked, and these are
  0 or pids of the table.
- `LastAt`: among the first pids of the sequence, one is last at a given index. That is the
  `end_time` of its row.
- `tally_eq`: the answers of a run are a prefix of the sequence.
- `exists_verdict`: such a run has a verdict, since nothing in it is undefined.

Main results:

- `runSimulation_verdict`: `run_simulation` returns `TRUE` if and only if the first `N` pids, for
  some `N` within the time bound, give each process exactly what it needs. Then the rows say so, and
  `add_to_ready_queue` has been called once for each process that arrives before `N`, in the time
  step of its arrival.
- `runSimulation_verdict_early`: a run that is over before its only process arrives, and is a
  success.
-/

namespace Cosc240

/-- The scheduler returns `seq 0`, `seq 1`, ..., for as long as it is asked, and
returns 0 or a pid of the table. -/
def Returns (S : Scheduler) (T : Table) (timeBound : UInt32) (seq : Nat → Nat) : Prop :=
  ∀ t s, Enters S T timeBound t s →
    (∃ sched, s.answer t = some (seq t, sched)) ∧ (seq t = 0 ∨ ∃ p ∈ T.processes, p.pid = seq t)

/-- Among the first `N` pids returned, `pid` is last at index `i`. -/
def LastAt (seq : Nat → Nat) (N pid i : Nat) : Prop :=
  i < N ∧ seq i = pid ∧ ∀ j, i < j → j < N → seq j ≠ pid

theorem lastAt_of_getElem? {seq : Nat → Nat} {N pid i : Nat}
    (h : ((List.range N).map seq)[i]? = some pid)
    (hlast : ∀ j, ((List.range N).map seq)[j]? = some pid → j ≤ i) : LastAt seq N pid i := by
  have hget : ∀ {j}, j < N → ((List.range N).map seq)[j]? = some (seq j) := fun hj => by
    simp [hj]
  have hi : i < N := by simpa using (List.getElem?_eq_some_iff.mp h).1
  refine ⟨hi, ?_, ?_⟩
  · rw [hget hi] at h
    exact Option.some.inj h
  · rintro j hij hj rfl
    exact absurd (hlast j (hget hj)) (Nat.not_le.mpr hij)

namespace Returns

variable {S : Scheduler} {T : Table} {timeBound : UInt32} {seq : Nat → Nat}

theorem answers (h : Returns S T timeBound seq) (N : Nat) :
    Answers S T timeBound ((List.range N).map seq) := by
  intro t s pid hs hpid
  obtain ⟨hlt, rfl⟩ := List.getElem?_eq_some_iff.mp hpid
  rw [List.getElem_map, List.getElem_range]
  exact h t s hs

/-- The answers of a run are a prefix of the sequence. -/
theorem tally_eq (h : Returns S T timeBound seq) {σ : List Nat} {s : Sim S}
    (htally : Tally T timeBound σ s) : σ = (List.range σ.length).map seq := by
  refine List.ext_getElem (by simp) fun i hi _ => ?_
  obtain ⟨s', sched, hs', hanswer⟩ := htally.answered i _ (List.getElem?_eq_getElem hi)
  obtain ⟨⟨sched', hanswer'⟩, -⟩ := h i s' hs'
  rw [hanswer] at hanswer'
  simpa using congrArg Prod.fst (Option.some.inj hanswer')

/-- There is a verdict. -/
theorem exists_verdict (h : Returns S T timeBound seq) :
    ∃ verdict s, runSimulation S T.start timeBound = some (verdict, s) := by
  have hcase := runSimulation_cases S T timeBound
  generalize runSimulation S T.start timeBound = result at hcase
  cases hcase with
  | done _ _ => exact ⟨_, _, rfl⟩
  | timeUp _ _ => exact ⟨_, _, rfl⟩
  | stop _ _ => exact ⟨_, _, rfl⟩
  | fault hs htick =>
    obtain ⟨⟨sched, hanswer⟩, hpid⟩ := h _ _ hs
    exact absurd htick (hs.tick_ne_none hanswer hpid)

end Returns

/-- With the calls recorded, each process that has arrived is there once. -/
theorem calls_of_runSimulation_true {S : Scheduler} {T : Table} {timeBound : UInt32} {s : Sim S}
    (hrun : runSimulation S T.start timeBound = some (true, s)) {σ : List Nat}
    (htally : Tally T timeBound σ s) :
    ∃ r : Sim S.recorded, runSimulation S.recorded T.start timeBound = some (true, r) ∧
      r.forget = s ∧
      r.record.calls.Perm ((T.processes.filter fun p => p.arrivalTime < σ.length).map
        fun p => (p.arrivalTime, p)) := by
  have hrecorded := runSimulation_recorded (S := S) T.start timeBound
  rw [hrun] at hrecorded
  obtain ⟨⟨verdict, r⟩, hr, heq⟩ := Option.map_eq_some_iff.mp hrecorded.symm
  obtain ⟨rfl, rfl⟩ := Prod.mk.inj heq
  -- the recorded run takes as many time steps
  obtain ⟨σ', hreached, htally', -⟩ := exact_of_runSimulation_true hr
  have hlength : σ'.length = σ.length := by
    have htrace : r.trace = r.forget.trace := rfl
    rw [htally'.trace, htally.trace] at htrace
    simpa using congrArg List.length htrace
  refine ⟨r, hr, rfl, ?_⟩
  rw [hreached.record.2, hlength]
  exact arrivalCalls_perm T σ.length

/-- **The meaning of the verdict.** `run_simulation` returns `TRUE` if and only if the
first `N` pids, for some `N` within the time bound, give each process exactly what it
needs. Then the rows say so, and `add_to_ready_queue` has been called once for each
process that arrives before `N`, in the time step of its arrival. -/
theorem runSimulation_verdict (S : Scheduler) (T : Table) (timeBound : UInt32) (seq : Nat → Nat)
    (hseq : Returns S T timeBound seq) :
    ∃ verdict s, runSimulation S T.start timeBound = some (verdict, s) ∧
      (verdict = true ↔ ∃ N ≤ timeBound.toNat, Exact T ((List.range N).map seq)) ∧
      (verdict = true → ∃ N ≤ timeBound.toNat, Exact T ((List.range N).map seq) ∧
        s.trace = (List.range N).map (fun t => (t, seq t)) ∧
        s.processes.map ProcessStats.initial = T.processes ∧
        (∀ p ∈ s.processes, p.processedTime = p.initial.processingTime ∧
          LastAt seq N p.initial.pid p.endTime) ∧
        ∃ r : Sim S.recorded, runSimulation S.recorded T.start timeBound = some (true, r) ∧
          r.forget = s ∧
          r.record.calls.Perm
            ((T.processes.filter fun p => p.arrivalTime < N).map fun p => (p.arrivalTime, p))) := by
  obtain ⟨verdict, s, hrun⟩ := hseq.exists_verdict
  have htrue : verdict = true → ∃ N, Reached S T.start timeBound N s ∧
      Tally T timeBound ((List.range N).map seq) s ∧ Exact T ((List.range N).map seq) := by
    rintro rfl
    obtain ⟨σ, hs, htally, hexact⟩ := exact_of_runSimulation_true hrun
    have hσ := hseq.tally_eq htally
    exact ⟨σ.length, hs, hσ ▸ htally, hσ ▸ hexact⟩
  refine ⟨verdict, s, hrun, ⟨?_, ?_⟩, ?_⟩
  · intro hverdict
    obtain ⟨N, hs, -, hexact⟩ := htrue hverdict
    exact ⟨N, hs.le_timeBound, hexact⟩
  · rintro ⟨N, hN, hexact⟩
    obtain ⟨s', hrun'⟩ := (hseq.answers N).runSimulation_eq_true (by simpa using hN) hexact
    rw [hrun] at hrun'
    exact congrArg Prod.fst (Option.some.inj hrun')
  · intro hverdict
    obtain ⟨N, hs, htally, hexact⟩ := htrue hverdict
    refine ⟨N, hs.le_timeBound, hexact, ?_, hs.initial, ?_, ?_⟩
    · rw [htally.trace]
      refine List.ext_getElem (by simp) fun i hi _ => ?_
      simp
    · intro p hp
      have hrow := htally.rows p hp
      have hdone : p.processedTime = p.initial.processingTime := by
        rw [hrow.count]
        exact hexact _ (initial_mem hs.initial hp)
      obtain ⟨hend, hlast⟩ := hrow.last hdone
      refine ⟨hdone, lastAt_of_getElem? hend hlast⟩
    · subst hverdict
      have hcalls := calls_of_runSimulation_true hrun htally
      rwa [List.length_map, List.length_range] at hcalls

/-- A scheduler that always returns pid 1. -/
def oneScheduler : Scheduler where
  State := Unit
  init := ()
  addToReadyQueue s _ := s
  getNextScheduledProcess s := some (1, s)

/-- One process, which runs before it arrives. -/
def beforeArrival : Table where
  processes := [⟨1, 2, 5⟩]
  nonempty := by decide
  pids_nodup := by decide
  pid_pos := by decide
  pid_lt := by decide
  arrivalTime_lt := by decide
  processingTime_pos := by decide
  processingTime_lt := by decide

/-- The run is over before the process arrives, and is a success. -/
theorem runSimulation_verdict_early :
    ∃ s, runSimulation oneScheduler beforeArrival.start 20 = some (true, s) := by
  obtain ⟨verdict, s, hrun, hiff, -⟩ := runSimulation_verdict oneScheduler beforeArrival 20
    (fun _ => 1) fun t s _ => ⟨⟨(), rfl⟩, .inr ⟨⟨1, 2, 5⟩, List.mem_cons_self, rfl⟩⟩
  obtain rfl : verdict = true := hiff.mpr ⟨2, by decide, by decide⟩
  exact ⟨s, hrun⟩

end Cosc240
