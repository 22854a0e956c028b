import Cosc240.Schedulers.Algorithms
import Cosc240.Simulator.Returned

/-!
# Work conservation and the makespan

None of the five schedulers leaves the processor idle while a process waits. So
the idle time steps, the length of the run and the value `run_simulation` (simulator.c:177–221)
returns depend on the table and `time_bound` only. The choices of the schedulers are work-conserving
because each `get_next_scheduled_process` returns 0 only with its lists empty, which is the law of
`Books`; what follows from such choices is in `Simulator.Schedule`.

- `Schedule.getElem?_eq_zero_iff`: the idle instants of a schedule are those without backlog.

Main result:

- `run_work_conserving`: at each time step the scheduler returns 0 exactly if no process that has
  arrived is incomplete. The run returns `TRUE` exactly if the makespan, the fold
  `m ↦ max m arrival_time + processing_time` over the processes in arrival order, is within
  `time_bound`; it simulates the time steps up to the smaller of the two; and it is idle at the same
  ones under any two of the five schedulers.
-/

namespace Cosc240

/-! ## Idle time steps -/

/-- The idle instants of a schedule are those without backlog. -/
theorem Schedule.getElem?_eq_zero_iff {T : Table} {σ : List Nat} {processes : List ProcessStats}
    (h : Schedule T σ processes) {t : Nat} (ht : t < σ.length) :
    σ[t]? = some 0 ↔ T.backlog t = 0 := by
  induction h with
  | start => exact absurd ht (Nat.not_lt_zero t)
  | @tick σ processes pid h _ hd ih =>
    rw [List.length_append, List.length_singleton] at ht
    rcases Nat.lt_succ_iff_lt_or_eq.mp ht with hlt | rfl
    · rw [List.getElem?_append_left hlt]
      exact ih hlt
    · rw [List.getElem?_concat_length, Option.some.injEq]
      exact h.idle_iff_backlog hd

/-! ## The five schedulers -/

/-- **Work conservation.** At each time step the scheduler returns 0 exactly if
no process that has arrived is incomplete. The run returns `TRUE` exactly if the
makespan is within `time_bound`, it simulates the time steps `0`, `1`, …, up to
the makespan or `time_bound`, and is idle at the same ones under any two of the
five schedulers. -/
theorem run_work_conserving (D : Type) [DoubleArith D] (a b : Algorithm) (T : Table)
    (timeBound : UInt32) :
    (∀ t s, Reached (a.scheduler D) T.start timeBound t s → t < timeBound.toNat →
      stillRunning s.processes = true →
      ∃ pid sched, (a.scheduler D).getNextScheduledProcess
          (addArrivals (a.scheduler D) s.processes t s.sched) = some (pid, sched) ∧
        (pid = 0 ↔ ¬ ∃ p ∈ s.processes, p.initial.arrivalTime ≤ t ∧
          p.processedTime < p.initial.processingTime)) ∧
    ∃ s s', runSimulation (a.scheduler D) T.start timeBound =
        some (decide (T.makespan ≤ timeBound.toNat), s) ∧
      runSimulation (b.scheduler D) T.start timeBound =
        some (decide (T.makespan ≤ timeBound.toNat), s') ∧
      s.trace.map Prod.fst = List.range (min T.makespan timeBound.toNat) ∧
      s'.trace.map Prod.fst = List.range (min T.makespan timeBound.toNat) ∧
      ∀ t, (t, 0) ∈ s.trace ↔ (t, 0) ∈ s'.trace := by
  constructor
  · intro t s hs _ hstill
    have hagree := (a.books D).agree_reached hs
    obtain ⟨pid, sched, hnext, hd, -, -⟩ := (a.books D).tick_agree hagree hstill
    refine ⟨pid, sched, hnext, ?_⟩
    obtain ⟨σ, rfl, hσ, -⟩ := hagree.schedule
    constructor
    · rintro rfl ⟨p, hp, hpend⟩
      exact hd.of_eq_zero hσ.initial p hp hpend
    · intro hidle
      cases hd with
      | idle _ => rfl
      | serve hp hpend => exact absurd ⟨_, hp, hpend⟩ hidle
  · obtain ⟨σ, s, hrun, hlen, hσ, htrace⟩ := (a.books D).runSimulation_makespan T timeBound
    obtain ⟨σ', s', hrun', hlen', hσ', htrace'⟩ := (b.books D).runSimulation_makespan T timeBound
    refine ⟨s, s', hrun, hrun', ?_, ?_, fun t => ?_⟩
    · rw [htrace, map_fst_mapIdx, hlen]
    · rw [htrace', map_fst_mapIdx, hlen']
    · rw [htrace, htrace', mem_mapIdx_pair, mem_mapIdx_pair]
      by_cases ht : t < σ.length
      · rw [hσ.getElem?_eq_zero_iff ht, hσ'.getElem?_eq_zero_iff (by omega)]
      · rw [List.getElem?_eq_none (by omega), List.getElem?_eq_none (by omega)]

end Cosc240
