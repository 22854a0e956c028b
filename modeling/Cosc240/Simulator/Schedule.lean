import Cosc240.Lib.ListCount
import Cosc240.Lib.Workload
import Cosc240.Simulator.Basic

/-!
# Work-conserving schedules of a table

What the five schedulers have in common, stated without any of them: at each
time step the processor goes to a process that has arrived and is not complete,
and is idle only if there is none. This is the abstract level at which
`run_simulation` (simulator.c:177–221) is compared with the theory.

- `Dispatch`: one work-conserving choice, by the rows of the table at that time.
- `Schedule T σ processes`: the pids `σ` are made of such choices, and `processes` is the table that
  is left behind.
- `RowTally` and `RowOk`: a row is a summary of the pids so far. `RowTally` holds whoever makes the
  choices; `RowOk` adds what holds of work-conserving ones.
- `Table.makespan`, `Table.backlog`: the instant at which everything is done, and the work present
  at an instant, both from the table alone.

Main results:

- `Schedule.rowOk`: every row is such a summary.
- `Schedule.finishTime_eq` and `Schedule.makespan_eq`: the makespan is invariant, and a schedule
  that has done all work is that long. `Schedule.lt_makespan`: before that, work remains.
- `Schedule.waitingWork_eq_backlog` and `Schedule.idle_iff_backlog`: the work present is the
  backlog, so that the idle instants are those of the table.
-/

namespace Cosc240

open Lib

namespace ProcessStats

/-- The process has arrived by `t` and needs more time. -/
def Pending (t : Nat) (p : ProcessStats) : Prop :=
  p.initial.arrivalTime ≤ t ∧ p.processedTime < p.initial.processingTime

instance (t : Nat) (p : ProcessStats) : Decidable (p.Pending t) :=
  inferInstanceAs (Decidable (_ ∧ _))

/-- The row after time step `t` in which `pid` was scheduled. -/
def serve (t pid : Nat) (p : ProcessStats) : ProcessStats :=
  if p.initial.pid = pid then
    { p with
      processedTime := p.processedTime + 1
      endTime := if p.processedTime + 1 = p.initial.processingTime then t else p.endTime }
  else p

@[simp] theorem serve_initial (t pid : Nat) (p : ProcessStats) :
    (p.serve t pid).initial = p.initial := by
  unfold serve; split <;> rfl

theorem serve_of_ne {t pid : Nat} {p : ProcessStats} (h : p.initial.pid ≠ pid) :
    p.serve t pid = p := if_neg h

end ProcessStats

/-- One work-conserving choice at time `t`. -/
inductive Dispatch (t : Nat) (processes : List ProcessStats) : Nat → Prop
  | idle (h : ∀ p ∈ processes, ¬ p.Pending t) : Dispatch t processes 0
  | serve {p : ProcessStats} (hp : p ∈ processes) (hpend : p.Pending t) :
      Dispatch t processes p.initial.pid

/-- `Schedule T σ processes`: the pids `σ` are a work-conserving schedule of `T`
up to time `σ.length`, and `processes` is the table it leaves. -/
inductive Schedule (T : Table) : List Nat → List ProcessStats → Prop
  | start : Schedule T [] T.start
  | tick {σ : List Nat} {processes : List ProcessStats} {pid : Nat}
      (h : Schedule T σ processes) (hrun : stillRunning processes = true)
      (hd : Dispatch σ.length processes pid) :
      Schedule T (σ ++ [pid]) (processes.map (ProcessStats.serve σ.length pid))

/-! ## The table -/

section Table

variable {T : Table} {σ : List Nat} {processes : List ProcessStats}

theorem Table.start_initial (T : Table) : T.start.map ProcessStats.initial = T.processes := by
  simp [Table.start, Function.comp_def]

theorem map_serve_initial (t pid : Nat) (processes : List ProcessStats) :
    (processes.map (ProcessStats.serve t pid)).map ProcessStats.initial =
      processes.map ProcessStats.initial := by
  simp [Function.comp_def]

theorem Schedule.initial (h : Schedule T σ processes) :
    processes.map ProcessStats.initial = T.processes := by
  induction h with
  | start => exact T.start_initial
  | tick _ _ _ ih => rw [map_serve_initial, ih]

theorem initial_mem (hi : processes.map ProcessStats.initial = T.processes) {p : ProcessStats}
    (hp : p ∈ processes) : p.initial ∈ T.processes :=
  hi ▸ List.mem_map_of_mem hp

theorem pids_nodup (hi : processes.map ProcessStats.initial = T.processes) :
    (processes.map fun p => p.initial.pid).Nodup := by
  have h := T.pids_nodup
  rw [← hi, List.map_map] at h
  exact h

/-- Rows with one pid are one row. -/
theorem eq_of_pid_eq (hi : processes.map ProcessStats.initial = T.processes)
    {p q : ProcessStats} (hp : p ∈ processes) (hq : q ∈ processes)
    (h : p.initial.pid = q.initial.pid) : p = q :=
  List.inj_on_of_nodup_map (pids_nodup hi) hp hq h

theorem Table.nodup (T : Table) : T.processes.Nodup :=
  List.Nodup.of_map _ T.pids_nodup

theorem Table.eq_of_pid_eq (T : Table) {p q : ProcessInitial} (hp : p ∈ T.processes)
    (hq : q ∈ T.processes) (h : p.pid = q.pid) : p = q :=
  List.inj_on_of_nodup_map T.pids_nodup hp hq h

end Table

/-! ## Rows summarise the trace -/

/-- What a row says about the trace `σ` so far, whoever made the choices. -/
structure RowTally (σ : List Nat) (p : ProcessStats) : Prop where
  /-- `processed_time` counts the time steps given to the process. -/
  count : p.processedTime = σ.count p.initial.pid
  le : p.processedTime ≤ p.initial.processingTime
  /-- `end_time` of a complete process is its last time step. -/
  last : p.processedTime = p.initial.processingTime →
    σ[p.endTime]? = some p.initial.pid ∧ ∀ i, σ[i]? = some p.initial.pid → i ≤ p.endTime

theorem rowTally_start {p : ProcessInitial} (hp : 0 < p.processingTime) :
    RowTally [] ⟨p, 0, 0⟩ where
  count := rfl
  le := Nat.zero_le _
  last h := absurd h (Nat.ne_of_lt hp)

/-- One time step, for a row: it is either the scheduled one, and was not complete,
or another one. -/
theorem RowTally.serve {σ : List Nat} {p : ProcessStats} {pid : Nat} (h : RowTally σ p)
    (hlt : p.initial.pid = pid → p.processedTime < p.initial.processingTime) :
    RowTally (σ ++ [pid]) (p.serve σ.length pid) := by
  by_cases heq : p.initial.pid = pid
  · have hserve : p.serve σ.length pid =
        { p with
          processedTime := p.processedTime + 1
          endTime := if p.processedTime + 1 = p.initial.processingTime then σ.length
            else p.endTime } := if_pos heq
    rw [hserve]
    refine { count := ?_, le := hlt heq, last := fun hdone => ?_ }
    · simp only [List.count_append, h.count, heq, List.count_singleton_self]
    · dsimp only at hdone ⊢
      rw [if_pos hdone]
      refine ⟨by rw [List.getElem?_concat_length, heq], fun i hi => ?_⟩
      rcases getElem?_concat_eq_some_iff.mp hi with hi | ⟨rfl, -⟩
      · exact ((List.getElem?_eq_some_iff.mp hi).1).le
      · exact Nat.le_refl _
  · rw [ProcessStats.serve_of_ne heq]
    refine { count := ?_, le := h.le, last := fun hdone => ?_ }
    · rw [h.count, List.count_append, List.count_singleton, if_neg (by simpa using Ne.symm heq)]
      rfl
    · obtain ⟨hend, hlast⟩ := h.last hdone
      refine ⟨?_, fun i hi => ?_⟩
      · rw [List.getElem?_append_left (List.getElem?_eq_some_iff.mp hend).1, hend]
      · rcases getElem?_concat_eq_some_iff.mp hi with hi | ⟨-, hi⟩
        · exact hlast i hi
        · exact absurd hi.symm heq

/-- What a row says about the trace `σ` so far. -/
structure RowOk (σ : List Nat) (p : ProcessStats) : Prop where
  /-- `processed_time` counts the time steps given to the process. -/
  count : p.processedTime = σ.count p.initial.pid
  le : p.processedTime ≤ p.initial.processingTime
  /-- It never runs before it arrives. -/
  arrived : ∀ i, σ[i]? = some p.initial.pid → p.initial.arrivalTime ≤ i
  /-- The processor is not idle while it waits. -/
  busy : ∀ i, p.initial.arrivalTime ≤ i →
    (σ.take i).count p.initial.pid < p.initial.processingTime → σ[i]? ≠ some 0
  /-- `end_time` of a complete process is its last time step. -/
  last : p.processedTime = p.initial.processingTime →
    σ[p.endTime]? = some p.initial.pid ∧ ∀ i, σ[i]? = some p.initial.pid → i ≤ p.endTime

theorem rowOk_start {p : ProcessInitial} (hp : 0 < p.processingTime) : RowOk [] ⟨p, 0, 0⟩ where
  count := rfl
  le := Nat.zero_le _
  arrived i h := by cases h
  busy i _ _ h := by cases h
  last h := absurd h (Nat.ne_of_lt hp)

/-- One time step, for a row: it is either the scheduled one, and was pending,
or another one, and then it is not pending if the processor is idle. -/
theorem RowOk.serve {σ : List Nat} {p : ProcessStats} {pid : Nat} (h : RowOk σ p)
    (hd : p.initial.pid = pid → p.Pending σ.length)
    (hidle : pid = 0 → ¬ p.Pending σ.length) :
    RowOk (σ ++ [pid]) (p.serve σ.length pid) := by
  -- an idle instant of the longer trace is an old one, or the new one, and then nobody waits
  have hbusy : ∀ i, p.initial.arrivalTime ≤ i →
      ((σ ++ [pid]).take i).count p.initial.pid < p.initial.processingTime →
      (σ ++ [pid])[i]? ≠ some 0 := by
    intro i hi hlt hz
    rcases getElem?_concat_eq_some_iff.mp hz with hold | ⟨rfl, hnew⟩
    · have hil : i < σ.length := (List.getElem?_eq_some_iff.mp hold).1
      rw [List.take_append_of_le_length hil.le] at hlt
      exact h.busy i hi hlt hold
    · rw [List.take_left, ← h.count] at hlt
      exact hidle hnew ⟨hi, hlt⟩
  have htally := (RowTally.mk h.count h.le h.last).serve fun heq => (hd heq).2
  refine { count := htally.count, le := htally.le, arrived := ?_, busy := ?_, last := htally.last }
  · rw [ProcessStats.serve_initial]
    intro i hi
    rcases getElem?_concat_eq_some_iff.mp hi with hi | ⟨rfl, heq⟩
    · exact h.arrived i hi
    · exact (hd heq.symm).1
  · rw [ProcessStats.serve_initial]
    exact hbusy

/-- A process that has not arrived has not run. -/
theorem RowOk.eq_zero_of_le {σ : List Nat} {p : ProcessStats} (h : RowOk σ p)
    (harr : σ.length ≤ p.initial.arrivalTime) : p.processedTime = 0 := by
  rw [h.count]
  refine List.count_eq_zero_of_not_mem fun hmem => ?_
  obtain ⟨i, hi⟩ := List.mem_iff_getElem?.mp hmem
  have hlt := (List.getElem?_eq_some_iff.mp hi).1
  exact absurd (h.arrived i hi) (by omega)

theorem Dispatch.of_pid_eq {T : Table} {t pid : Nat} {processes : List ProcessStats}
    (hi : processes.map ProcessStats.initial = T.processes) (hd : Dispatch t processes pid)
    {p : ProcessStats} (hp : p ∈ processes) (heq : p.initial.pid = pid) : p.Pending t := by
  cases hd with
  | idle h => exact absurd heq (Nat.ne_of_gt (T.pid_pos _ (initial_mem hi hp)))
  | serve hq hpend => exact eq_of_pid_eq hi hp hq heq ▸ hpend

theorem Dispatch.of_eq_zero {T : Table} {t : Nat} {processes : List ProcessStats}
    (hi : processes.map ProcessStats.initial = T.processes) (hd : Dispatch t processes 0) :
    ∀ p ∈ processes, ¬ p.Pending t := by
  generalize hz : 0 = pid at hd
  cases hd with
  | idle h => exact h
  | serve hq hpend => exact absurd hz (Nat.ne_of_lt (T.pid_pos _ (initial_mem hi hq)))

/-- Every row of the table summarises the trace. -/
theorem Schedule.rowOk {T : Table} {σ : List Nat} {processes : List ProcessStats}
    (h : Schedule T σ processes) : ∀ p ∈ processes, RowOk σ p := by
  induction h with
  | start =>
    intro p hp
    obtain ⟨q, hq, rfl⟩ := List.mem_map.mp hp
    exact rowOk_start (T.processingTime_pos q hq)
  | tick h _ hd ih =>
    intro p hp
    obtain ⟨q, hq, rfl⟩ := List.mem_map.mp hp
    refine (ih q hq).serve (hd.of_pid_eq h.initial hq) fun hz => ?_
    subst hz
    exact hd.of_eq_zero h.initial q hq

/-! ## The makespan -/

/-- The work a process of the table still needs after the trace `σ`. -/
def remaining (σ : List Nat) (p : ProcessInitial) : Nat :=
  p.processingTime - σ.count p.pid

/-- The processes in arrival order. -/
def Table.byArrival (T : Table) : List ProcessInitial :=
  T.processes.insertionSort fun p q => p.arrivalTime ≤ q.arrivalTime

/-- `M`: the fold `m ↦ max m arrival_time + processing_time` in arrival order. -/
def Table.makespan (T : Table) : Nat :=
  finishTime ProcessInitial.arrivalTime ProcessInitial.processingTime 0 T.byArrival

/-- The work present at time `t` under any work-conserving scheduler: what was
present before, less the unit served, plus what arrives. -/
def Table.backlog (T : Table) : Nat → Nat
  | 0 => arrivingWork ProcessInitial.arrivalTime ProcessInitial.processingTime 0 T.processes
  | t + 1 => T.backlog t - 1 +
      arrivingWork ProcessInitial.arrivalTime ProcessInitial.processingTime (t + 1) T.processes

section Makespan

variable {T : Table} {σ : List Nat} {processes : List ProcessStats}

theorem Table.byArrival_perm (T : Table) : T.byArrival.Perm T.processes :=
  List.perm_insertionSort _ _

theorem Table.byArrival_sorted (T : Table) :
    T.byArrival.Pairwise fun p q => p.arrivalTime ≤ q.arrivalTime := by
  have : Std.Total fun p q : ProcessInitial => p.arrivalTime ≤ q.arrivalTime :=
    ⟨fun p q => Nat.le_total _ _⟩
  have : IsTrans ProcessInitial fun p q => p.arrivalTime ≤ q.arrivalTime :=
    ⟨fun _ _ _ => Nat.le_trans⟩
  exact List.pairwise_insertionSort _ _

theorem RowOk.remaining_eq {p : ProcessStats} (h : RowOk σ p) :
    remaining σ p.initial = p.initial.processingTime - p.processedTime := by
  rw [remaining, h.count]

theorem RowOk.remaining_pos_iff {p : ProcessStats} (h : RowOk σ p) :
    0 < remaining σ p.initial ↔ p.processedTime < p.initial.processingTime := by
  rw [h.remaining_eq]
  omega

theorem remaining_concat_of_ne {p : ProcessInitial} {pid : Nat} (h : p.pid ≠ pid) :
    remaining (σ ++ [pid]) p = remaining σ p := by
  rw [remaining, List.count_append, List.count_singleton, if_neg (by simpa using Ne.symm h)]
  rfl

/-- A time step given to a pending process serves it. -/
theorem Schedule.served (h : Schedule T σ processes) {p : ProcessStats} (hp : p ∈ processes)
    (hlt : p.processedTime < p.initial.processingTime) :
    Served T.processes p.initial (remaining σ) (remaining (σ ++ [p.initial.pid])) where
  self := by
    rw [remaining, remaining, List.count_append, List.count_singleton_self,
      ← (h.rowOk p hp).count]
    omega
  other q hq hne := remaining_concat_of_ne fun heq =>
    hne (T.eq_of_pid_eq hq (initial_mem h.initial hp) heq)

/-- An idle time step serves nobody. -/
theorem remaining_idle : ∀ q ∈ T.processes, remaining (σ ++ [0]) q = remaining σ q :=
  fun q hq => remaining_concat_of_ne (Nat.ne_of_gt (T.pid_pos q hq))

theorem mem_rows (hi : processes.map ProcessStats.initial = T.processes) {q : ProcessInitial}
    (hq : q ∈ T.processes) : ∃ p ∈ processes, p.initial = q := by
  rw [← hi] at hq
  exact List.mem_map.mp hq

/-- Somebody still needs time exactly while work remains. -/
theorem Schedule.stillRunning_iff (h : Schedule T σ processes) :
    stillRunning processes = true ↔ ∃ q ∈ T.processes, 0 < remaining σ q := by
  rw [Cosc240.stillRunning_iff]
  constructor
  · rintro ⟨p, hp, hlt⟩
    exact ⟨p.initial, initial_mem h.initial hp, (h.rowOk p hp).remaining_pos_iff.mpr hlt⟩
  · rintro ⟨q, hq, hpos⟩
    obtain ⟨p, hp, rfl⟩ := mem_rows h.initial hq
    exact ⟨p, hp, (h.rowOk p hp).remaining_pos_iff.mp hpos⟩

/-- When nobody needs time any more, each row is complete. -/
theorem Schedule.processedTime_eq (h : Schedule T σ processes)
    (hdone : stillRunning processes = false) {p : ProcessStats} (hp : p ∈ processes) :
    p.processedTime = p.initial.processingTime := by
  refine Nat.le_antisymm (h.rowOk p hp).le ?_
  by_contra hlt
  have hrun := Cosc240.stillRunning_iff.mpr ⟨p, hp, Nat.lt_of_not_le hlt⟩
  rw [hdone] at hrun
  cases hrun

/-- Nobody is pending exactly when the arrived processes have no work left. -/
theorem Schedule.not_pending_iff (h : Schedule T σ processes) {t : Nat} :
    (∀ p ∈ processes, ¬ p.Pending t) ↔
      ∀ q ∈ T.processes, q.arrivalTime ≤ t → remaining σ q = 0 := by
  constructor
  · intro hidle q hq hqt
    obtain ⟨p, hp, rfl⟩ := mem_rows h.initial hq
    by_contra hne
    exact hidle p hp ⟨hqt, (h.rowOk p hp).remaining_pos_iff.mp (Nat.pos_of_ne_zero hne)⟩
  · rintro hdone p hp ⟨harr, hlt⟩
    have hpos := (h.rowOk p hp).remaining_pos_iff.mpr hlt
    have := hdone p.initial (initial_mem h.initial hp) harr
    omega

/-- **The makespan is invariant.** Finishing from now, at the end of the trace,
is finishing from the start. -/
theorem Schedule.finishTime_eq (h : Schedule T σ processes) :
    finishTime ProcessInitial.arrivalTime (remaining σ) σ.length T.byArrival = T.makespan := by
  induction h with
  | start => rfl
  | @tick σ processes pid h hrun hd ih =>
    rw [← ih, List.length_append, List.length_singleton]
    have hmem : ∀ q, q ∈ T.byArrival ↔ q ∈ T.processes := fun q => T.byArrival_perm.mem_iff
    cases hd with
    | idle hidle =>
      have hrem : ∀ q ∈ T.byArrival, remaining (σ ++ [0]) q = remaining σ q :=
        fun q hq => remaining_idle q ((hmem q).mp hq)
      rw [finishTime_congr hrem]
      refine finishTime_idle (fun q hq => h.not_pending_iff.mp hidle q ((hmem q).mp hq)) ?_
      obtain ⟨q, hq, hpos⟩ := h.stillRunning_iff.mp hrun
      exact ⟨q, (hmem q).mpr hq, hpos⟩
    | @serve p hp hpend =>
      have hs := h.served hp hpend.2
      exact finishTime_serve T.byArrival_sorted (T.byArrival_perm.nodup_iff.mpr T.nodup)
        ((hmem _).mpr (initial_mem h.initial hp))
        ⟨hs.self, fun q hq => hs.other q ((hmem q).mp hq)⟩ hpend.1

/-- While work remains the makespan lies ahead. -/
theorem Schedule.lt_makespan (h : Schedule T σ processes) (hrun : stillRunning processes = true) :
    σ.length < T.makespan := by
  rw [← h.finishTime_eq]
  obtain ⟨q, hq, hpos⟩ := h.stillRunning_iff.mp hrun
  exact lt_finishTime ⟨q, T.byArrival_perm.mem_iff.mpr hq, hpos⟩

/-- A schedule that has done all work has length `M`. -/
theorem Schedule.makespan_eq (h : Schedule T σ processes)
    (hdone : stillRunning processes = false) : σ.length = T.makespan := by
  rw [← h.finishTime_eq]
  refine (finishTime_done fun q hq => ?_).symm
  obtain ⟨p, hp, rfl⟩ := mem_rows h.initial (T.byArrival_perm.mem_iff.mp hq)
  have hrow := h.rowOk p hp
  have hzero : remaining σ p.initial = 0 := by
    by_contra hne
    have hrun := h.stillRunning_iff.mpr
      ⟨p.initial, initial_mem h.initial hp, Nat.pos_of_ne_zero hne⟩
    rw [hdone] at hrun
    cases hrun
  refine ⟨?_, hzero⟩
  -- a complete process has run, so it has arrived
  have hle := hrow.le
  rw [hrow.remaining_eq] at hzero
  obtain ⟨hend, -⟩ := hrow.last (by omega)
  exact (hrow.arrived _ hend).trans (List.getElem?_eq_some_iff.mp hend).1.le

/-- **The work present is invariant.** It is the backlog, a function of the
table alone. -/
theorem Schedule.waitingWork_eq_backlog (h : Schedule T σ processes) :
    waitingWork ProcessInitial.arrivalTime (remaining σ) σ.length T.processes =
      T.backlog σ.length := by
  induction h with
  | start =>
    show waitingWork _ _ 0 _ = arrivingWork _ _ 0 _
    unfold waitingWork arrivingWork
    simp only [Nat.le_zero_eq]
    rfl
  | @tick σ processes pid h hrun hd ih =>
    rw [List.length_append, List.length_singleton, waitingWork_succ, Table.backlog, ← ih]
    -- what arrives next has not run yet
    have harrive : arrivingWork ProcessInitial.arrivalTime (remaining (σ ++ [pid]))
        (σ.length + 1) T.processes =
        arrivingWork ProcessInitial.arrivalTime ProcessInitial.processingTime
          (σ.length + 1) T.processes := by
      unfold arrivingWork
      congr 1
      refine List.map_congr_left fun q hq => ?_
      obtain ⟨hq, hqt⟩ := List.mem_filter.mp hq
      have hnext : Schedule T (σ ++ [pid]) (processes.map (ProcessStats.serve σ.length pid)) :=
        h.tick hrun hd
      obtain ⟨p, hp, rfl⟩ := mem_rows hnext.initial hq
      have hrow := hnext.rowOk p hp
      have hcount : p.processedTime = 0 := by
        refine hrow.eq_zero_of_le ?_
        rw [List.length_append, List.length_singleton]
        exact (of_decide_eq_true hqt).ge
      rw [hrow.remaining_eq, hcount, Nat.sub_zero]
    rw [harrive]
    congr 1
    cases hd with
    | idle hidle =>
      have hzero : waitingWork ProcessInitial.arrivalTime (remaining σ) σ.length T.processes = 0 :=
        waitingWork_eq_zero_iff.mpr (h.not_pending_iff.mp hidle)
      rw [hzero]
      refine waitingWork_eq_zero_iff.mpr fun q hq hqt => ?_
      rw [remaining_idle q hq]
      exact h.not_pending_iff.mp hidle q hq hqt
    | @serve p hp hpend =>
      rw [waitingWork_serve T.nodup (initial_mem h.initial hp) hpend.1 (h.served hp hpend.2),
        Nat.add_sub_cancel]

/-- The processor is idle exactly at the instants without backlog. -/
theorem Schedule.idle_iff_backlog (h : Schedule T σ processes) {pid : Nat}
    (hd : Dispatch σ.length processes pid) : pid = 0 ↔ T.backlog σ.length = 0 := by
  rw [← h.waitingWork_eq_backlog, waitingWork_eq_zero_iff, ← h.not_pending_iff]
  constructor
  · rintro rfl
    exact hd.of_eq_zero h.initial
  · intro hidle
    cases hd with
    | idle _ => rfl
    | serve hp hpend => exact absurd hpend (hidle _ hp)

end Makespan

end Cosc240
