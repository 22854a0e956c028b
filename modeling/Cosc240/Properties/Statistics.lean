import Cosc240.Properties.Makespan
import Mathlib.Algebra.BigOperators.Intervals
import Mathlib.Order.Interval.Finset.Nat

/-!
# What the statistics mean

The statistics are computed from three numbers in each row (simulator.c:230–281). Here they are
counts over the whole run: the wait time of a process counts the time steps given to
others while it was there, and the turnaround times add up to the number of
processes present, summed over the time steps.

- `calculateAverageTurnaroundTime` and `calculateAverageWaitTime`: the averages, over exact
  rationals where the code adds and divides `double`s.
- `RowOk.mem_Icc`, `RowOk.card_Icc`: the time steps of a complete process lie between its arrival
  and its end, and the others in between were given to somebody else or to nobody.
- `RowOk.turnaroundTime_eq` and `RowOk.waitTime_eq`: the two functions on a row, without wrapping.
- `RowOk.turnaroundTime_eq_card`: the turnaround time counts the time steps at which the process is
  there.

Main result:

- `statistics_of_run`: when `run_simulation` returns `TRUE`, no subtraction wraps, the wait times
  and turnaround times are these counts, and the averages are the sums divided by the number of
  processes. The witness has the averages that readme.md:84–85 gives, 4.33 and 8.67.
-/

namespace Cosc240

open Lib

/-! ## Averages -/

/-- `calculate_average_turnaround_time`, over exact rationals. -/
def calculateAverageTurnaroundTime (processes : List ProcessStats) : ℚ :=
  if processes.length > 0 then
    processes.foldl (fun average p => average + (calculateTurnaroundTime p : ℚ)) 0 /
      processes.length
  else 0

/-- `calculate_average_wait_time`, over exact rationals. -/
def calculateAverageWaitTime (processes : List ProcessStats) : ℚ :=
  if processes.length > 0 then
    processes.foldl (fun average p => average + (calculateWaitTime p : ℚ)) 0 / processes.length
  else 0

theorem foldl_average (f : ProcessStats → Nat) (processes : List ProcessStats) (q : ℚ) :
    processes.foldl (fun average p => average + (f p : ℚ)) q =
      q + ((processes.map f).sum : Nat) := by
  induction processes generalizing q with
  | nil => simp
  | cons p processes ih =>
    rw [List.foldl_cons, ih, List.map_cons, List.sum_cons, Nat.cast_add, add_assoc]

/-! ## One row -/

section Row

variable {σ : List Nat} {p : ProcessStats}

/-- All time steps of a complete process lie between its arrival and its end. -/
theorem RowOk.mem_Icc (h : RowOk σ p) (hdone : p.processedTime = p.initial.processingTime)
    {i : Nat} (hi : σ[i]? = some p.initial.pid) :
    i ∈ Finset.Icc p.initial.arrivalTime p.endTime :=
  Finset.mem_Icc.mpr ⟨h.arrived i hi, (h.last hdone).2 i hi⟩

theorem RowOk.endTime_lt (h : RowOk σ p) (hdone : p.processedTime = p.initial.processingTime) :
    p.endTime < σ.length :=
  (List.getElem?_eq_some_iff.mp (h.last hdone).1).1

/-- The time steps from arrival to end are those given to the process and those
given to others. -/
theorem RowOk.card_Icc (h : RowOk σ p) (hdone : p.processedTime = p.initial.processingTime) :
    p.initial.processingTime +
        ((Finset.Icc p.initial.arrivalTime p.endTime).filter
          fun i => ¬ σ[i]? = some p.initial.pid).card =
      (Finset.Icc p.initial.arrivalTime p.endTime).card := by
  have hmine : (Finset.Icc p.initial.arrivalTime p.endTime).filter
      (fun i => σ[i]? = some p.initial.pid) =
      (Finset.range σ.length).filter fun i => σ[i]? = some p.initial.pid := by
    ext i
    rw [Finset.mem_filter, Finset.mem_filter, Finset.mem_range]
    constructor
    · rintro ⟨-, hi⟩
      exact ⟨(List.getElem?_eq_some_iff.mp hi).1, hi⟩
    · rintro ⟨-, hi⟩
      exact ⟨h.mem_Icc hdone hi, hi⟩
  rw [← hdone, h.count, count_eq_card, ← hmine]
  exact Finset.card_filter_add_card_filter_not _

/-- A process needs as much time as it is given. -/
theorem RowOk.arrival_add_processing_le (h : RowOk σ p)
    (hdone : p.processedTime = p.initial.processingTime)
    (hpos : 0 < p.initial.processingTime) :
    p.initial.arrivalTime + p.initial.processingTime ≤ p.endTime + 1 := by
  have hcard := h.card_Icc hdone
  rw [Nat.card_Icc] at hcard
  omega

theorem RowOk.turnaroundTime_eq (h : RowOk σ p)
    (hdone : p.processedTime = p.initial.processingTime) (hpos : 0 < p.initial.processingTime)
    (hσ : σ.length ≤ uintMax) :
    calculateTurnaroundTime p = p.endTime - p.initial.arrivalTime + 1 := by
  have hle := h.arrival_add_processing_le hdone hpos
  have hlt := h.endTime_lt hdone
  rw [calculateTurnaroundTime, usub_of_le (by omega) (by omega), toUInt_of_le (by omega)]

/-- The wait time counts the time steps given to other processes. -/
theorem RowOk.waitTime_eq (h : RowOk σ p) (hdone : p.processedTime = p.initial.processingTime)
    (hpos : 0 < p.initial.processingTime) (hσ : σ.length ≤ uintMax) :
    calculateWaitTime p = calculateTurnaroundTime p - p.processedTime ∧
      calculateWaitTime p = (σ.mapIdx fun t pid => (t, pid)).countP fun (t, pid) =>
        decide (p.initial.arrivalTime ≤ t ∧ t ≤ p.endTime ∧ pid ≠ 0 ∧ pid ≠ p.initial.pid) := by
  have hle := h.arrival_add_processing_le hdone hpos
  have hlt := h.endTime_lt hdone
  have hturn := h.turnaroundTime_eq hdone hpos hσ
  have hwait : calculateWaitTime p = calculateTurnaroundTime p - p.processedTime := by
    rw [calculateWaitTime]
    exact usub_of_le (by omega) (by omega)
  refine ⟨hwait, ?_⟩
  have hcard := h.card_Icc hdone
  -- between arrival and end the processor is never idle
  have hothers : (Finset.Icc p.initial.arrivalTime p.endTime).filter
      (fun i => ¬ σ[i]? = some p.initial.pid) =
      (Finset.range σ.length).filter fun i => (σ[i]?).any (fun pid =>
        decide (p.initial.arrivalTime ≤ i ∧ i ≤ p.endTime ∧ pid ≠ 0 ∧ pid ≠ p.initial.pid)) =
          true := by
    ext i
    rw [Finset.mem_filter, Finset.mem_filter, Finset.mem_range, Finset.mem_Icc]
    constructor
    · rintro ⟨⟨harr, hend⟩, hother⟩
      have hi : i < σ.length := Nat.lt_of_le_of_lt hend hlt
      rw [List.getElem?_eq_getElem hi] at hother ⊢
      have hbusy := h.busy i harr (by
        rw [← hdone, h.count]
        exact count_take_lt (h.last hdone).1 hend)
      rw [List.getElem?_eq_getElem hi] at hbusy
      refine ⟨hi, decide_eq_true ⟨harr, hend, ?_, ?_⟩⟩
      · exact fun hz => hbusy (congrArg some hz)
      · exact fun hz => hother (congrArg some hz)
    · rintro ⟨hi, hany⟩
      rw [List.getElem?_eq_getElem hi] at hany ⊢
      obtain ⟨harr, hend, -, hne⟩ := of_decide_eq_true hany
      exact ⟨⟨harr, hend⟩, fun heq => hne (Option.some.inj heq)⟩
  rw [countP_mapIdx, ← hothers, hwait, hturn]
  rw [Nat.card_Icc] at hcard
  omega

/-- The turnaround time counts the time steps at which the process is there:
it has arrived and has not completed before. -/
theorem RowOk.turnaroundTime_eq_card (h : RowOk σ p)
    (hdone : p.processedTime = p.initial.processingTime) (hpos : 0 < p.initial.processingTime)
    (hσ : σ.length ≤ uintMax) :
    calculateTurnaroundTime p = ((Finset.range σ.length).filter fun t =>
      decide (p.initial.arrivalTime ≤ t ∧
        (σ.take t).count p.initial.pid < p.initial.processingTime) = true).card := by
  have hle := h.arrival_add_processing_le hdone hpos
  have hlt := h.endTime_lt hdone
  have hpresent : (Finset.range σ.length).filter (fun t =>
      decide (p.initial.arrivalTime ≤ t ∧
        (σ.take t).count p.initial.pid < p.initial.processingTime) = true) =
      Finset.Icc p.initial.arrivalTime p.endTime := by
    ext t
    rw [Finset.mem_filter, Finset.mem_range, Finset.mem_Icc, decide_eq_true_eq]
    constructor
    · rintro ⟨-, harr, hcount⟩
      refine ⟨harr, ?_⟩
      by_contra hgt
      -- after its end it has had all its time, which is too much
      have hall : (σ.take t).count p.initial.pid = σ.count p.initial.pid :=
        count_take_eq fun j hj => Nat.lt_of_le_of_lt ((h.last hdone).2 j hj) (by omega)
      rw [hall, ← h.count, hdone] at hcount
      exact Nat.lt_irrefl _ hcount
    · rintro ⟨harr, hend⟩
      refine ⟨by omega, harr, ?_⟩
      rw [← hdone, h.count]
      exact count_take_lt (h.last hdone).1 hend
  rw [h.turnaroundTime_eq hdone hpos hσ, hpresent, Nat.card_Icc]
  omega

end Row

/-! ## The whole table -/

/-- **The statistics.** When `run_simulation` returns `TRUE`, no subtraction in
the two functions wraps, the wait time of a process counts the time steps
between its arrival and its end that were given to other processes, and the
turnaround times add up to the number of processes present, over all time steps.
The averages are the sums divided by the number of processes. -/
theorem statistics_of_run (D : Type) [DoubleArith D] (a : Algorithm) (T : Table)
    (timeBound : UInt32) (s : Sim (a.scheduler D))
    (h : runSimulation (a.scheduler D) T.start timeBound = some (true, s)) :
    s.processes.map ProcessStats.initial = T.processes ∧
    (∀ p ∈ s.processes,
      p.initial.arrivalTime + p.initial.processingTime ≤ p.endTime + 1 ∧
      calculateTurnaroundTime p = p.endTime - p.initial.arrivalTime + 1 ∧
      p.processedTime ≤ calculateTurnaroundTime p ∧
      calculateWaitTime p = calculateTurnaroundTime p - p.processedTime ∧
      calculateWaitTime p = s.trace.countP fun (t, pid) =>
        decide (p.initial.arrivalTime ≤ t ∧ t ≤ p.endTime ∧ pid ≠ 0 ∧ pid ≠ p.initial.pid)) ∧
    (s.processes.map calculateTurnaroundTime).sum =
      ∑ t ∈ Finset.range s.trace.length, s.processes.countP (fun p =>
        decide (p.initial.arrivalTime ≤ t ∧
          ((s.trace.map Prod.snd).take t).count p.initial.pid < p.initial.processingTime)) ∧
    calculateAverageTurnaroundTime s.processes =
      ((s.processes.map calculateTurnaroundTime).sum : Nat) / (s.processes.length : ℚ) ∧
    calculateAverageWaitTime s.processes =
      ((s.processes.map calculateWaitTime).sum : Nat) / (s.processes.length : ℚ) := by
  obtain ⟨N, hs, hstill⟩ := (a.books D).reached_of_runSimulation_true h
  obtain ⟨σ, rfl, hσ, htrace⟩ := ((a.books D).agree_reached hs).trace
  have hlen : σ.length ≤ uintMax :=
    hs.le_timeBound.trans (Nat.le_of_lt_succ (UInt32.toNat_lt timeBound))
  have hsnd : s.trace.map Prod.snd = σ := by
    rw [htrace]
    exact List.ext_getElem (by simp) fun i hi hi' => by simp
  have hpos : ∀ p ∈ s.processes, 0 < p.initial.processingTime := fun p hp =>
    T.processingTime_pos _ (initial_mem hσ.initial hp)
  have hdone : ∀ p ∈ s.processes, p.processedTime = p.initial.processingTime :=
    fun p hp => hσ.processedTime_eq hstill hp
  have hlength : 0 < s.processes.length := by
    rw [← List.length_map (f := ProcessStats.initial), hσ.initial]
    exact List.length_pos_of_ne_nil T.nonempty
  refine ⟨hσ.initial, fun p hp => ?_, ?_, ?_, ?_⟩
  · have hrow := hσ.rowOk p hp
    have hle := hrow.arrival_add_processing_le (hdone p hp) (hpos p hp)
    have hturn := hrow.turnaroundTime_eq (hdone p hp) (hpos p hp) hlen
    obtain ⟨hwait, hcount⟩ := hrow.waitTime_eq (hdone p hp) (hpos p hp) hlen
    refine ⟨hle, hturn, ?_, hwait, ?_⟩
    · have hmine := hdone p hp
      omega
    · rw [htrace]
      exact hcount
  · rw [hsnd, htrace, List.length_mapIdx, ← sum_map_card_filter]
    refine congrArg List.sum (List.map_congr_left fun p hp => ?_)
    exact (hσ.rowOk p hp).turnaroundTime_eq_card (hdone p hp) (hpos p hp) hlen
  · rw [calculateAverageTurnaroundTime, if_pos hlength, foldl_average, zero_add]
  · rw [calculateAverageWaitTime, if_pos hlength, foldl_average, zero_add]

/-- The averages that `readme.md` gives for its example, 8.67 and 4.33. -/
theorem statistics_of_run_readme :
    ∃ s, runSimulation Fcfs.scheduler readmeTable.start 1000000 = some (true, s) ∧
      s.processes.map ProcessStats.initial = readmeTable.processes ∧
      (∀ p ∈ s.processes, p.processedTime ≤ calculateTurnaroundTime p) ∧
      calculateAverageTurnaroundTime s.processes = 26 / 3 ∧
      calculateAverageWaitTime s.processes = 13 / 3 := by
  let s : Sim Fcfs.scheduler :=
    { processes := [⟨⟨1, 10, 0⟩, 10, 9⟩, ⟨⟨2, 1, 2⟩, 1, 10⟩, ⟨⟨3, 2, 6⟩, 2, 12⟩]
      sched := []
      output := .header :: [1, 1, 1, 1, 1, 1, 1, 1, 1, 1, 2, 3, 3].mapIdx Line.step }
  have hrun : runSimulation Fcfs.scheduler readmeTable.start 1000000 = some (true, s) := rfl
  obtain ⟨hi, hrows, -, hturnaround, hwait⟩ :=
    statistics_of_run ℚ .fcfs readmeTable 1000000 s hrun
  refine ⟨s, hrun, hi, fun p hp => (hrows p hp).2.2.1, ?_, ?_⟩
  · have hsum : (s.processes.map calculateTurnaroundTime).sum = 26 := by decide
    rw [hturnaround, hsum]
    rfl
  · have hsum : (s.processes.map calculateWaitTime).sum = 13 := by decide
    rw [hwait, hsum]
    rfl

end Cosc240
