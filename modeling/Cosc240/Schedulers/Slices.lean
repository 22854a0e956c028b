import Cosc240.Schedulers.Rr
import Cosc240.Simulator.Slices

/-!
# Slices of processes

What the slices of `constant.c`, `exponential.c` and `custom.c` have in common:
a process is taken from a level and runs until it is complete or the slice of
its level is used up. The node behind the global `current` is the process of
the slice in progress, and `quantum_used` the time it has had (constant.c:140–196,
exponential.c:137–194, custom.c:336–387).

- `Slice`: a process, and the level it is taken from.
- `Slice.length`: a slice ends with its process, or when the slice length of the level is used up.
- `Slice.processAfter` and `Slice.running`: the process after the slice, and after `j` of its time
  steps.
- `Slice.Ends`: what a time step leaves of a slice. It goes on, its process is complete, or its
  slice is used up, and these exclude one another.

Main results:

- `Slice.ends`: the completion test and the quantum test of the three files decide which of the
  three it is.
- `Slice.running_eq_processAfter`: the process of a slice that is used up goes on with a fresh
  quantum.
-/

namespace Cosc240

/-- A process, and the level it is taken from. -/
structure Slice (L : Type) where
  level : L
  process : Job

/-- A process that is not complete. -/
def Job.Unfinished (p : Job) : Prop :=
  p.processedTime < p.processingTime ∧ p.processingTime < uintMax

theorem Table.unfinished_job (T : Table) {p : ProcessInitial} (hp : p ∈ T.processes) :
    p.job.Unfinished := by
  have hlt := T.processingTime_lt p hp
  refine ⟨T.processingTime_pos p hp, ?_⟩
  show p.processingTime < 4294967295
  omega

namespace Slice

variable {L : Type}

/-- A slice ends with its process, or when the slice length of the level is
used up. -/
def length (sliceLength : L → Nat) (i : Slice L) : Nat :=
  min (sliceLength i.level) (i.process.processingTime - i.process.processedTime)

/-- The process after the slice. -/
def processAfter (sliceLength : L → Nat) (i : Slice L) : Job :=
  { i.process with processedTime := i.process.processedTime + i.length sliceLength }

/-- The process of a slice that has had `j` time steps. -/
def running (i : Slice L) (j : Nat) : QuantumProcess :=
  { toJob := { i.process with processedTime := i.process.processedTime + j }, quantumUsed := j }

variable {sliceLength : L → Nat} {i : Slice L} {j : Nat}

theorem length_pos (hlen : ∀ k, 0 < sliceLength k) (h : i.process.Unfinished) :
    0 < i.length sliceLength := by
  have hslice := hlen i.level
  have hlt := h.1
  rw [length]
  omega

theorem length_le (sliceLength : L → Nat) (i : Slice L) :
    i.length sliceLength ≤ i.process.processingTime - i.process.processedTime :=
  Nat.min_le_right _ _

theorem unfinished_processAfter (h : i.process.Unfinished)
    (hne : (i.processAfter sliceLength).processedTime ≠ i.process.processingTime) :
    (i.processAfter sliceLength).Unfinished := by
  refine ⟨?_, h.2⟩
  have hle := length_le sliceLength i
  have hlt := h.1
  have hne' : i.process.processedTime + i.length sliceLength ≠ i.process.processingTime := hne
  show i.process.processedTime + i.length sliceLength < i.process.processingTime
  omega

theorem execute_running (h : i.process.Unfinished) (hj : j < i.length sliceLength) :
    (i.running j).execute = i.running (j + 1) := by
  obtain ⟨hlt, hmax⟩ := h
  have hle := length_le sliceLength i
  have hproc : incr (i.process.processedTime + j) = i.process.processedTime + j + 1 :=
    incr_of_lt (show _ < i.process.processingTime by omega) hmax.le
  have hquantum : incr j = j + 1 := incr_of_lt (show _ < i.process.processingTime by omega) hmax.le
  rw [QuantumProcess.execute]
  simp only [running, hproc, hquantum]
  rfl

/-! ## The end of a slice

A time step ends a slice exactly if the process is complete then, or has used up
the slice length. -/

/-- What a time step leaves of a slice. -/
inductive Ends (sliceLength : L → Nat) (i : Slice L) (j : Nat) : Prop
  | complete (hdone : (i.running (j + 1)).processedTime = (i.running (j + 1)).processingTime)
      (hlast : j + 1 = i.length sliceLength)
      (hafter : (i.processAfter sliceLength).processedTime = i.process.processingTime)
  | usedUp (hdone : (i.running (j + 1)).processedTime ≠ (i.running (j + 1)).processingTime)
      (hlast : j + 1 = i.length sliceLength)
      (hafter : (i.processAfter sliceLength).processedTime ≠ i.process.processingTime)
      (hquantum : (i.running (j + 1)).quantumUsed = sliceLength i.level)
  | goesOn (hdone : (i.running (j + 1)).processedTime ≠ (i.running (j + 1)).processingTime)
      (hlast : j + 1 ≠ i.length sliceLength)
      (hquantum : (i.running (j + 1)).quantumUsed < sliceLength i.level)

theorem ends (h : i.process.Unfinished) (hj : j < i.length sliceLength) :
    Ends sliceLength i j := by
  have hlength : i.length sliceLength =
    min (sliceLength i.level) (i.process.processingTime - i.process.processedTime) := rfl
  have hlt := h.1
  have hafter : (i.processAfter sliceLength).processedTime =
    i.process.processedTime + i.length sliceLength := rfl
  by_cases hdone : i.process.processedTime + (j + 1) = i.process.processingTime
  · have hlast : j + 1 = i.length sliceLength := by omega
    exact .complete hdone hlast (hafter.trans (by omega))
  by_cases hlast : j + 1 = i.length sliceLength
  · exact .usedUp hdone hlast (by omega) (show j + 1 = sliceLength i.level by omega)
  · exact .goesOn hdone hlast (show j + 1 < sliceLength i.level by omega)

/-- The process of a slice that is used up goes on with a fresh quantum. -/
theorem running_eq_processAfter (hlast : j + 1 = i.length sliceLength) :
    ({ i.running (j + 1) with quantumUsed := 0 } : QuantumProcess) =
      { toJob := i.processAfter sliceLength, quantumUsed := 0 } := by
  simp only [running, processAfter, hlast]

end Slice

end Cosc240
