import Cosc240.Input.Written

/-!
# Every valid input is accepted, but for one pid

The file that is written for a list of processes, number by number in decimal, is
in the format and its lines are short. So `main` accepts it with exactly these
processes, unless one of them has pid 999999: `main` compares with `MAX_PID` the
wrong way round for the largest pid that it supports (simulator.c:50–51, 360).

- `writeLine` and `writeFile`: the schedule file for a list of processes, in the order of the fields
  that readme.md:33 gives.
- `Valid`: the inputs that readme.md:50–52 calls valid. Every number is below 1,000,000, and no pid
  occurs twice.
- `written`: what is written is in the format, and `length_writeLine_lt`: each line fits the buffer.

Main results:

- `main_writeFile_iff`: a valid input gets through to `run_simulation` with exactly its processes,
  in file order, if and only if no pid is 999999.
- `main_refuses_maxPid`: the file with that pid is refused, with the message that each process id
  has to be less than 1,000,000.
-/

namespace Cosc240

open Lib

/-- The line `pid,arrival,processing`. -/
def writeLine (p : ProcessInitial) : List Char :=
  Nat.toDigits 10 p.pid ++ ',' :: (Nat.toDigits 10 p.arrivalTime ++ ',' ::
    (Nat.toDigits 10 p.processingTime ++ ['\n']))

/-- The schedule file for a list of processes. -/
def writeFile (ps : List ProcessInitial) : List Char :=
  Nat.toDigits 10 ps.length ++ '\n' :: (ps.map writeLine).flatten

/-- The inputs that `readme.md` calls valid. -/
structure Valid (ps : List ProcessInitial) : Prop where
  length_pos : 1 ≤ ps.length
  length_le : ps.length ≤ 999999
  pids_nodup : (ps.map ProcessInitial.pid).Nodup
  pid_pos : ∀ p ∈ ps, 1 ≤ p.pid
  pid_le : ∀ p ∈ ps, p.pid ≤ 999999
  arrivalTime_le : ∀ p ∈ ps, p.arrivalTime ≤ 999999
  processingTime_pos : ∀ p ∈ ps, 1 ≤ p.processingTime
  processingTime_le : ∀ p ∈ ps, p.processingTime ≤ 999999

theorem digits_toDigits (n : Nat) : Digits (Nat.toDigits 10 n) := by
  constructor
  · intro h
    have hpos := Nat.length_toDigits_pos (b := 10) (n := n)
    rw [h] at hpos
    exact Nat.lt_irrefl _ hpos
  · intro c hc
    exact Nat.isDigit_of_mem_toDigits (by decide) (by decide) hc

theorem decimal_toDigits (n : Nat) : decimal (Nat.toDigits 10 n) = n :=
  Nat.ofDigitChars_ten_toDigits

theorem length_toDigits_le {n : Nat} (h : n ≤ 999999) : (Nat.toDigits 10 n).length ≤ 6 :=
  (Nat.length_toDigits_le_iff (by decide) (by decide)).mpr (Nat.lt_succ_of_le h)

theorem writtenLine_writeLine (p : ProcessInitial) : WrittenLine (writeLine p) p := by
  have h := WrittenLine.mk (digits_toDigits p.pid) (digits_toDigits p.arrivalTime)
    (digits_toDigits p.processingTime)
  rwa [decimal_toDigits, decimal_toDigits, decimal_toDigits] at h

namespace Valid

variable {ps : List ProcessInitial}

/-- What is written is in the format. -/
theorem written (h : Valid ps) : Written (writeFile ps) (ps.map writeLine) ps where
  file_eq := by
    refine ⟨Nat.toDigits 10 ps.length, [], digits_toDigits _, ?_, ?_⟩
    · rw [decimal_toDigits, List.length_map]
    · rw [List.append_nil]
      rfl
  length_pos := by simpa using h.length_pos
  length_le := by simpa using h.length_le
  lines := by
    rw [List.forall₂_map_left_iff, List.forall₂_same]
    exact fun p _ => writtenLine_writeLine p
  pids_nodup := h.pids_nodup
  pid_pos := h.pid_pos
  arrivalTime_lt := fun p hp => Nat.lt_succ_of_le (h.arrivalTime_le p hp)
  processingTime_pos := h.processingTime_pos
  processingTime_le := h.processingTime_le

/-- Each line fits the buffer. -/
theorem length_writeLine_lt (h : Valid ps) : ∀ l ∈ ps.map writeLine, l.length < maxLineLength := by
  refine List.forall_mem_map.mpr fun p hp => ?_
  have hpid := length_toDigits_le (h.pid_le p hp)
  have harrival := length_toDigits_le (h.arrivalTime_le p hp)
  have hprocessing := length_toDigits_le (h.processingTime_le p hp)
  unfold writeLine maxLineLength
  simp only [List.length_append, List.length_cons, List.length_nil]
  omega

end Valid

/-- **Completeness of the input format.** A valid input gets through to
`run_simulation` with exactly its processes, in file order, if and only if no pid is
999999. -/
theorem main_writeFile_iff (memory : Memory) (ps : List ProcessInitial) (h : Valid ps) :
    main memory (writeFile ps) = .ok (startRows ps) ↔ ∀ p ∈ ps, p.pid ≠ 999999 := by
  rw [main_ok_iff_of_written h.written h.length_writeLine_lt]
  constructor
  · intro hlt p hp heq
    have hpid := hlt p hp
    rw [heq] at hpid
    exact Nat.lt_irrefl _ hpid
  · intro hne p hp
    exact Nat.lt_of_le_of_ne (h.pid_le p hp) (hne p hp)

theorem main_writeFile_readme :
    main ⟨0, fun _ => []⟩ (writeFile readmeTable.processes) = .ok readmeTable.start :=
  (main_writeFile_iff ⟨0, fun _ => []⟩ readmeTable.processes
    ⟨by decide, by decide, by decide, by decide, by decide, by decide, by decide, by decide⟩).mpr
    (by decide)

/-- `MAX_PID` is "the largest process id supported by the simulator", but a process
with this pid is refused, as one whose pid is not less than 1,000,000. -/
theorem main_refuses_maxPid :
    Valid [⟨999999, 1, 0⟩] ∧ writeFile [⟨999999, 1, 0⟩] = "1\n999999,0,1\n".toList ∧
      (∀ memory, main memory (writeFile [⟨999999, 1, 0⟩]) =
        .error ["Error reading process on line 1!\n",
          "Please ensure each process id is less than 1,000,000.\n"]) ∧
      ¬ ∀ memory ps, Valid ps → main memory (writeFile ps) = .ok (startRows ps) := by
  have hvalid : Valid [⟨999999, 1, 0⟩] :=
    ⟨by decide, by decide, by decide, by decide, by decide, by decide, by decide, by decide⟩
  have herror : ∀ memory, main memory (writeFile [⟨999999, 1, 0⟩]) =
      .error ["Error reading process on line 1!\n",
        "Please ensure each process id is less than 1,000,000.\n"] := fun _ => rfl
  refine ⟨hvalid, rfl, herror, fun h => ?_⟩
  have hok := h ⟨0, fun _ => []⟩ _ hvalid
  rw [herror] at hok
  cases hok

end Cosc240
