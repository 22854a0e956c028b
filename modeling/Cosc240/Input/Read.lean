import Cosc240.Lib.CStdio
import Cosc240.Simulator.Basic

/-!
# Reading the schedule file

`strtoui`, `read_process_initial` and the part of `main` that comes before
`run_simulation`, over the characters of the file that has been opened. What the
program reads from memory that it has not written is a parameter.

- `strtoui` (simulator.c:72–78): the value, `endptr` and `errno`. `errno` is only ever set, so the
  three calls for a line share it.
- `parseLine` and `readProcessInitial` (simulator.c:89–131): the work on the array `line`, and with
  the call of `fgets` in front of it. The array is what `fgets` has stored in front of what was
  there before; at the end of the file nothing is stored.
- `readProcesses` and `main` (simulator.c:316–391): the loop over the process lines with its checks
  in their order, and the checks on the number of processes. The result is what is printed before
  `return 1`, or the table that `run_simulation` gets.
- `Memory`: what `num_processes` and the array `line` hold before anything is written to them.
- `maxLineLength`, `timeout`, `maxPid` (simulator.c:45–51): the constants.

The arguments of `main` and the opening of the file are in `Properties.ExitStatus`.
-/

namespace Cosc240

open Lib

/-- `MAX_LINE_LENGTH`. -/
def maxLineLength : Nat := 1024

/-- `TIMEOUT`. -/
def timeout : Nat := 1000000

/-- `MAX_PID`. -/
def maxPid : Nat := 999999

/-- `ERANGE`. -/
def ERANGE : Nat := 34

/-- `*s`. -/
def deref (s : List Char) : Char := s.headD '\x00'

/-- `strtoui(s, &endptr, 10)`: the value, `endptr`, and `errno`. -/
def strtoui (s : List Char) (errno : Nat) : Nat × List Char × Nat :=
  let val := strtoul s
  let errno := if val.erange then ERANGE else errno
  let errno := if val.value > intMax then ERANGE else errno
  (toUInt val.value, val.endptr, errno)

/-- The part of `read_process_initial` that works on `line`. -/
def parseLine (line : List Char) : ProcessInitial :=
  let errno := 0
  -- pid; this also overwrites the 0 that stands for a line that could not be read
  let (pid, endptr, errno) := strtoui line errno
  let pid := if errno ≠ 0 ∨ deref endptr ≠ ',' then 0 else pid
  -- arrival time
  let (arrivalTime, endptr, errno) := strtoui endptr.tail errno
  let pid := if errno ≠ 0 ∨ deref endptr ≠ ',' then 0 else pid
  -- processing time
  let (processingTime, endptr, errno) := strtoui endptr.tail errno
  let pid := if errno ≠ 0 ∨ deref endptr ≠ '\n' then 0 else pid
  ⟨pid, processingTime, arrivalTime⟩

/-- `read_process_initial`, where `line` is what there is from the array `line`
on, before the call. The result comes with what is left of the file. -/
def readProcessInitial (line file : List Char) : ProcessInitial × List Char :=
  match fgets maxLineLength line file with
  | some (line, file) => (parseLine line, file)
  | none => (parseLine line, file)

/-- What `main` and `read_process_initial` find where they have written nothing. -/
structure Memory where
  /-- `num_processes` before the call of `fscanf`. -/
  numProcesses : Nat
  /-- What there is from `line` on, the rest of the stack included, when line
  `i + 1` is read. -/
  line : Nat → List Char

/-- The messages for a process line that is refused. -/
def lineError (i : Nat) (explanation : List String) : List String :=
  s!"Error reading process on line {i + 1}!\n" :: explanation

/-- The loop of `main`, with `k` lines to go. -/
def readProcesses (memory : Memory) :
    (k i : Nat) → (processes : List ProcessStats) → (file : List Char) →
      Except (List String) (List ProcessStats)
  | 0, _, processes, _ => .ok processes
  | k + 1, i, processes, file =>
    let (initial, file) := readProcessInitial (memory.line i) file
    if initial.pid = 0 then
      .error (lineError i
        ["Please ensure each process line matches the following format (with pid>0):\n",
          "\tpid,processing_time,arrival_time\n"])
    else if initial.pid ≥ maxPid then
      .error (lineError i ["Please ensure each process id is less than 1,000,000.\n"])
    else if initial.arrivalTime < 0 ∨ initial.arrivalTime ≥ timeout then
      .error (lineError i
        ["Please ensure each process has an arrival time between 0 and 1,000,000.\n"])
    else if initial.processingTime ≤ 0 ∨ initial.processingTime ≥ timeout then
      .error (lineError i
        ["Please ensure each process has a processing time between 1 and 1,000,000.\n"])
    else if processes.any fun p => initial.pid = p.initial.pid then
      .error (lineError i ["Please ensure each process's PID is unique.\n"])
    else readProcesses memory k (i + 1) (processes ++ [⟨initial, 0, 0⟩]) file

/-- `main` on an open file, up to the call of `run_simulation`: what is printed
before `return 1`, or the table for the simulation. -/
def main (memory : Memory) (file : List Char) : Except (List String) (List ProcessStats) :=
  let scan := fscanf file
  let numProcesses := (scan.stored.map toUInt).getD memory.numProcesses
  if scan.count = EOF then
    .error ["Error reading number of processes.\n",
      "Please ensure the file begins with a line containing the number of processes in the file.\n"]
  else if numProcesses < 1 ∨ numProcesses ≥ timeout then
    .error ["Error reading number of processes.\n",
      "Please ensure there are between 1 and 1,000,000 processes.\n"]
  else readProcesses memory numProcesses 0 [] scan.rest

end Cosc240
