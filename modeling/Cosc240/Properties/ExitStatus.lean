import Cosc240.Input.Accept
import Cosc240.Properties.Statistics
import Cosc240.Schedulers.Fcfs
import Cosc240.Simulator.Alone
import Cosc240.Simulator.Returned

/-!
# The exit status of the simulator

The whole of `main` (simulator.c:316–394). Each way to refuse the input returns a status of its own,
but behind `run_simulation` there is no `return`: control reaches the end of `main`, and
the status is 0 whatever the verdict was. The scripts of the competition take the
status for the verdict (cosc240_a4.sh:89–105).

- `Output`, `Exit`: what the program prints, and the value that `main` returns. `Exit.status` is
  what the parent sees of it, one byte.
- `usage`, `arguments`, `printStatistics` (simulator.c:289–309, 317–328): the pieces of `main` that
  are not in `Input.Read`.
- `program`: `main`, linked with a `scheduler.c` that may look at `debug`. There is no result if the
  behaviour is undefined.
- `StatusLaw`: the program exits, and its status is 0 if and only if `run_simulation` has returned
  `TRUE` and the statistics have been printed.
- `ServesInput`: no file is read, or it is not in the format, or the scheduler serves its table. It
  is stated without a run of the simulator, by `Describes` and `Serves`.

Main results:

- `statusLaw_iff`: the law holds exactly if `ServesInput` does.
- `not_statusLaw_overtime`: the simulator with `fcfs.c` runs out of time on two long processes, and
  exits with status 0.
-/

namespace Cosc240

/-! ## The program -/

/-- What the program prints. -/
inductive Output where
  | text (s : String)
  | run (lines : List Line)
  /-- The two averages, before they are rounded to two digits. -/
  | statistics (averageTurnaroundTime averageWaitTime : ℚ)

/-- The value that `main` returns, and the output. -/
structure Exit where
  value : Int
  output : List Output

/-- The exit status that the parent sees. -/
def Exit.status (e : Exit) : Nat := (e.value % 256).toNat

/-- `usage`. -/
def usage (cmd error : String) : List Output :=
  [.text s!"Error: {error}\n\n", .text s!"Usage: {cmd} [-d] FILE\n", .text "Where:\n",
    .text "\t-d\tspecifies that the simulator should execute in debug mode\n",
    .text "\tFILE\tis the name of the file to read processes from\n"]

/-- The check of the arguments: whether `debug` is set, and `filename`. -/
def arguments (argv : List String) : Option (Bool × String) :=
  match argv with
  | [_, filename] => some (false, filename)
  | [_, option, filename] => if option = "-d" then some (true, filename) else none
  | _ => none

/-- `print_statistics`. -/
def printStatistics (processes : List ProcessStats) : Output :=
  .statistics (calculateAverageTurnaroundTime processes) (calculateAverageWaitTime processes)

/-- `main`, linked with a `scheduler.c` that may look at `debug`. The files are given
by what `fopen` finds under a name; there is no result if the behaviour is undefined. -/
def program (S : Bool → Scheduler) (files : String → Option (List Char)) (memory : Memory)
    (argv : List String) : Option Exit :=
  match arguments argv with
  | none => some ⟨-1, usage (argv.headD "(null)") "Invalid command line arguments"⟩
  | some (debug, filename) =>
    match files filename with
    | none => some ⟨1, [.text s!"Unable to read {filename}!\n"]⟩
    | some file =>
      match main memory file with
      | .error lines => some ⟨1, lines.map .text⟩
      | .ok processes =>
        match runSimulation (S debug) processes (.ofNat timeout) with
        | none => none
        | some (verdict, s) =>
          -- the end of `main`, with or without the statistics
          some ⟨0, .run s.output :: if verdict then [printStatistics s.processes] else []⟩

/-! ## The statement -/

section Law

variable (S : Bool → Scheduler) (files : String → Option (List Char)) (memory : Memory)
  (argv : List String)

/-- `run_simulation` is called, and returns `TRUE`. -/
def Succeeds : Prop :=
  ∃ debug filename file processes s, arguments argv = some (debug, filename) ∧
    files filename = some file ∧ main memory file = .ok processes ∧
    runSimulation (S debug) processes (.ofNat timeout) = some (true, s)

/-- The program exits, and the status is 0 if and only if `run_simulation` has returned
`TRUE` and the statistics have been printed. -/
def StatusLaw : Prop :=
  ∃ e, program S files memory argv = some e ∧
    (e.status = 0 ↔ Succeeds S files memory argv ∧
      ∃ turnaround wait, .statistics turnaround wait ∈ e.output)

/-- The file describes the processes of the table, in the format that `main` accepts. -/
def Describes (memory : Memory) (file : List Char) (T : Table) : Prop :=
  ∃ body lines, Reading memory file body lines ∧ T.processes = lines.map ProcessLine.initial

/-- No file is read, or it is not in the format, or the scheduler serves its table. -/
def ServesInput : Prop :=
  ∀ debug filename file T, arguments argv = some (debug, filename) →
    files filename = some file → Describes memory file T → Serves (S debug) T (.ofNat timeout)

end Law

/-! ## When the law holds -/

theorem main_eq_start_iff {memory : Memory} {file : List Char} {T : Table} :
    main memory file = .ok T.start ↔ Describes memory file T := by
  have hstats : ∀ lines : List ProcessLine,
      T.start = lines.map ProcessLine.stats ↔ T.processes = lines.map ProcessLine.initial := by
    intro lines
    constructor
    · intro h
      have hinitial := congrArg (List.map ProcessStats.initial) h
      simpa [Table.start, ProcessLine.stats, Function.comp_def] using hinitial
    · intro h
      rw [Table.start, h, List.map_map]
      rfl
  rw [main_ok_iff]
  constructor
  · rintro ⟨body, lines, hreading, h⟩
    exact ⟨body, lines, hreading, (hstats lines).mp h⟩
  · rintro ⟨body, lines, hreading, h⟩
    exact ⟨body, lines, hreading, (hstats lines).mpr h⟩

variable {S : Bool → Scheduler} {files : String → Option (List Char)} {memory : Memory}
  {argv : List String}

/-- A run that has been started leaves the status 0. -/
theorem program_of_run {debug : Bool} {filename : String} {file : List Char} {T : Table}
    (hargs : arguments argv = some (debug, filename)) (hfile : files filename = some file)
    (hmain : main memory file = .ok T.start) :
    program S files memory argv =
      (runSimulation (S debug) T.start (.ofNat timeout)).map fun (verdict, s) =>
        ⟨0, .run s.output :: if verdict then [printStatistics s.processes] else []⟩ := by
  simp only [program, hargs, hfile, hmain]
  cases runSimulation (S debug) T.start (.ofNat timeout) <;> rfl

theorem succeeds_iff {debug : Bool} {filename : String} {file : List Char} {T : Table}
    (hargs : arguments argv = some (debug, filename)) (hfile : files filename = some file)
    (hmain : main memory file = .ok T.start) :
    Succeeds S files memory argv ↔
      ∃ s, runSimulation (S debug) T.start (.ofNat timeout) = some (true, s) := by
  constructor
  · rintro ⟨debug', filename', file', processes, s, hargs', hfile', hmain', hrun⟩
    cases hargs.symm.trans hargs'
    cases hfile.symm.trans hfile'
    cases hmain.symm.trans hmain'
    exact ⟨s, hrun⟩
  · rintro ⟨s, hrun⟩
    exact ⟨debug, filename, file, T.start, s, hargs, hfile, hmain, hrun⟩

theorem serves_of_statusLaw {debug : Bool} {filename : String} {file : List Char} {T : Table}
    (hargs : arguments argv = some (debug, filename)) (hfile : files filename = some file)
    (hmain : main memory file = .ok T.start) (h : StatusLaw S files memory argv) :
    Serves (S debug) T (.ofNat timeout) := by
  obtain ⟨e, hexit, hstatus, -⟩ := h
  rw [program_of_run hargs hfile hmain] at hexit
  obtain ⟨⟨verdict, s⟩, -, rfl⟩ := Option.map_eq_some_iff.mp hexit
  -- the status of a run is 0 in any case, so that the run must have succeeded
  obtain ⟨hsucceeds, -⟩ := hstatus rfl
  exact (runSimulation_eq_true_iff _ T _).mp ((succeeds_iff hargs hfile hmain).mp hsucceeds)

theorem statusLaw_of_serves {debug : Bool} {filename : String} {file : List Char} {T : Table}
    (hargs : arguments argv = some (debug, filename)) (hfile : files filename = some file)
    (hmain : main memory file = .ok T.start) (h : Serves (S debug) T (.ofNat timeout)) :
    StatusLaw S files memory argv := by
  obtain ⟨s, hrun⟩ := (runSimulation_eq_true_iff _ T _).mpr h
  refine ⟨_, (program_of_run hargs hfile hmain).trans (congrArg _ hrun), ?_, ?_⟩
  · intro _
    exact ⟨(succeeds_iff hargs hfile hmain).mpr ⟨s, hrun⟩, _, _,
      List.mem_cons_of_mem _ List.mem_cons_self⟩
  · intro _
    rfl

/-- An input that is refused has a status of its own. -/
theorem program_of_refused
    (h : ∀ debug filename file processes, arguments argv = some (debug, filename) →
      files filename = some file → main memory file ≠ .ok processes) :
    ∃ value output, program S files memory argv = some ⟨value, output⟩ ∧
      (value % 256).toNat ≠ 0 := by
  cases hargs : arguments argv with
  | none => exact ⟨-1, _, by rw [program, hargs], by decide⟩
  | some result =>
    obtain ⟨debug, filename⟩ := result
    cases hfile : files filename with
    | none => exact ⟨1, _, by simp only [program, hargs, hfile]; rfl, by decide⟩
    | some file =>
      cases hmain : main memory file with
      | error lines => exact ⟨1, _, by simp only [program, hargs, hfile, hmain]; rfl, by decide⟩
      | ok processes => exact absurd hmain (h debug filename file processes hargs hfile)

theorem statusLaw_of_refused
    (h : ∀ debug filename file processes, arguments argv = some (debug, filename) →
      files filename = some file → main memory file ≠ .ok processes) :
    StatusLaw S files memory argv := by
  obtain ⟨value, output, hexit, hvalue⟩ := program_of_refused h
  refine ⟨_, hexit, fun hstatus => absurd hstatus hvalue, ?_⟩
  rintro ⟨⟨debug, filename, file, processes, s, hargs, hfile, hmain, -⟩, -⟩
  exact absurd hmain (h debug filename file processes hargs hfile)

/-- **When the status is right.** -/
theorem statusLaw_iff (S : Bool → Scheduler) (files : String → Option (List Char))
    (memory : Memory) (argv : List String) :
    StatusLaw S files memory argv ↔ ServesInput S files memory argv := by
  constructor
  · intro hlaw debug filename file T hargs hfile hdescribes
    exact serves_of_statusLaw hargs hfile (main_eq_start_iff.mpr hdescribes) hlaw
  · intro hserves
    by_cases hrefused : ∀ debug filename file processes,
        arguments argv = some (debug, filename) → files filename = some file →
          main memory file ≠ .ok processes
    · exact statusLaw_of_refused hrefused
    · simp only [not_forall, not_not] at hrefused
      obtain ⟨debug, filename, file, processes, hargs, hfile, hmain⟩ := hrefused
      obtain ⟨T, rfl, -⟩ := exists_table_of_main hmain
      have hT := hserves debug filename file T hargs hfile (main_eq_start_iff.mp hmain)
      exact statusLaw_of_serves hargs hfile hmain hT

/-- More work than there are time steps. -/
def overtime : Table where
  processes := [⟨1, 999999, 0⟩, ⟨2, 999999, 0⟩]
  nonempty := by decide
  pids_nodup := by decide
  pid_pos := by decide
  pid_lt := by decide
  arrivalTime_lt := by decide
  processingTime_pos := by decide
  processingTime_lt := by decide

/-- The simulator with `fcfs.c` runs out of time on two long processes and exits with
status 0. -/
theorem not_statusLaw_overtime :
    ¬ StatusLaw (fun _ => Fcfs.scheduler)
      (fun _ => some "2\n1,0,999999\n2,0,999999\n".toList) ⟨0, fun _ => []⟩
      ["simulator", "schedule.txt"] := by
  have hargs : arguments ["simulator", "schedule.txt"] = some (false, "schedule.txt") := rfl
  have hmain : main ⟨0, fun _ => []⟩ "2\n1,0,999999\n2,0,999999\n".toList =
      .ok overtime.start := rfl
  obtain ⟨σ, s, hrun, -⟩ := Fcfs.books.runSimulation_makespan overtime (.ofNat timeout)
  rw [decide_eq_false (by decide)] at hrun
  rintro ⟨e, hexit, hstatus, -⟩
  rw [program_of_run hargs rfl hmain, hrun] at hexit
  cases hexit
  obtain ⟨s', hrun'⟩ := (succeeds_iff hargs rfl hmain).mp (hstatus rfl).1
  rw [hrun] at hrun'
  cases hrun'

end Cosc240
