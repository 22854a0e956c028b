import Cosc240.Lib.Hundredths
import Cosc240.Lib.TextTools
import Cosc240.Properties.ExitStatus

/-!
# From the output of the simulator to an average

`output_averages` of `cosc240_a4.sh` (lines 241–258) looks for the average turnaround time in what a
run of the simulator has left in a file. It finds the average of a run that has succeeded, rounded
to two digits, and nothing in the output of any other run.

- `printed` and `report`: the text of what the program prints (simulator.c:198–217, 289–309,
  333–380). The scheduler does not print. The averages are exact rationals, rounded half to even,
  where the code computes a `double` and `printf` rounds that: the text is that of the exact
  average.
- `averageOf`: `val`, by `grep` and `cut`. `shown` is how an average stands in the file of the
  competition.
- `turnaround`: the average turnaround time of a scheduler on a schedule file, if `main` gets to
  `print_statistics`, and infinity otherwise.
- `grep_run` and `grep_statistics`: the table is passed over, and the statistics have one line with
  the pattern. No line of a refusal has it (`not_mem_main`).

Main results:

- `averageOf_report`: what the script finds in the output of a run is `shown` of its `turnaround`.
- `report_readBack`: so it finds the average, at most 1/200 away, if `run_simulation` has returned
  `TRUE`, and `NULL` for any other way in which the program ends.
-/

namespace Cosc240

open Lib

namespace Competition

/-- The text of what the program prints. The averages are rounded from exact numbers, half to
even, and not from a `double`. -/
def printed : Output → List Char
  | .text s => s.toList
  | .run lines => lines.flatMap fun line => line.text.toList
  | .statistics turnaround wait =>
    "Average turnaround time:".toList ++ '\t' :: format2f turnaround ++ '\n' ::
      ("Average wait time:".toList ++ '\t' :: format2f wait ++ ['\n'])

/-- All the program prints. -/
def report (e : Exit) : List Char := e.output.flatMap printed

/-- The pattern that `output_averages` looks for. -/
def averagePattern : List Char := "Average turnaround time:".toList

/-- `val` of `output_averages`, for the file of a schedule. -/
def averageOf (file : List Char) : List Char :=
  let val := substituted ((grep averagePattern file).map cutSecond)
  if val = [] then "NULL".toList else val

/-- The average turnaround time of a scheduler on a schedule file, if `main` gets to
`print_statistics`. -/
def turnaround (S : Scheduler) (memory : Memory) (file : List Char) : WithTop ℚ :=
  match Cosc240.main memory file with
  | .error _ => ⊤
  | .ok processes =>
    match runSimulation S processes (.ofNat timeout) with
    | some (true, s) => (calculateAverageTurnaroundTime s.processes : ℚ)
    | _ => ⊤

/-- How an average stands in the file of the competition. -/
def shown : WithTop ℚ → List Char
  | ⊤ => "NULL".toList
  | (q : ℚ) => format2f q

/-! ## What else is printed -/

theorem toList_toString (n : Nat) : (toString n).toList = Nat.toDigits 10 n := by
  rw [Nat.toString_eq_ofList_toDigits, String.toList_ofList]

theorem not_mem_toDigits {c : Char} (hc : c.isDigit = false) (n : Nat) :
    c ∉ Nat.toDigits 10 n := by
  intro hmem
  rw [Nat.isDigit_of_mem_toDigits (by decide) (by decide) hmem] at hc
  cases hc

/-- The characters of the lines that are not digits of a number. -/
def wording : List Char := "Time\tPID:-Invalid pid!Process scheduled for too long!".toList

/-- `%d` prints digits and the sign, which is in the wording. -/
theorem not_mem_formatD {c : Char} (hdigit : c.isDigit = false) (hc : c ∉ wording) (n : Nat) :
    c ∉ (formatD n).toList := by
  rw [formatD]
  split
  · rw [toList_toString]
    exact not_mem_toDigits hdigit n
  · rw [String.toList_append, toList_toString, List.mem_append, not_or]
    have hminus : "-".toList ⊆ wording := by decide
    exact ⟨fun hmem => hc (hminus hmem), not_mem_toDigits hdigit _⟩

/-- A line without its newline. -/
def body : Line → List Char
  | .header => "Time\tPID".toList
  | .step time pid =>
    (formatD time).toList ++ ":\t".toList ++ (if pid > 0 then formatD pid else "").toList
  | .invalidPid pid => "Invalid pid ".toList ++ (formatD pid).toList ++ "!".toList
  | .tooLong pid =>
    "Process ".toList ++ (formatD pid).toList ++ " scheduled for too long!".toList

theorem text_eq (line : Line) : line.text.toList = body line ++ ['\n'] := by
  cases line with
  | header => rfl
  | step time pid =>
    rw [Line.text, String.toList_append, String.toList_append, String.toList_append]
    rfl
  | invalidPid pid =>
    rw [Line.text, String.toList_append, String.toList_append]
    exact (List.append_assoc _ "!".toList ['\n']).symm
  | tooLong pid =>
    rw [Line.text, String.toList_append, String.toList_append]
    exact (List.append_assoc _ " scheduled for too long!".toList ['\n']).symm

/-- Nothing but digits and the wording is in a line. -/
theorem not_mem_body {c : Char} (hdigit : c.isDigit = false) (hc : c ∉ wording) (line : Line) :
    c ∉ body line := by
  have hfixed : ∀ text : List Char, text ⊆ wording → c ∉ text := fun _ h hmem => hc (h hmem)
  have hnumber := not_mem_formatD hdigit hc
  cases line with
  | header => exact hfixed "Time\tPID".toList (by decide)
  | step time pid =>
    have hpid : c ∉ (if pid > 0 then formatD pid else "").toList := by
      split
      · exact hnumber pid
      · exact List.not_mem_nil
    exact List.not_mem_append
      (List.not_mem_append (hnumber time) (hfixed ":\t".toList (by decide))) hpid
  | invalidPid pid =>
    exact List.not_mem_append
      (List.not_mem_append (hfixed "Invalid pid ".toList (by decide)) (hnumber pid))
      (hfixed "!".toList (by decide))
  | tooLong pid =>
    exact List.not_mem_append
      (List.not_mem_append (hfixed "Process ".toList (by decide)) (hnumber pid))
      (hfixed " scheduled for too long!".toList (by decide))

/-- What `grep` looks for has an `A` in it, which no line of a schedule has. -/
theorem mem_averagePattern : 'A' ∈ averagePattern := by decide

/-- The line with the average turnaround time comes first. -/
theorem printed_statistics (average wait : ℚ) :
    printed (.statistics average wait) = (averagePattern ++ '\t' :: format2f average) ++ '\n' ::
      ("Average wait time:".toList ++ '\t' :: format2f wait ++ ['\n']) := rfl

theorem printed_run_cons (line : Line) (lines : List Line) :
    printed (.run (line :: lines)) = line.text.toList ++ printed (.run lines) := rfl

/-- The table is passed over. -/
theorem grep_run (lines : List Line) (rest : List Char) :
    grep averagePattern (printed (.run lines) ++ rest) = grep averagePattern rest := by
  induction lines with
  | nil => rfl
  | cons line lines ih =>
    have hsplit : printed (.run (line :: lines)) ++ rest =
        body line ++ '\n' :: (printed (.run lines) ++ rest) := by
      rw [printed_run_cons, text_eq, List.append_assoc, List.append_assoc]
      rfl
    have hbody : 'A' ∉ body line := not_mem_body rfl (by decide) line
    rw [hsplit, grep_append, grep_eq_nil mem_averagePattern hbody, ih, List.nil_append]

/-- The statistics have one line with the pattern. -/
theorem grep_statistics (average wait : ℚ) :
    grep averagePattern (printed (.statistics average wait)) =
      [averagePattern ++ '\t' :: format2f average] := by
  have hnewline : ∀ q : ℚ, '\n' ∉ format2f q := by
    intro q hmem
    rcases mem_pointTwo hmem with h | h <;> cases h
  have hline : '\n' ∉ averagePattern ++ '\t' :: format2f average := by
    simp only [List.mem_append, List.mem_cons, not_or]
    exact ⟨by decide, by decide, hnewline average⟩
  -- the other line has no `u`
  have hwait : 'u' ∉ "Average wait time:".toList ++ '\t' :: format2f wait ++ ['\n'] := by
    simp only [List.mem_append, List.mem_cons, List.not_mem_nil, or_false, not_or]
    refine ⟨⟨by decide, by decide, ?_⟩, by decide⟩
    intro hmem
    rcases mem_pointTwo hmem with h | h <;> cases h
  rw [printed_statistics, grep_append, grep_line hline (List.prefix_append _ _).isInfix,
    grep_eq_nil (show 'u' ∈ averagePattern by decide) hwait]
  rfl

/-- Without that line, `output_averages` writes `NULL`. -/
theorem averageOf_of_grep_nil {file : List Char} (h : grep averagePattern file = []) :
    averageOf file = "NULL".toList := by
  rw [averageOf, h]
  rfl

/-- The average of a run that has succeeded. -/
theorem averageOf_statistics (lines : List Line) (average wait : ℚ) :
    averageOf (printed (.run lines) ++ printed (.statistics average wait)) = format2f average := by
  have hchars : ∀ c : Char, c.isDigit = false → c ≠ '.' → c ∉ format2f average := by
    intro c hc hpoint hmem
    rcases mem_pointTwo hmem with h | h
    · rw [h] at hc
      cases hc
    · exact hpoint h
  rw [averageOf, grep_run, grep_statistics, List.map_singleton,
    cut_two (by decide) (hchars '\t' rfl (by decide)),
    substituted_singleton (hchars '\n' rfl (by decide))]
  exact if_neg (pointTwo_ne_nil _)

/-! ## What is found -/

theorem not_mem_lineError {i : Nat} {explanation : List String}
    (h : ∀ text ∈ explanation, 'A' ∉ text.toList) :
    ∀ text ∈ lineError i explanation, 'A' ∉ text.toList := by
  intro text htext
  rcases List.mem_cons.mp htext with rfl | htext
  · rw [String.toList_append, String.toList_append, toList_toString, List.mem_append,
      List.mem_append, not_or, not_or]
    exact ⟨⟨by decide, not_mem_toDigits rfl _⟩, by decide⟩
  · exact h text htext

/-- Nor does a line of the input that is refused give one with the pattern. -/
theorem not_mem_readProcesses {memory : Memory} {k i : Nat} {processes : List ProcessStats}
    {file : List Char} {lines : List String}
    (h : readProcesses memory k i processes file = .error lines) :
    ∀ text ∈ lines, 'A' ∉ text.toList := by
  induction k generalizing i processes file with
  | zero => cases h
  | succ k ih =>
    rw [readProcesses] at h
    generalize readProcessInitial (memory.line i) file = read at h
    obtain ⟨initial, file'⟩ := read
    dsimp only at h
    split at h
    · cases h
      exact not_mem_lineError (by decide)
    split at h
    · cases h
      exact not_mem_lineError (by decide)
    split at h
    · cases h
      exact not_mem_lineError (by decide)
    split at h
    · cases h
      exact not_mem_lineError (by decide)
    split at h
    · cases h
      exact not_mem_lineError (by decide)
    · exact ih h

/-- No error that `main` reports has an `A` in it. -/
theorem not_mem_main {memory : Memory} {file : List Char} {lines : List String}
    (h : Cosc240.main memory file = .error lines) : ∀ text ∈ lines, 'A' ∉ text.toList := by
  rw [Cosc240.main] at h
  split at h
  · cases h
    decide
  split at h
  · cases h
    decide
  · exact not_mem_readProcesses h

theorem report_run (value : Int) (lines : List Line) :
    report ⟨value, [.run lines]⟩ = printed (.run lines) := List.append_nil _

/-- A run that has completed all processes prints the schedule, and then the averages. -/
theorem report_run_statistics (value : Int) (lines : List Line) (processes : List ProcessStats) :
    report ⟨value, [.run lines, printStatistics processes]⟩ =
      printed (.run lines) ++ printed (printStatistics processes) :=
  congrArg (_ ++ ·) (List.append_nil _)

/-- What the script finds in the output of a run. -/
theorem averageOf_report (S : Scheduler) (files : String → Option (List Char)) (memory : Memory)
    (cmd filename : String) (file : List Char) (e : Exit) (hfile : files filename = some file)
    (h : program (fun _ => S) files memory [cmd, filename] = some e) :
    averageOf (report e) = shown (turnaround S memory file) := by
  rw [program, arguments] at h
  dsimp only at h
  rw [hfile] at h
  dsimp only at h
  rw [turnaround]
  cases hmain : Cosc240.main memory file with
  | error lines =>
    rw [hmain] at h
    cases h
    refine averageOf_of_grep_nil (grep_eq_nil mem_averagePattern ?_)
    intro hmem
    obtain ⟨output, houtput, hmem⟩ := List.mem_flatMap.mp hmem
    obtain ⟨text, htext, rfl⟩ := List.mem_map.mp houtput
    exact not_mem_main hmain text htext hmem
  | ok processes =>
    rw [hmain] at h
    dsimp only at h ⊢
    cases hrun : runSimulation S processes (.ofNat timeout) with
    | none =>
      rw [hrun] at h
      cases h
    | some result =>
      obtain ⟨verdict, s⟩ := result
      rw [hrun] at h
      cases h
      cases verdict with
      | false =>
        refine averageOf_of_grep_nil ?_
        have hgrep := grep_run s.output []
        rw [List.append_nil] at hgrep
        exact (congrArg _ (report_run 0 s.output)).trans hgrep
      | true =>
        refine (congrArg _ (report_run_statistics 0 s.output s.processes)).trans ?_
        exact averageOf_statistics _ _ _

/-- An average is never negative, not even that of no processes. -/
theorem calculateAverageTurnaroundTime_nonneg (processes : List ProcessStats) :
    0 ≤ calculateAverageTurnaroundTime processes := by
  rw [calculateAverageTurnaroundTime]
  split
  · rw [foldl_average, zero_add]
    exact div_nonneg (Nat.cast_nonneg _) (Nat.cast_nonneg _)
  · exact le_refl 0

/-- **Round trip of an average.** Whatever the scheduler and the schedule file, `output_averages`
finds the average turnaround time of the run in what the simulator has printed, rounded to
the nearest hundredth, if `run_simulation` has returned `TRUE`; and for any other way in
which the program ends it finds nothing. Both the average and what is printed of it are exact,
where the program computes a `double` and `printf` rounds that. -/
theorem report_readBack (S : Scheduler) (files : String → Option (List Char)) (memory : Memory)
    (cmd filename : String) (file : List Char) (e : Exit) (hfile : files filename = some file)
    (h : program (fun _ => S) files memory [cmd, filename] = some e) :
    (∀ processes s, Cosc240.main memory file = .ok processes →
      runSimulation S processes (.ofNat timeout) = some (true, s) →
      ∃ n : Nat, averageOf (report e) = pointTwo n ∧
        |(n : ℚ) / 100 - calculateAverageTurnaroundTime s.processes| ≤ 1 / 200) ∧
    ((¬ ∃ processes s, Cosc240.main memory file = .ok processes ∧
      runSimulation S processes (.ofNat timeout) = some (true, s)) →
      averageOf (report e) = "NULL".toList) := by
  have hreport := averageOf_report S files memory cmd filename file e hfile h
  rw [turnaround] at hreport
  constructor
  · intro processes s hmain hrun
    rw [hmain] at hreport
    dsimp only at hreport
    rw [hrun] at hreport
    exact ⟨_, hreport, abs_hundredths_sub_le (calculateAverageTurnaroundTime_nonneg _)⟩
  · intro hfails
    rw [hreport]
    cases hmain : Cosc240.main memory file with
    | error lines => rfl
    | ok processes =>
      dsimp only
      cases hrun : runSimulation S processes (.ofNat timeout) with
      | none => rfl
      | some result =>
        obtain ⟨verdict, s⟩ := result
        cases verdict with
        | false => rfl
        | true => exact absurd ⟨processes, s, hmain, hrun⟩ hfails

/-- A file with one process, that needs two units of time. -/
def onlyProcess : List Char := "1\n1,0,2\n".toList

theorem main_onlyProcess :
    Cosc240.main ⟨0, fun _ => []⟩ onlyProcess = .ok [⟨⟨1, 2, 0⟩, 0, 0⟩] := rfl

theorem runSimulation_onlyProcess :
    runSimulation Fcfs.scheduler [⟨⟨1, 2, 0⟩, 0, 0⟩] (.ofNat timeout) =
      some (true, ⟨[⟨⟨1, 2, 0⟩, 2, 1⟩], [], [.header, .step 0 1, .step 1 1]⟩) := rfl

theorem program_onlyProcess :
    program (fun _ => Fcfs.scheduler) (fun _ => some onlyProcess) ⟨0, fun _ => []⟩
      ["./simulator", "spec_schedule"] =
      some ⟨0, [.run [.header, .step 0 1, .step 1 1],
        printStatistics [⟨⟨1, 2, 0⟩, 2, 1⟩]]⟩ := by
  rw [program_of_run (T := ⟨[⟨1, 2, 0⟩], by decide, by decide, by decide, by decide, by decide,
    by decide, by decide⟩) rfl rfl main_onlyProcess]
  exact congrArg _ runSimulation_onlyProcess

/-- One process of two units, on `fcfs.c`. -/
theorem report_readBack_onlyProcess :
    ∃ n : Nat, averageOf (report ⟨0, [.run [.header, .step 0 1, .step 1 1],
        printStatistics [⟨⟨1, 2, 0⟩, 2, 1⟩]]⟩) = pointTwo n ∧
      |(n : ℚ) / 100 - calculateAverageTurnaroundTime [⟨⟨1, 2, 0⟩, 2, 1⟩]| ≤ 1 / 200 := by
  have hread := report_readBack Fcfs.scheduler (fun _ => some onlyProcess) ⟨0, fun _ => []⟩
    "./simulator" "spec_schedule" onlyProcess _ rfl program_onlyProcess
  obtain ⟨n, hn, hle⟩ := hread.1 _ _ main_onlyProcess runSimulation_onlyProcess
  exact ⟨n, hn, hle⟩

end Competition

end Cosc240
