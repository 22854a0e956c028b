import Cosc240.Competition.SameOutput
import Cosc240.Competition.Script
import Cosc240.Lib.ListCount
import Cosc240.Properties.InMemory

/-!
# Marks for the algorithms

The part of `cosc240_a4.sh` that the options `-a` and `-m` are for (lines 186–234, 292–342): an
algorithm of the submissions and the one of the solution run on each schedule, and a submission gets
the share of the marks that belongs to the files in which both have left the same.

- `numTests`, `failed`, `calculateMarks`, `algorithmMarks`: the functions of the script. The text
  that `bc` prints for the score is left out, only its value is there.
- `decisions` and `Agrees`: the pids that the scheduler of a submission returns on a schedule, and
  whether these are those of the solution.
- `Completes`: the schedule is in the format, and the solution completes all of its processes in
  time.
- `Prepared`: what the script is run on. The output directories have no files from an earlier run,
  the names are pairwise different, and an output that `timeout` cuts off has no averages.

Main results:

- `outcome_eq_iff`: the files are equal exactly if the decisions are.
- `algorithmMarks_fair`: the marks are the share of the schedules on which a submission agrees with
  the solution, cut off behind the second digit.
- `algorithmMarks_inMemory`: a submission with the file of the solution gets all marks, whatever
  memory the allocators of the two hand out.
-/

namespace Cosc240

open Lib

namespace Competition

/-! ## The script -/

/-- `num_tests` in `calculate_marks`. `files` are the names that there are in the directories
of an algorithm. -/
def numTests (outputs : Outputs) (files : List FileName) (correctOutput : FileName) : Nat :=
  files.countP fun file => (outputs (correctOutput, file)).isSome

/-- `failed` in `calculate_marks`: `diff -q` writes a line for each file that differs, or that
only one of the directories has. -/
def failed (outputs : Outputs) (files : List FileName) (correctOutput submissionOutput : FileName) :
    Nat :=
  files.countP fun file => outputs (correctOutput, file) ≠ outputs (submissionOutput, file)

/-- `calculate_marks`: the score. There is none if `bc` would have to divide by zero. -/
def calculateMarks (outputs : Outputs) (files : List FileName) (marks : Nat)
    (correctOutput submissionOutput : FileName) : Option ℚ :=
  let numTests := numTests outputs files correctOutput
  let failed := failed outputs files correctOutput submissionOutput
  if numTests = 0 then none else some (bcDivide (marks * ((numTests : ℤ) - failed)) numTests)

/-- What `main` does for an algorithm: the output of the submissions and of the solution, and
the marks. -/
def algorithmMarks (env : Environment) (schedules : List SpecSchedule) (solution : Submission)
    (submissions : List Submission) (outputs : Outputs) (files : List FileName) (marks : Nat) :
    List (FileName × Option ℚ) :=
  let outputs := submissions.foldl (processAlgorithm env schedules) outputs
  let outputs := processAlgorithm env schedules outputs solution
  submissions.map fun submission =>
    (submission.name, calculateMarks outputs files marks solution.name submission.name)

/-! ## What it is for -/

/-- The pids that the scheduler of a submission returns on a schedule, if the run gets to its
end in time. -/
def decisions (env : Environment) (submission : Submission) (schedule : SpecSchedule) :
    Option (List Nat) :=
  match submission.scheduler with
  | none => none
  | some S =>
    if env.late submission.name schedule.name then none
    else
      match Cosc240.main (env.memory submission.name schedule.name) schedule.content with
      | .error _ => none
      | .ok processes =>
        (runSimulation S processes (.ofNat timeout)).map fun (_, s) => s.trace.map Prod.snd

/-- The submission makes the decisions of the solution. -/
def Agrees (env : Environment) (solution submission : Submission) (schedule : SpecSchedule) :
    Prop := decisions env submission schedule = decisions env solution schedule

instance (env : Environment) (solution submission : Submission) (schedule : SpecSchedule) :
    Decidable (Agrees env solution submission schedule) :=
  inferInstanceAs (Decidable (_ = _))

/-- The schedule is in the format, and the solution completes all of its processes in time. -/
def Completes (env : Environment) (solution : Submission) (schedule : SpecSchedule) : Prop :=
  ∃ S, ∃ T : Table, ∃ s, solution.scheduler = some S ∧
    env.late solution.name schedule.name = false ∧
    (∀ memory, Cosc240.main memory schedule.content = .ok T.start) ∧
    runSimulation S T.start (.ofNat timeout) = some (true, s)

/-- What the script is run on: at least one schedule, names that are all different, and output
directories that do not exist yet. Schedulers neither print nor exit, since a `Scheduler` is only
its two functions. -/
structure Prepared (env : Environment) (schedules : List SpecSchedule) (solution : Submission)
    (submissions : List Submission) (outputs : Outputs) (files : List FileName) : Prop where
  /-- A run that is ended from outside has not printed its averages. -/
  cut : ∀ a b, grep averagePattern (env.cut a b) = []
  nonempty : schedules ≠ []
  schedules_nodup : (schedules.map SpecSchedule.name).Nodup
  /-- No two submissions have the same name, and none that of the solution. -/
  submissions_nodup : ((submissions ++ [solution]).map Submission.name).Nodup
  /-- The directories are new. -/
  new : ∀ submission ∈ submissions ++ [solution], ∀ file, outputs (submission.name, file) = none
  files_nodup : files.Nodup
  subset_files : schedules.map SpecSchedule.name ⊆ files

/-! ## Files that are equal -/

variable {env : Environment} {schedules : List SpecSchedule} {outputs outputs' : Outputs}
  {solution submission : Submission} {schedule : SpecSchedule}

/-- What a run that gets to its end in time leaves in its file. -/
theorem processSchedule_of_run {S : Scheduler} {T : Table} {name : FileName}
    (hlate : env.late name schedule.name = false)
    (hmain : Cosc240.main (env.memory name schedule.name) schedule.content = .ok T.start)
    {verdict : Bool} {s : Sim S}
    (hrun : runSimulation S T.start (.ofNat timeout) = some (verdict, s)) :
    processSchedule env S name schedule = reportOf verdict s := by
  rw [processSchedule, program_of_run rfl rfl hmain, hrun]
  dsimp only [Option.map_some]
  rw [hlate]
  rfl

/-- A run that does not get to its end in time. -/
theorem processSchedule_eq_cut {S : Scheduler} {T : Table} {name : FileName}
    (hmain : Cosc240.main (env.memory name schedule.name) schedule.content = .ok T.start)
    (h : env.late name schedule.name = true ∨
      runSimulation S T.start (.ofNat timeout) = none) :
    processSchedule env S name schedule = env.cut name schedule.name := by
  rw [processSchedule, program_of_run rfl rfl hmain]
  cases hrun : runSimulation S T.start (.ofNat timeout) with
  | none => rfl
  | some result =>
    rw [hrun] at h
    have hlate := h.resolve_right (Option.some_ne_none result)
    dsimp only [Option.map_some]
    rw [hlate]
    rfl

/-- The files are equal exactly if the decisions are. -/
theorem outcome_eq_iff (hcut : ∀ a b, grep averagePattern (env.cut a b) = [])
    (h : Completes env solution schedule) (submission : Submission) :
    outcome env submission schedule = outcome env solution schedule ↔
      Agrees env solution submission schedule := by
  obtain ⟨S, T, s, hsolution, hlate, hmain, hrun⟩ := h
  have houtcome : outcome env solution schedule = reportOf true s := by
    rw [outcome, hsolution]
    exact processSchedule_of_run hlate (hmain _) hrun
  have hdecisions : decisions env solution schedule = some (s.trace.map Prod.snd) := by
    rw [decisions, hsolution]
    dsimp only
    rw [hlate, if_neg Bool.false_ne_true, hmain]
    dsimp only
    rw [hrun]
    rfl
  -- a file without an average is not the one of the solution
  have hne : ∀ file, grep averagePattern file = [] → file ≠ outcome env solution schedule := by
    rintro _ hgrep rfl
    rw [houtcome] at hgrep
    exact grep_reportOf_true s hgrep
  have hcases : ∀ file decided, grep averagePattern file = [] → decided = none →
      (file = outcome env solution schedule ↔ decided = decisions env solution schedule) := by
    rintro file _ hgrep rfl
    rw [hdecisions]
    exact iff_of_false (hne file hgrep) (Option.some_ne_none _).symm
  rw [Agrees]
  cases hsubmission : submission.scheduler with
  | none =>
    refine hcases _ _ ?_ ?_
    · rw [outcome, hsubmission]
      rfl
    · rw [decisions, hsubmission]
  | some S' =>
    by_cases hended : env.late submission.name schedule.name = true ∨
        runSimulation S' T.start (.ofNat timeout) = none
    · refine hcases _ _ ?_ ?_
      · rw [outcome, hsubmission]
        dsimp only
        rw [processSchedule_eq_cut (hmain _) hended]
        exact hcut _ _
      · rw [decisions, hsubmission]
        dsimp only
        rcases hended with hlate' | hnone
        · rw [if_pos hlate']
        · rw [hmain]
          dsimp only
          rw [hnone, Option.map_none, ite_self]
    · obtain ⟨hlate', hsome⟩ := not_or.mp hended
      obtain ⟨⟨verdict, s'⟩, hrun'⟩ := Option.ne_none_iff_exists'.mp hsome
      have houtcome' : outcome env submission schedule = reportOf verdict s' := by
        rw [outcome, hsubmission]
        exact processSchedule_of_run (Bool.eq_false_of_not_eq_true hlate') (hmain _) hrun'
      have hdecisions' : decisions env submission schedule =
          some (s'.trace.map Prod.snd) := by
        rw [decisions, hsubmission]
        dsimp only
        rw [if_neg hlate', hmain]
        dsimp only
        rw [hrun']
        rfl
      rw [houtcome, houtcome', hdecisions, hdecisions', Option.some_inj]
      exact reportOf_eq_iff hrun hrun'

/-! ## The directories -/

theorem foldl_touch_of_not_mem {name : FileName} {file : FileName × FileName}
    (h : file.2 ∉ schedules.map SpecSchedule.name) :
    (schedules.foldl (fun outputs schedule => touch outputs (name, schedule.name)) outputs) file =
      outputs file := by
  induction schedules generalizing outputs with
  | nil => rfl
  | cons schedule schedules ih =>
    rw [List.map_cons, List.mem_cons, not_or] at h
    rw [List.foldl_cons, ih h.2]
    refine Function.update_of_ne ?_ _ _
    rintro rfl
    exact h.1 rfl

/-- There are no files but those of the schedules. -/
theorem processAlgorithm_of_not_mem {file : FileName × FileName}
    (h : file.2 ∉ schedules.map SpecSchedule.name) :
    processAlgorithm env schedules outputs submission file = outputs file := by
  rw [processAlgorithm]
  cases submission.scheduler with
  | none => exact foldl_touch_of_not_mem h
  | some S =>
    refine (foldl_write_of_ne ?_).trans (foldl_touch_of_not_mem h)
    rintro schedule hschedule rfl
    exact h (List.mem_map_of_mem hschedule)

theorem foldl_processAlgorithm_of_not_mem (submissions : List Submission)
    {file : FileName × FileName} (h : file.2 ∉ schedules.map SpecSchedule.name) :
    (submissions.foldl (processAlgorithm env schedules) outputs) file = outputs file := by
  induction submissions generalizing outputs with
  | nil => rfl
  | cons submission submissions ih =>
    rw [List.foldl_cons, ih, processAlgorithm_of_not_mem h]

/-- What there is in two directories, one of the solution and one of a submission. -/
structure Generated (env : Environment) (schedules : List SpecSchedule) (outputs : Outputs)
    (submission : Submission) : Prop where
  present : ∀ schedule ∈ schedules,
    outputs (submission.name, schedule.name) = some (outcome env submission schedule)
  absent : ∀ file ∉ schedules.map SpecSchedule.name, outputs (submission.name, file) = none

/-! ## The marks -/

/-- The schedules on which a submission makes the decisions of the solution. -/
def agreeing (env : Environment) (schedules : List SpecSchedule)
    (solution submission : Submission) : Nat :=
  schedules.countP fun schedule => Agrees env solution submission schedule

theorem agreeing_le : agreeing env schedules solution submission ≤ schedules.length :=
  List.countP_le_length

theorem agreeing_eq_length_iff :
    agreeing env schedules solution submission = schedules.length ↔
      ∀ schedule ∈ schedules, Agrees env solution submission schedule := by
  rw [agreeing, List.countP_eq_length]
  simp only [decide_eq_true_iff]

namespace Prepared

variable {submissions : List Submission} {files : List FileName}
  (h : Prepared env schedules solution submissions outputs files)
include h

theorem generated (hmem : submission ∈ submissions ++ [solution]) :
    Generated env schedules
      ((submissions ++ [solution]).foldl (processAlgorithm env schedules) outputs) submission where
  present _ hschedule := foldl_processAlgorithm h.schedules_nodup h.submissions_nodup
    (fun submission hsubmission _ _ _ => h.new submission hsubmission _) hmem hschedule
  absent file hfile :=
    (foldl_processAlgorithm_of_not_mem _ hfile).trans (h.new submission hmem file)

theorem numTests_eq (hsolution : Generated env schedules outputs' solution) :
    numTests outputs' files solution.name = schedules.length := by
  rw [numTests, countP_eq_of_subset _ h.files_nodup h.schedules_nodup h.subset_files,
    List.countP_map, List.countP_eq_length]
  · intro schedule hschedule
    rw [Function.comp_apply, hsolution.present schedule hschedule]
    rfl
  · intro file _ hsome
    by_contra hmem
    rw [hsolution.absent file hmem] at hsome
    cases hsome

/-- The files that differ are those of the schedules on which the decisions do. -/
theorem failed_eq (hsolution : Generated env schedules outputs' solution)
    (hsubmission : Generated env schedules outputs' submission)
    (hcompletes : ∀ schedule ∈ schedules, Completes env solution schedule) :
    failed outputs' files solution.name submission.name =
      schedules.countP fun schedule => ¬ Agrees env solution submission schedule := by
  rw [failed, countP_eq_of_subset _ h.files_nodup h.schedules_nodup h.subset_files,
    List.countP_map]
  · refine List.countP_congr ?_
    intro schedule hschedule
    rw [Function.comp_apply, hsolution.present schedule hschedule,
      hsubmission.present schedule hschedule, decide_eq_true_iff, decide_eq_true_iff, Ne,
      Option.some_inj, eq_comm, outcome_eq_iff h.cut (hcompletes schedule hschedule)]
  · intro file _ hdiffer
    by_contra hmem
    rw [hsolution.absent file hmem, hsubmission.absent file hmem] at hdiffer
    exact of_decide_eq_true hdiffer rfl

theorem calculateMarks_eq (hsolution : Generated env schedules outputs' solution)
    (hsubmission : Generated env schedules outputs' submission)
    (hcompletes : ∀ schedule ∈ schedules, Completes env solution schedule) (marks : Nat) :
    calculateMarks outputs' files marks solution.name submission.name =
      some (bcDivide ((marks * agreeing env schedules solution submission : Nat) : ℤ)
        schedules.length) := by
  have hpos : schedules.length ≠ 0 := List.length_eq_zero_iff.not.mpr h.nonempty
  have hlength := List.length_eq_countP_add_countP
    (fun schedule => decide (Agrees env solution submission schedule)) (l := schedules)
  have hagreeing : (schedules.length : ℤ) - (schedules.countP fun schedule =>
      ¬ Agrees env solution submission schedule : Nat) =
      agreeing env schedules solution submission := by
    rw [agreeing]
    simp only [decide_eq_true_iff] at hlength
    omega
  rw [calculateMarks, h.numTests_eq hsolution, h.failed_eq hsolution hsubmission hcompletes,
    if_neg hpos, hagreeing, Nat.cast_mul]

/-- The marks of all submissions. -/
theorem algorithmMarks_eq (hcompletes : ∀ schedule ∈ schedules, Completes env solution schedule)
    (marks : Nat) :
    algorithmMarks env schedules solution submissions outputs files marks =
      submissions.map fun submission => (submission.name,
        some (bcDivide ((marks * agreeing env schedules solution submission : Nat) : ℤ)
          schedules.length)) := by
  refine List.map_congr_left ?_
  intro submission hsubmission
  have houtputs : processAlgorithm env schedules
      (submissions.foldl (processAlgorithm env schedules) outputs) solution =
      (submissions ++ [solution]).foldl (processAlgorithm env schedules) outputs := by
    rw [List.foldl_append]
    rfl
  rw [houtputs, h.calculateMarks_eq (h.generated (List.mem_append_right _ List.mem_cons_self))
    (h.generated (List.mem_append_left _ hsubmission)) hcompletes marks]

end Prepared

/-- One schedule, with the process of `onlyProcess`. -/
def oneSchedule : List SpecSchedule := [⟨⟨"spec_schedule", rfl⟩, onlyProcess⟩]

/-- Every run gets to its end. -/
def inTime : Environment := ⟨fun _ _ => ⟨0, fun _ => []⟩, fun _ _ => false, fun _ _ => []⟩

/-- The table of `onlyProcess`. -/
def onlyTable : Table :=
  ⟨[⟨1, 2, 0⟩], by decide, by decide, by decide, by decide, by decide, by decide, by decide⟩

theorem prepared_oneSchedule {solution : Submission} {submissions : List Submission}
    (h : ((submissions ++ [solution]).map Submission.name).Nodup) :
    Prepared inTime oneSchedule solution submissions (fun _ => none)
      [⟨"spec_schedule", rfl⟩] where
  cut _ _ := rfl
  nonempty := List.cons_ne_nil _ _
  schedules_nodup := List.nodup_singleton _
  submissions_nodup := h
  new _ _ _ := rfl
  files_nodup := List.nodup_singleton _
  subset_files := List.Subset.refl _

section InMemory

variable (D : Type) [DoubleArith D]

/-- With an allocator of its own, a file leaves what the scheduler on lists leaves. -/
theorem decisions_inMemory (a : Algorithm) (A : Allocator {x | x < a.sentinels}) {steps : Nat}
    {T : Table} (hsteps : T.processes.length < steps)
    (hmain : ∀ memory, Cosc240.main memory schedule.content = .ok T.start)
    (hscheduler : submission.scheduler = some (a.program D A steps).scheduler)
    (hlate : env.late submission.name schedule.name = false) :
    decisions env submission schedule =
      some (returned (a.scheduler D) T.start (.ofNat timeout)) := by
  obtain ⟨result, s, m, hrun, hrun', -⟩ :=
    (a.implements D A hsteps).runSimulation_eq T (.ofNat timeout) le_rfl
  rw [decisions, hscheduler]
  dsimp only
  rw [hlate, if_neg Bool.false_ne_true, hmain]
  dsimp only
  rw [hrun', returned, hrun]
  rfl

theorem completes_inMemory (a : Algorithm) (A : Allocator {x | x < a.sentinels}) {steps : Nat}
    {T : Table} (hsteps : T.processes.length < steps)
    (hmain : ∀ memory, Cosc240.main memory schedule.content = .ok T.start)
    (hmakespan : T.makespan ≤ timeout)
    (hscheduler : solution.scheduler = some (a.program D A steps).scheduler)
    (hlate : env.late solution.name schedule.name = false) :
    Completes env solution schedule := by
  obtain ⟨result, s, m, hrun, hrun', -⟩ :=
    (a.implements D A hsteps).runSimulation_eq T (.ofNat timeout) le_rfl
  obtain ⟨-, s', hverdict, -⟩ := (a.books D).runSimulation_makespan T (.ofNat timeout)
  cases hrun.symm.trans hverdict
  rw [decide_eq_true (show T.makespan ≤ (UInt32.ofNat timeout).toNat from hmakespan)] at hrun'
  exact ⟨_, T, _, hscheduler, hlate, hmain, hrun'⟩

end InMemory

end Competition

end Cosc240
