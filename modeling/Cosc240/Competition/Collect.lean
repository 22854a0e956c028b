import Cosc240.Competition.Script

/-!
# Collecting schedules

With the option `-k`, `cosc240_a4.sh` (lines 127–180) copies the schedules of the submissions into
one directory: those that the simulator with the `fcfs.c` of the solution reads as a table without
being ended by `timeout`, and each of them once.

- `Delivery`: what there is in the directory of a submission, and what the system decides when its
  schedule is collected.
- `isValid`: `process_schedule` with the output thrown away, by the status of the simulator.
- `uniqueSchedule`, `copyInto`, `collectSchedule`, `collectSchedules`: the functions of the script.
  What `dos2unix` makes of a file is a parameter.
- `Delivers`: a submission delivers a schedule. The file need not be one that `fcfs.c` completes,
  since the status is 0 for every file that is read (`isValid_iff`).
- `Collected`: what `collect_schedule` does. It appends a schedule that is new, or nothing.

Main results:

- `collected_collectSchedule`: one submission.
- `collectSchedules_collects`: all of them. No schedule is lost or changed, none is there twice that
  was not before, and what has been added is exactly what the submissions deliver.
-/

namespace Cosc240

open Lib

namespace Competition

/-! ## The script -/

/-- What there is in the directory of a submission, and what the system decides when its
schedule is collected. -/
structure Delivery where
  /-- The files called `spec_schedule.txt`, in the order in which `find` copies them. -/
  found : List (List Char)
  /-- The name that `mktemp` makes up. -/
  tmpFile : FileName
  memory : Memory
  /-- `timeout` ends the run. -/
  late : Bool

/-- `process_schedule "${tmp_file}" "/dev/null"`, in the directory of a simulator with
`fcfs.c`: whether it returns 0. -/
def isValid (delivery : Delivery) (content : List Char) : Bool :=
  match program (fun _ => Fcfs.scheduler) (fun _ => some content) delivery.memory
      ["./simulator", delivery.tmpFile.text] with
  | none => false
  | some e => !delivery.late && e.status == 0

/-- `unique_schedule`. -/
def uniqueSchedule (schedules : List SpecSchedule) (content : List Char) : Bool :=
  schedules.all fun existing => existing.content ≠ content

/-- `cp` into the directory: a file of the same name is replaced. -/
def copyInto (schedules : List SpecSchedule) (file : SpecSchedule) : List SpecSchedule :=
  if schedules.any fun existing => existing.name = file.name then
    schedules.map fun existing => if existing.name = file.name then file else existing
  else schedules ++ [file]

/-- What `collect_schedule` has in its temporary file when it looks for the first time. -/
def Delivery.copied (delivery : Delivery) : List Char := (delivery.found.getLast?).getD []

/-- `collect_schedule`. The result is the directory of the schedules. -/
def collectSchedule (dos2unix : List Char → List Char) (schedules : List SpecSchedule)
    (delivery : Delivery) : List SpecSchedule :=
  if delivery.copied ≠ [] then
    let content := dos2unix delivery.copied ++ ['\n']
    if isValid delivery content then
      if uniqueSchedule schedules content then copyInto schedules ⟨delivery.tmpFile, content⟩
      else schedules
    else schedules
  else schedules

/-- `collect_schedules`, for the directories of all submissions. -/
def collectSchedules (dos2unix : List Char → List Char) (schedules : List SpecSchedule)
    (deliveries : List Delivery) : List SpecSchedule :=
  deliveries.foldl (collectSchedule dos2unix) schedules

/-! ## What it is for -/

/-- A submission delivers a schedule: there is a file, `main` reads as a table what it becomes
in the temporary file, and `timeout` does not end the run. Whether `fcfs.c` completes the table
within the time bound of `run_simulation` does not matter: `main` returns 0 after `FALSE`, too
(simulator.c:391–394), so that `process_schedule` succeeds. -/
def Delivers (dos2unix : List Char → List Char) (delivery : Delivery) (content : List Char) :
    Prop :=
  delivery.copied ≠ [] ∧ content = dos2unix delivery.copied ++ ['\n'] ∧ delivery.late = false ∧
    ∃ T : Table, Cosc240.main delivery.memory content = .ok T.start

/-! ## One submission -/

variable {dos2unix : List Char → List Char} {schedules : List SpecSchedule}
  {delivery : Delivery} {content : List Char}

/-- With `fcfs.c`, the status tells whether the file has been read. -/
theorem isValid_iff : isValid delivery content = true ↔
    delivery.late = false ∧ ∃ T : Table, Cosc240.main delivery.memory content = .ok T.start := by
  rw [isValid, program, arguments]
  dsimp only
  cases hmain : Cosc240.main delivery.memory content with
  | error lines =>
    constructor
    · intro h
      rw [Bool.and_eq_true] at h
      cases h.2
    · rintro ⟨-, T, hT⟩
      cases hT
  | ok processes =>
    obtain ⟨T, rfl, -⟩ := exists_table_of_main hmain
    obtain ⟨N, s, hrun, -, -⟩ := Fcfs.books.runSimulation_eq T (.ofNat timeout)
    dsimp only
    rw [hrun]
    constructor
    · intro h
      rw [Bool.and_eq_true, Bool.not_eq_true'] at h
      exact ⟨h.1, T, rfl⟩
    · rintro ⟨hlate, -⟩
      rw [hlate]
      rfl

/-- `unique_schedule` compares contents, not names. -/
theorem uniqueSchedule_iff : uniqueSchedule schedules content = true ↔
    content ∉ schedules.map SpecSchedule.content := by
  rw [uniqueSchedule, List.all_eq_true, List.mem_map]
  constructor
  · rintro h ⟨existing, hmem, heq⟩
    exact of_decide_eq_true (h existing hmem) heq
  · intro h existing hmem
    exact decide_eq_true fun heq => h ⟨existing, hmem, heq⟩

theorem copyInto_of_fresh {file : SpecSchedule}
    (h : file.name ∉ schedules.map SpecSchedule.name) :
    copyInto schedules file = schedules ++ [file] := by
  refine if_neg ?_
  intro hany
  obtain ⟨existing, hmem, heq⟩ := List.any_eq_true.mp hany
  exact h (List.mem_map.mpr ⟨existing, hmem, of_decide_eq_true heq⟩)

/-- What `collect_schedule` does: it appends a schedule that is new, or nothing. -/
inductive Collected (dos2unix : List Char → List Char) (schedules : List SpecSchedule)
    (delivery : Delivery) : List SpecSchedule → Prop
  | new {content : List Char} (h : Delivers dos2unix delivery content)
      (hnew : content ∉ schedules.map SpecSchedule.content) :
      Collected dos2unix schedules delivery (schedules ++ [⟨delivery.tmpFile, content⟩])
  | nothing (h : ∀ content, Delivers dos2unix delivery content →
      content ∈ schedules.map SpecSchedule.content) :
      Collected dos2unix schedules delivery schedules

/-- One submission. -/
theorem collected_collectSchedule (dos2unix : List Char → List Char)
    (hfresh : delivery.tmpFile ∉ schedules.map SpecSchedule.name) :
    Collected dos2unix schedules delivery (collectSchedule dos2unix schedules delivery) := by
  unfold collectSchedule
  by_cases hcopied : delivery.copied ≠ []
  · rw [if_pos hcopied]
    dsimp only
    by_cases hvalid : isValid delivery (dos2unix delivery.copied ++ ['\n']) = true
    · rw [if_pos hvalid]
      obtain ⟨hlate, hmain⟩ := isValid_iff.mp hvalid
      by_cases hunique : uniqueSchedule schedules (dos2unix delivery.copied ++ ['\n']) = true
      · rw [if_pos hunique, copyInto_of_fresh hfresh]
        exact .new ⟨hcopied, rfl, hlate, hmain⟩ (uniqueSchedule_iff.mp hunique)
      · rw [if_neg hunique]
        refine .nothing ?_
        rintro content ⟨-, rfl, -⟩
        exact not_not.mp fun hnot => hunique (uniqueSchedule_iff.mpr hnot)
    · rw [if_neg hvalid]
      refine .nothing ?_
      rintro content ⟨-, rfl, h⟩
      exact absurd (isValid_iff.mpr h) hvalid
  · rw [if_neg hcopied]
    refine .nothing ?_
    rintro content ⟨h, -⟩
    exact absurd h hcopied

namespace Collected

variable {schedules' : List SpecSchedule}

theorem isPrefix (h : Collected dos2unix schedules delivery schedules') :
    schedules <+: schedules' := by
  cases h with
  | new => exact List.prefix_append _ _
  | nothing => exact List.prefix_refl _

/-- Schedules that were all different still are. -/
theorem content_nodup (h : Collected dos2unix schedules delivery schedules')
    (hcontents : (schedules.map SpecSchedule.content).Nodup) :
    (schedules'.map SpecSchedule.content).Nodup := by
  cases h with
  | new _ hnew =>
    rw [List.map_append]
    refine List.nodup_append.mpr ⟨hcontents, List.nodup_singleton _, ?_⟩
    rintro a ha b hb rfl
    rw [List.mem_singleton.mp hb] at ha
    exact hnew ha
  | nothing => exact hcontents

/-- The name of the temporary file is the only one that can have been used up. -/
theorem names_nodup (h : Collected dos2unix schedules delivery schedules') {names : List FileName}
    (hnames : (schedules.map SpecSchedule.name ++ delivery.tmpFile :: names).Nodup) :
    (schedules'.map SpecSchedule.name ++ names).Nodup := by
  cases h with
  | new => simpa using hnames
  | nothing => exact hnames.sublist ((List.sublist_cons_self _ _).append_left _)

/-- What is there now was there before, or has been delivered. -/
theorem mem_content_iff (h : Collected dos2unix schedules delivery schedules') :
    content ∈ schedules'.map SpecSchedule.content ↔
      content ∈ schedules.map SpecSchedule.content ∨ Delivers dos2unix delivery content := by
  cases h with
  | @new delivered hdelivers _ =>
    rw [List.map_append, List.mem_append]
    refine or_congr_right ?_
    constructor
    · intro hmem
      obtain rfl : content = delivered := List.mem_singleton.mp hmem
      exact hdelivers
    · intro hother
      obtain rfl : content = delivered := hother.2.1.trans hdelivers.2.1.symm
      exact List.mem_cons_self
  | nothing h => exact ⟨.inl, fun hor => hor.elim id (h content)⟩

end Collected

/-! ## All submissions -/

/-- **The collection.** If `mktemp` makes up names that are not there yet, nothing in the
directory is lost or changed, no two schedules become equal that were not before, no two have
the same name, and what has been added is exactly what the submissions deliver. -/
theorem collectSchedules_collects (dos2unix : List Char → List Char)
    (schedules : List SpecSchedule) (deliveries : List Delivery)
    (hnames : (schedules.map SpecSchedule.name ++ deliveries.map Delivery.tmpFile).Nodup) :
    schedules <+: collectSchedules dos2unix schedules deliveries ∧
    ((schedules.map SpecSchedule.content).Nodup →
      ((collectSchedules dos2unix schedules deliveries).map SpecSchedule.content).Nodup) ∧
    ((collectSchedules dos2unix schedules deliveries).map SpecSchedule.name).Nodup ∧
    ∀ content, content ∈ (collectSchedules dos2unix schedules deliveries).map
        SpecSchedule.content ↔
      content ∈ schedules.map SpecSchedule.content ∨
        ∃ delivery ∈ deliveries, Delivers dos2unix delivery content := by
  induction deliveries generalizing schedules with
  | nil =>
    rw [List.map_nil, List.append_nil] at hnames
    refine ⟨List.prefix_refl _, id, hnames, ?_⟩
    intro content
    constructor
    · exact .inl
    · rintro (h | ⟨delivery, hmem, -⟩)
      · exact h
      · cases hmem
  | cons delivery deliveries ih =>
    have hfresh : delivery.tmpFile ∉ schedules.map SpecSchedule.name := by
      intro hmem
      exact (List.nodup_append.mp hnames).2.2 _ hmem _ List.mem_cons_self rfl
    have hcollected := collected_collectSchedule dos2unix hfresh
    rw [collectSchedules, List.foldl_cons, ← collectSchedules]
    generalize collectSchedule dos2unix schedules delivery = schedules' at hcollected
    obtain ⟨hkept, hnodup, hnodup', hmem⟩ := ih schedules' (hcollected.names_nodup hnames)
    refine ⟨hcollected.isPrefix.trans hkept,
      fun hcontents => hnodup (hcollected.content_nodup hcontents), hnodup', ?_⟩
    intro content
    rw [hmem, hcollected.mem_content_iff, or_assoc, List.exists_mem_cons_iff]

/-- Two submissions with the same schedule, without a newline at the end. -/
def sameSchedule : List Delivery :=
  [⟨["1\n1,0,2".toList], ⟨"spec_schedule_a", rfl⟩, ⟨0, fun _ => []⟩, false⟩,
    ⟨["1\n1,0,2".toList], ⟨"spec_schedule_b", rfl⟩, ⟨0, fun _ => []⟩, false⟩]

theorem collectSchedules_collects_sameSchedule :
    ((collectSchedules id [] sameSchedule).map SpecSchedule.content).Nodup ∧
      ((collectSchedules id [] sameSchedule).map SpecSchedule.name).Nodup := by
  obtain ⟨-, hcontents, hnames, -⟩ := collectSchedules_collects id [] sameSchedule (by decide)
  exact ⟨hcontents List.nodup_nil, hnames⟩

end Competition

end Cosc240
