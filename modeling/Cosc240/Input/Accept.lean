import Cosc240.Input.Format
import Mathlib.Data.List.Nodup

/-!
# The files that reach `run_simulation`

`Reading` is a file as `main` (simulator.c:337–391) reads it when it accepts it, and `main_ok_iff`
says that these are the files it accepts. The table is a `Table`, so everything that is shown
about runs from a `Table` is about the runs of the program.

- `Admitted`: the checks of `main` on one process (simulator.c:355–374).
- `TakesAll`: process lines from a line of the file on, each of which is taken where the one before
  has ended.
- `Reading`: how the file starts for `fscanf`, and the process lines, as many as the number says.
  Without a number `num_processes` is what it was before, since the result of `fscanf` is compared
  with `EOF` only.

Main results:

- `readProcesses_succ_ok_iff`: one line of the loop.
- `readProcesses_of_takesAll` and `exists_takesAll`: lines with distinct pids that pass the checks
  get through the loop, and nothing else does.
- `main_ok_iff`: what `main` accepts, and the table it makes of it.
- `exists_table_of_main`: what `main` hands to `run_simulation` is a `Table`.
-/

namespace Cosc240

open Lib

/-- The checks of `main` on one process. -/
structure Admitted (p : ProcessInitial) : Prop where
  pid_pos : 0 < p.pid
  pid_lt : p.pid < maxPid
  arrivalTime_lt : p.arrivalTime < timeout
  processingTime_pos : 0 < p.processingTime
  processingTime_lt : p.processingTime < timeout

theorem Admitted.fits {r : ProcessLine} (h : Admitted r.initial) : r.Fits := by
  have hpid : r.pid.value < maxPid := h.pid_lt
  have harrival : fieldValue r.arrivalTime < timeout := h.arrivalTime_lt
  have hwork : r.processingTime.value < timeout := h.processingTime_lt
  unfold maxPid at hpid
  unfold timeout at harrival hwork
  constructor <;> unfold intMax <;> omega

/-! ## The loop -/

variable {memory : Memory}

/-- **One line.** -/
theorem readProcesses_succ_ok_iff {k i : Nat} {processes table : List ProcessStats}
    {file : List Char} :
    readProcesses memory (k + 1) i processes file = .ok table ↔
      ∃ p rest, readProcessInitial (memory.line i) file = (p, rest) ∧ Admitted p ∧
        (∀ q ∈ processes, p.pid ≠ q.initial.pid) ∧
        readProcesses memory k (i + 1) (processes ++ [⟨p, 0, 0⟩]) rest = .ok table := by
  rcases hread : readProcessInitial (memory.line i) file with ⟨p, rest⟩
  simp only [readProcesses, hread]
  constructor
  · intro h
    split at h
    · cases h
    split at h
    · cases h
    split at h
    · cases h
    split at h
    · cases h
    split at h
    · cases h
    rename_i hpid hpid' harrival hwork hunique
    simp only [List.any_eq_true, decide_eq_true_eq, not_exists, not_and] at hunique
    refine ⟨p, rest, rfl, ?_, hunique, h⟩
    constructor <;> omega
  · rintro ⟨p', rest', heq, hp, hunique, h⟩
    rw [Prod.mk.injEq] at heq
    obtain ⟨rfl, rfl⟩ := heq
    have hpos := hp.pid_pos
    have hlt := hp.pid_lt
    have harrival := hp.arrivalTime_lt
    have hwork := hp.processingTime_pos
    have hwork' := hp.processingTime_lt
    have hany : ¬ (processes.any fun q => p.pid = q.initial.pid) = true := by
      simpa only [List.any_eq_true, decide_eq_true_eq, not_exists, not_and] using hunique
    rw [if_neg (by omega), if_neg (by omega), if_neg (by omega), if_neg (by omega), if_neg hany]
    exact h

/-- Process lines from line `i + 1` on. -/
inductive TakesAll (line : Nat → List Char) : Nat → List Char → List ProcessLine → Prop
  | nil (i : Nat) (file : List Char) : TakesAll line i file []
  | cons {i : Nat} {file rest : List Char} {r : ProcessLine} {rs : List ProcessLine}
      (h : Takes (line i) file r rest) (hrest : TakesAll line (i + 1) rest rs) :
      TakesAll line i file (r :: rs)

/-- Lines with distinct pids that pass the checks are read into the table. -/
theorem readProcesses_of_takesAll {i : Nat} {file : List Char} {rs : List ProcessLine}
    (h : TakesAll memory.line i file rs) {processes : List ProcessStats}
    (hadmitted : ∀ r ∈ rs, Admitted r.initial)
    (hnodup : (rs.map fun r => r.initial.pid).Nodup)
    (hnew : ∀ r ∈ rs, ∀ q ∈ processes, r.initial.pid ≠ q.initial.pid) :
    readProcesses memory rs.length i processes file =
      .ok (processes ++ rs.map ProcessLine.stats) := by
  induction h generalizing processes with
  | nil i file => simp [readProcesses]
  | @cons i file rest r rs h hrest ih =>
    rw [List.map_cons, List.nodup_cons] at hnodup
    have hr := hadmitted r List.mem_cons_self
    refine readProcesses_succ_ok_iff.mpr ⟨r.initial, rest,
      readProcessInitial_of_takes h hr.fits, hr, hnew r List.mem_cons_self, ?_⟩
    rw [ih (fun r' hr' => hadmitted r' (List.mem_cons_of_mem _ hr')) hnodup.2 ?_]
    · rw [List.map_cons, List.append_assoc]
      rfl
    · intro r' hr' q hq
      rcases List.mem_append.mp hq with hq | hq
      · exact hnew r' (List.mem_cons_of_mem _ hr') q hq
      · rw [List.mem_singleton.mp hq]
        exact fun heq => hnodup.1 (List.mem_map.mpr ⟨r', hr', heq⟩)

/-- Nothing else gets through the loop. -/
theorem exists_takesAll {k i : Nat} {processes table : List ProcessStats} {file : List Char}
    (h : readProcesses memory k i processes file = .ok table) :
    ∃ rs, rs.length = k ∧ TakesAll memory.line i file rs ∧ (∀ r ∈ rs, Admitted r.initial) ∧
      (rs.map fun r => r.initial.pid).Nodup ∧
      (∀ r ∈ rs, ∀ q ∈ processes, r.initial.pid ≠ q.initial.pid) ∧
      table = processes ++ rs.map ProcessLine.stats := by
  induction k generalizing i processes file with
  | zero =>
    simp only [readProcesses, Except.ok.injEq] at h
    refine ⟨[], rfl, .nil i file, ?_, List.nodup_nil, ?_, by simp [h]⟩
    · intro r hr
      cases hr
    · intro r hr
      cases hr
  | succ k ih =>
    obtain ⟨p, rest, hread, hp, hunique, h⟩ := readProcesses_succ_ok_iff.mp h
    obtain ⟨r, htakes, -, rfl⟩ :=
      exists_takes hread hp.pid_pos.ne' hp.processingTime_pos.ne'
    obtain ⟨rs, hlength, hall, hadmitted, hnodup, hnew, htable⟩ := ih h
    refine ⟨r :: rs, by rw [List.length_cons, hlength], .cons htakes hall, ?_, ?_, ?_, ?_⟩
    · exact List.forall_mem_cons.mpr ⟨hp, hadmitted⟩
    · rw [List.map_cons, List.nodup_cons]
      -- a later line is checked against this one
      refine ⟨fun hmem => ?_, hnodup⟩
      obtain ⟨r', hr', heq⟩ := List.mem_map.mp hmem
      exact hnew r' hr' ⟨r.initial, 0, 0⟩ (by simp) heq
    · refine List.forall_mem_cons.mpr ⟨hunique, fun r' hr' q hq => ?_⟩
      exact hnew r' hr' q (List.mem_append_left _ hq)
    · rw [htable, List.map_cons, List.append_assoc]
      rfl

/-! ## `main` -/

/-- A file as `main` reads it: how it starts, and the process lines, as many as the
number says. Without a number, `num_processes` is what it was. -/
structure Reading (memory : Memory) (file body : List Char) (lines : List ProcessLine) : Prop where
  header : ∃ stored, Leading file stored body ∧
    lines.length = (stored.map toUInt).getD memory.numProcesses
  nonempty : lines ≠ []
  length_lt : lines.length < timeout
  takes : TakesAll memory.line 0 body lines
  admitted : ∀ r ∈ lines, Admitted r.initial
  pids_nodup : (lines.map fun r => r.initial.pid).Nodup

/-- **What `main` accepts**, and the table it makes of it. -/
theorem main_ok_iff {file : List Char} {table : List ProcessStats} :
    main memory file = .ok table ↔
      ∃ body lines, Reading memory file body lines ∧ table = lines.map ProcessLine.stats := by
  constructor
  · intro h
    simp only [main] at h
    split at h
    · cases h
    rename_i hcount
    split at h
    · cases h
    rename_i hrange
    obtain ⟨lines, hlength, htakes, hadmitted, hnodup, -, htable⟩ := exists_takesAll h
    refine ⟨(fscanf file).rest, lines, ?_, htable⟩
    exact {
      header := ⟨_, fscanf_count_ne_EOF_iff.mp ⟨hcount, rfl, rfl⟩, hlength⟩
      nonempty := List.ne_nil_of_length_pos (by omega)
      length_lt := by omega
      takes := htakes
      admitted := hadmitted
      pids_nodup := hnodup }
  · rintro ⟨body, lines, h, rfl⟩
    obtain ⟨stored, hleading, hlength⟩ := h.header
    obtain ⟨hcount, hstored, hrest⟩ := fscanf_count_ne_EOF_iff.mpr hleading
    have hpos := List.length_pos_of_ne_nil h.nonempty
    have hlt := h.length_lt
    have hnew : ∀ r ∈ lines, ∀ q ∈ ([] : List ProcessStats), r.initial.pid ≠ q.initial.pid := by
      intro r _ q hq
      cases hq
    simp only [main, if_neg hcount, hstored, hrest, ← hlength]
    rw [if_neg (by omega), readProcesses_of_takesAll h.takes h.admitted h.pids_nodup hnew,
      List.nil_append]

/-- What `main` hands to `run_simulation` is a `Table`. -/
theorem exists_table_of_main {file : List Char} {table : List ProcessStats}
    (h : main memory file = .ok table) :
    ∃ T : Table, table = T.start ∧ ∀ p ∈ T.processes, Admitted p := by
  obtain ⟨body, lines, hreading, rfl⟩ := main_ok_iff.mp h
  have hadmitted : ∀ p ∈ lines.map ProcessLine.initial, Admitted p :=
    List.forall_mem_map.mpr hreading.admitted
  let T : Table :=
    { processes := lines.map ProcessLine.initial
      nonempty := by simpa using hreading.nonempty
      pids_nodup := by simpa [Function.comp_def] using hreading.pids_nodup
      pid_pos := fun p hp => (hadmitted p hp).pid_pos
      pid_lt := fun p hp => Nat.lt_trans (hadmitted p hp).pid_lt (by decide)
      arrivalTime_lt := fun p hp => (hadmitted p hp).arrivalTime_lt
      processingTime_pos := fun p hp => (hadmitted p hp).processingTime_pos
      processingTime_lt := fun p hp => (hadmitted p hp).processingTime_lt }
  refine ⟨T, ?_, hadmitted⟩
  rw [Table.start, List.map_map]
  rfl

end Cosc240
