import Cosc240.Competition.Report
import Std.Data.String.ToNat

/-!
# Outputs that are equal

`calculate_marks` of `cosc240_a4.sh` (lines 223–234) compares what two programs have printed. If one
of them completes all processes of a table, then the outputs are equal exactly if the two schedulers
have returned the same pids: what is printed of a run (simulator.c:178, 213–218) can be read back,
and the rest follows from it.

For the runs of any two schedulers:

- `Reached.output_eq`: what a run has printed up to a time step is the header and the pids so far.
- `Reached.processes_eq`: the table follows from the output.

For the texts:

- `body_step_inj` and `pids_eq_of_map_body`: the pid of a line is read back, and with it the pids of
  a run. Numbers are small enough for `%d` to print them as they are (`pid_le_intMax`).
- `map_body_eq`: the lines of the table are those above the averages.

Main result:

- `reportOf_eq_iff`: if a run completes all processes, another one on the same table prints the same
  exactly if the same pids are returned in it. If it does not complete them itself, its output has
  no averages and is another one.
-/

namespace Cosc240

open Lib

/-! ## Runs of any two schedulers -/

section Runs

variable {S S' : Scheduler} {T : Table} {timeBound timeBound' : UInt32}

/-- What a run has printed up to a time step is the header and the pids so far. -/
theorem Reached.output_eq {t : Nat} {s : Sim S} (h : Reached S T.start timeBound t s) :
    s.output = .header :: (s.trace.map Prod.snd).mapIdx Line.step := by
  induction h with
  | start => rfl
  | @tick t s s' h hbound hrun hstep ih =>
    obtain ⟨σ, rfl, htally⟩ := h.tally
    obtain ⟨pid, sched, -, rfl, -, -⟩ := Enters.tick_inv ⟨h, hbound, hrun⟩ htally hstep
    have hσ : s.trace.map Prod.snd = σ := by rw [htally.trace, map_snd_mapIdx]
    have htrace : (⟨s.processes.map (ProcessStats.serve σ.length pid), sched,
        s.output ++ [.step σ.length pid]⟩ : Sim S).trace = s.trace ++ [(σ.length, pid)] := by
      rw [Sim.trace, List.filterMap_append]
      rfl
    rw [htrace, List.map_append, hσ, List.mapIdx_append, ih, hσ]
    simp

/-- The table follows from the output. -/
theorem Reached.processes_eq {t t' : Nat} {s : Sim S} {s' : Sim S'}
    (h : Reached S T.start timeBound t s) (h' : Reached S' T.start timeBound' t' s')
    (hout : s.output = s'.output) : s.processes = s'.processes := by
  induction h generalizing t' s' with
  | start =>
    cases h' with
    | start => rfl
    | tick h' hbound' hrun' hstep' =>
      obtain ⟨σ', rfl, htally'⟩ := h'.tally
      obtain ⟨pid', sched', -, rfl, -, -⟩ := Enters.tick_inv ⟨h', hbound', hrun'⟩ htally' hstep'
      have hlength := congrArg List.length hout
      dsimp only at hlength
      rw [h'.output_eq] at hlength
      simp [Sim.start] at hlength
  | tick h hbound hrun hstep ih =>
    obtain ⟨σ, rfl, htally⟩ := h.tally
    obtain ⟨pid, sched, -, rfl, -, -⟩ := Enters.tick_inv ⟨h, hbound, hrun⟩ htally hstep
    cases h' with
    | start =>
      have hlength := congrArg List.length hout
      dsimp only at hlength
      rw [h.output_eq] at hlength
      simp [Sim.start] at hlength
    | tick h' hbound' hrun' hstep' =>
      obtain ⟨σ', rfl, htally'⟩ := h'.tally
      obtain ⟨pid', sched', -, rfl, -, -⟩ := Enters.tick_inv ⟨h', hbound', hrun'⟩ htally' hstep'
      obtain ⟨hbefore, hlast⟩ := List.append_inj' hout rfl
      obtain ⟨hlength, rfl⟩ := Line.step.inj (List.singleton_inj.mp hlast)
      dsimp only
      rw [ih h' hbefore, hlength]

end Runs

namespace Competition

/-! ## Reading the output back -/

theorem formatD_inj {m n : Nat} (hm : m ≤ intMax) (hn : n ≤ intMax)
    (h : (formatD m).toList = (formatD n).toList) : m = n := by
  rw [formatD, formatD, if_pos hm, if_pos hn] at h
  exact Nat.repr_injective (String.toList_inj.mp h)

/-- The pid of a line. -/
theorem body_step_inj {t pid pid' : Nat} (hpid : pid ≤ intMax) (hpid' : pid' ≤ intMax)
    (h : body (.step t pid) = body (.step t pid')) : pid = pid' := by
  have hcell : (if pid > 0 then formatD pid else "").toList =
      (if pid' > 0 then formatD pid' else "").toList := List.append_cancel_left h
  have hne : ∀ n : Nat, n ≤ intMax → (formatD n).toList ≠ [] := by
    intro n hn hnil
    rw [formatD, if_pos hn, toList_toString] at hnil
    exact Nat.toDigits_ne_nil hnil
  by_cases hpos : pid > 0
  · rw [if_pos hpos] at hcell
    by_cases hpos' : pid' > 0
    · rw [if_pos hpos'] at hcell
      exact formatD_inj hpid hpid' hcell
    · rw [if_neg hpos'] at hcell
      exact absurd hcell (hne pid hpid)
  · rw [if_neg hpos] at hcell
    by_cases hpos' : pid' > 0
    · rw [if_pos hpos'] at hcell
      exact absurd hcell.symm (hne pid' hpid')
    · omega

theorem printed_run (lines : List Line) :
    printed (.run lines) = (lines.map body).flatMap fun line => line ++ ['\n'] := by
  rw [List.flatMap_map]
  exact List.flatMap_congr fun line _ => text_eq line

/-- The lines of the table are those above the averages. -/
theorem map_body_eq (lines : List Line) (average wait : ℚ) :
    (textLines (printed (.run lines) ++ printed (.statistics average wait))).takeWhile
      (fun line => 'A' ∉ line) = lines.map body := by
  have hnewline : ∀ line ∈ lines.map body, '\n' ∉ line := by
    intro line hline
    obtain ⟨line, -, rfl⟩ := List.mem_map.mp hline
    exact not_mem_body rfl (by decide) line
  have hpattern : ∀ line ∈ lines.map body, decide ('A' ∉ line) = true := by
    intro line hline
    obtain ⟨line, -, rfl⟩ := List.mem_map.mp hline
    exact decide_eq_true (not_mem_body rfl (by decide) line)
  have hstatistics : (textLines (printed (.statistics average wait))).takeWhile
      (fun line => 'A' ∉ line) = [] := by
    rw [printed_statistics, textLines, List.splitOn_append_cons_self_of_not_mem]
    · exact List.takeWhile_cons_of_neg (by simp [mem_averagePattern])
    · intro hmem
      rcases List.mem_append.mp hmem with hmem | hmem
      · exact absurd hmem (by decide)
      · rcases List.mem_cons.mp hmem with h | hmem
        · cases h
        · rcases mem_pointTwo hmem with h | h <;> cases h
  rw [printed_run, textLines_flatMap_append hnewline, List.takeWhile_append_of_pos hpattern,
    hstatistics, List.append_nil]

/-- The pids are read back from the output of a run. -/
theorem pids_eq_of_map_body {σ σ' : List Nat} (hσ : ∀ pid ∈ σ, pid ≤ intMax)
    (hσ' : ∀ pid ∈ σ', pid ≤ intMax)
    (h : (Line.header :: σ.mapIdx Line.step).map body =
      (Line.header :: σ'.mapIdx Line.step).map body) : σ = σ' := by
  have htail : (σ.mapIdx Line.step).map body = (σ'.mapIdx Line.step).map body :=
    (List.cons.inj h).2
  have hlength := congrArg List.length htail
  rw [List.length_map, List.length_map, List.length_mapIdx, List.length_mapIdx] at hlength
  refine List.ext_getElem hlength ?_
  intro i hi hi'
  have hline := List.getElem_of_eq htail (i := i) (by simpa using hi)
  rw [List.getElem_map, List.getElem_map, List.getElem_mapIdx, List.getElem_mapIdx] at hline
  exact body_step_inj (hσ _ (List.getElem_mem hi)) (hσ' _ (List.getElem_mem hi')) hline

/-! ## Equal outputs -/

/-- What a run of `run_simulation` leaves to be printed. -/
def reportOf {S : Scheduler} (verdict : Bool) (s : Sim S) : List Char :=
  report ⟨0, .run s.output :: if verdict then [printStatistics s.processes] else []⟩

variable {S S' : Scheduler} {T : Table} {timeBound : UInt32}

theorem pid_le_intMax {σ : List Nat} {s : Sim S} (h : Tally T timeBound σ s) :
    ∀ pid ∈ σ, pid ≤ intMax := by
  intro pid hpid
  rcases h.pids pid hpid with rfl | ⟨p, hp, rfl⟩
  · exact Nat.zero_le _
  · exact ((T.pid_lt p hp).trans (by decide)).le

theorem grep_reportOf_false (s : Sim S) : grep averagePattern (reportOf false s) = [] := by
  have hgrep := grep_run s.output []
  rw [List.append_nil] at hgrep
  exact (congrArg _ (report_run 0 s.output)).trans hgrep

theorem grep_reportOf_true (s : Sim S) : grep averagePattern (reportOf true s) ≠ [] := by
  rw [reportOf, if_pos rfl, report_run_statistics, grep_run, printStatistics, grep_statistics]
  exact List.cons_ne_nil _ _

/-- If a run completes all processes, another one on the same table prints the same exactly if
the same pids are returned in it. -/
theorem reportOf_eq_iff {s : Sim S} {s' : Sim S'} {verdict : Bool}
    (hrun : runSimulation S T.start timeBound = some (true, s))
    (hrun' : runSimulation S' T.start timeBound = some (verdict, s')) :
    reportOf verdict s' = reportOf true s ↔ s'.trace.map Prod.snd = s.trace.map Prod.snd := by
  obtain ⟨σ, hs, htally, hexact⟩ := exact_of_runSimulation_true hrun
  have hσ : s.trace.map Prod.snd = σ := by rw [htally.trace, map_snd_mapIdx]
  have hout := hs.output_eq
  rw [hσ] at hout
  constructor
  · intro hreport
    cases verdict with
    | false => exact absurd (hreport ▸ grep_reportOf_false s') (grep_reportOf_true s)
    | true =>
      obtain ⟨σ', hs', htally', -⟩ := exact_of_runSimulation_true hrun'
      have hσ' : s'.trace.map Prod.snd = σ' := by rw [htally'.trace, map_snd_mapIdx]
      have hout' := hs'.output_eq
      rw [hσ'] at hout'
      rw [reportOf, reportOf, if_pos rfl, if_pos rfl, report_run_statistics,
        report_run_statistics, printStatistics, printStatistics] at hreport
      have hlines := congrArg (fun text => (textLines text).takeWhile fun line => 'A' ∉ line)
        hreport
      rw [map_body_eq, map_body_eq, hout, hout'] at hlines
      rw [hσ, hσ']
      exact pids_eq_of_map_body (pid_le_intMax htally') (pid_le_intMax htally) hlines
  · intro htrace
    rw [hσ] at htrace
    -- with these answers all processes are complete
    have hdone : ∀ {t : Nat} {s₁ : Sim S'}, Reached S' T.start timeBound t s₁ →
        s₁.trace.map Prod.snd = σ → stillRunning s₁.processes = false := by
      intro t s₁ hs₁ htrace
      obtain ⟨σ₁, -, htally₁⟩ := hs₁.tally
      rw [htally₁.trace, map_snd_mapIdx] at htrace
      exact (htally₁.stillRunning_eq_false_iff hs₁.initial).mpr (htrace ▸ hexact)
    have hcase := runSimulation_cases S' T timeBound
    rw [hrun'] at hcase
    cases hcase with
    | done hs' _ =>
      have hout' := hs'.output_eq
      rw [htrace, ← hout] at hout'
      rw [reportOf, reportOf, hout', hs'.processes_eq hs hout']
    | timeUp hs' hrunning =>
      rw [hdone hs' htrace] at hrunning
      cases hrunning
    | @stop N s₁ _ henters htick =>
      have hcase := s₁.tick_cases N henters.reached.length_le
      rw [htick] at hcase
      cases hcase with
      | tooLong =>
        have hbefore : s₁.trace.map Prod.snd = σ := by
          rw [← htrace]
          simp [Sim.trace, Line.step?]
        have hrunning := henters.running
        rw [hdone henters.reached hbefore] at hrunning
        cases hrunning

end Competition

end Cosc240
