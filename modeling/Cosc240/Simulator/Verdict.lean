import Cosc240.Simulator.AnyScheduler
import Cosc240.Simulator.Books

/-!
# The verdict of `run_simulation`

For any scheduler at all: the rows of the table tally the pids that have been
returned, a run ends in one of four ways, and it returns `TRUE` exactly if the
scheduler returns each pid as often as its process needs, before the time bound
(simulator.c:177–221).

- `Tally`: a list of pids is what the scheduler has answered in the time steps before a state, and
  the rows and the output are what follows from it.
- `Exact`: the answers give each process the time it needs, no more and no less.
- `RunCase`: how a run ends. All is done, time is up, a process is scheduled for too long, or there
  is undefined behaviour.
- `Answers`: the scheduler answers with a given list for as long as it is asked.

Main results:

- `Reached.tally`: the rows tally the answers, whatever the scheduler does.
- `runSimulation_cases`: the four ways to end.
- `Answers.runSimulation_eq_true` and `exact_of_runSimulation_true`: the two directions of the
  verdict.
-/

namespace Cosc240

open Lib

variable {S : Scheduler} {T : Table} {timeBound : UInt32}

/-! ## What the rows say -/

/-- `σ` lists the answers of the scheduler in the time steps before the state `s`. -/
structure Tally (T : Table) (timeBound : UInt32) (σ : List Nat) (s : Sim S) : Prop where
  rows : ∀ p ∈ s.processes, RowTally σ p
  trace : s.trace = σ.mapIdx fun t pid => (t, pid)
  answered : ∀ i pid, σ[i]? = some pid →
    ∃ s' sched, Enters S T timeBound i s' ∧ s'.answer i = some (pid, sched)
  pids : ∀ pid ∈ σ, pid = 0 ∨ ∃ p ∈ T.processes, p.pid = pid

/-- What a time step does that the loop survives. -/
theorem Enters.tick_inv {t : Nat} {s s' : Sim S} {σ : List Nat} (h : Enters S T timeBound t s)
    (htally : Tally T timeBound σ s) (htick : s.tick t = some (.next s')) :
    ∃ pid sched, s.answer t = some (pid, sched) ∧
      s' = { processes := s.processes.map (ProcessStats.serve t pid), sched,
             output := s.output ++ [.step t pid] } ∧
      (pid = 0 ∨ ∃ p ∈ T.processes, p.pid = pid) ∧
      ∀ p ∈ s.processes, p.initial.pid = pid → p.processedTime < p.initial.processingTime := by
  have hi := h.reached.initial
  have hcase := s.tick_cases t h.reached.length_le
  rw [htick] at hcase
  cases hcase with
  | @idle sched hanswer =>
    refine ⟨0, sched, hanswer, ?_, .inl rfl, ?_⟩
    · rw [map_serve_zero hi]
    · intro p hp hpid
      exact absurd hpid (Nat.ne_of_gt (T.pid_pos _ (initial_mem hi hp)))
  | @serve i p sched hanswer hpos hp hle =>
    have hmem := List.mem_of_getElem? hp
    -- the counter of the row is at most its limit, so that `++` does not wrap
    have hmax : p.initial.processingTime < uintMax :=
      Nat.lt_trans (T.processingTime_lt _ (initial_mem hi hmem)) (by decide)
    have hlt : p.processedTime < p.initial.processingTime := by
      have hincr : incr p.processedTime = p.processedTime + 1 :=
        incr_of_lt (Nat.lt_of_le_of_lt (htally.rows p hmem).le hmax) (Nat.le_refl _)
      rw [hincr] at hle
      exact Nat.lt_of_succ_le hle
    have hpid := tick_of_pid hi hmem hlt hanswer
    rw [hpid] at htick
    refine ⟨p.initial.pid, sched, hanswer, ?_, .inr ⟨p.initial, initial_mem hi hmem, rfl⟩, ?_⟩
    · exact (TickResult.next.inj (Option.some.inj htick)).symm
    · intro q hq hq'
      exact eq_of_pid_eq hi hq hmem hq' ▸ hlt

/-- **The rows tally the answers**, whatever the scheduler does. -/
theorem Reached.tally {t : Nat} {s : Sim S} (h : Reached S T.start timeBound t s) :
    ∃ σ, σ.length = t ∧ Tally T timeBound σ s := by
  induction h with
  | start =>
    refine ⟨[], rfl, ?_, rfl, ?_, ?_⟩
    · intro p hp
      obtain ⟨q, hq, rfl⟩ := List.mem_map.mp hp
      exact rowTally_start (T.processingTime_pos q hq)
    · intro i pid hi
      cases hi
    · intro pid hpid
      cases hpid
  | @tick t s s' h hbound hrun hstep ih =>
    obtain ⟨σ, rfl, htally⟩ := ih
    have hs : Enters S T timeBound σ.length s := ⟨h, hbound, hrun⟩
    obtain ⟨pid, sched, hanswer, rfl, hpid, hlt⟩ := hs.tick_inv htally hstep
    refine ⟨σ ++ [pid], by simp, ?_, ?_, ?_, ?_⟩
    · intro p hp
      obtain ⟨q, hq, rfl⟩ := List.mem_map.mp hp
      exact (htally.rows q hq).serve (hlt q hq)
    · rw [List.mapIdx_append, ← htally.trace, Sim.trace, List.filterMap_append]
      simp [Sim.trace, Line.step?]
    · intro i pid' hi
      rcases getElem?_concat_eq_some_iff.mp hi with hi | ⟨rfl, rfl⟩
      · exact htally.answered i pid' hi
      · exact ⟨s, sched, hs, hanswer⟩
    · intro pid' hmem
      rcases List.mem_append.mp hmem with hmem | hmem
      · exact htally.pids pid' hmem
      · exact List.mem_singleton.mp hmem ▸ hpid

/-! ## Enough, and not too much -/

/-- The answers give each process the time it needs. -/
def Exact (T : Table) (σ : List Nat) : Prop :=
  ∀ p ∈ T.processes, σ.count p.pid = p.processingTime

instance (T : Table) (σ : List Nat) : Decidable (Exact T σ) :=
  inferInstanceAs (Decidable (∀ p ∈ T.processes, σ.count p.pid = p.processingTime))

namespace Tally

variable {σ : List Nat} {s : Sim S}

/-- Nobody has received too much. -/
theorem count_le (h : Tally T timeBound σ s)
    (hi : s.processes.map ProcessStats.initial = T.processes) {p : ProcessInitial} (hp : p ∈ T.processes) : σ.count p.pid ≤ p.processingTime := by
  rw [← hi] at hp
  obtain ⟨r, hr, rfl⟩ := List.mem_map.mp hp
  rw [← (h.rows r hr).count]
  exact (h.rows r hr).le

/-- `still_running` is false exactly when all processes have what they need. -/
theorem stillRunning_eq_false_iff (h : Tally T timeBound σ s)
    (hi : s.processes.map ProcessStats.initial = T.processes) :
    stillRunning s.processes = false ↔ Exact T σ := by
  rw [← Bool.not_eq_true, stillRunning_iff]
  constructor
  · intro hdone p hp
    rw [← hi] at hp
    obtain ⟨r, hr, rfl⟩ := List.mem_map.mp hp
    have hnot : ¬ r.processedTime < r.initial.processingTime := fun hlt => hdone ⟨r, hr, hlt⟩
    rw [← (h.rows r hr).count]
    exact Nat.le_antisymm (h.rows r hr).le (Nat.le_of_not_lt hnot)
  · rintro hexact ⟨r, hr, hlt⟩
    rw [(h.rows r hr).count, hexact _ (initial_mem hi hr)] at hlt
    exact Nat.lt_irrefl _ hlt

end Tally

/-- Answers that go on behind an exact list cannot have left work to do. -/
theorem exact_of_prefix {σ ρ : List Nat} (hexact : Exact T ρ) (hpre : ρ <+: σ)
    (hle : ∀ p ∈ T.processes, σ.count p.pid ≤ p.processingTime) : Exact T σ := by
  intro p hp
  refine Nat.le_antisymm (hle p hp) ?_
  rw [← hexact p hp]
  exact hpre.sublist.count_le p.pid

/-! ## How a run ends -/

/-- How `run_simulation` ends. -/
inductive RunCase (S : Scheduler) (T : Table) (timeBound : UInt32) :
    Option (Bool × Sim S) → Prop
  /-- All work is done. -/
  | done {N : Nat} {s : Sim S} (h : Reached S T.start timeBound N s)
      (hdone : stillRunning s.processes = false) : RunCase S T timeBound (some (true, s))
  /-- Time is up. -/
  | timeUp {s : Sim S} (h : Reached S T.start timeBound timeBound.toNat s)
      (hrun : stillRunning s.processes = true) : RunCase S T timeBound (some (false, s))
  /-- `return FALSE` in the body of the loop. -/
  | stop {N : Nat} {s s' : Sim S} (h : Enters S T timeBound N s)
      (htick : s.tick N = some (.stop s')) : RunCase S T timeBound (some (false, s'))
  /-- Undefined behaviour. -/
  | fault {N : Nat} {s : Sim S} (h : Enters S T timeBound N s) (htick : s.tick N = none) :
      RunCase S T timeBound none

theorem runFrom_cases (left t : Nat) (s : Sim S) (h : Reached S T.start timeBound t s)
    (hleft : t + left = timeBound.toNat) : RunCase S T timeBound (runFrom left t s) := by
  induction left generalizing t s with
  | zero =>
    obtain rfl : t = timeBound.toNat := hleft
    rw [runFrom]
    cases hrun : stillRunning s.processes with
    | false => exact .done h hrun
    | true => exact .timeUp h hrun
  | succ left ih =>
    rw [runFrom]
    by_cases hrun : stillRunning s.processes = true
    · have hs : Enters S T timeBound t s := ⟨h, by omega, hrun⟩
      rw [if_pos hrun]
      cases htick : s.tick t with
      | none => exact .fault hs htick
      | some result =>
        cases result with
        | stop s' => exact .stop hs htick
        | next s' => exact ih (t + 1) s' (.tick h hs.bound hrun htick) (by omega)
    · rw [if_neg hrun, Bool.eq_false_of_not_eq_true hrun]
      exact .done h (Bool.eq_false_of_not_eq_true hrun)

theorem runSimulation_cases (S : Scheduler) (T : Table) (timeBound : UInt32) :
    RunCase S T timeBound (runSimulation S T.start timeBound) :=
  runFrom_cases _ 0 _ .start (Nat.zero_add _)

/-- What the body of the loop refuses is one time step too many. -/
theorem Enters.stop_inv {t : Nat} {s s' : Sim S} {σ : List Nat} (h : Enters S T timeBound t s)
    (htally : Tally T timeBound σ s) (htick : s.tick t = some (.stop s')) :
    ∃ p ∈ T.processes, ∃ sched, s.answer t = some (p.pid, sched) ∧
      p.processingTime < (σ ++ [p.pid]).count p.pid := by
  have hi := h.reached.initial
  have hcase := s.tick_cases t h.reached.length_le
  rw [htick] at hcase
  cases hcase with
  | @tooLong i p sched hanswer hpos hp hlt =>
    have hmem := List.mem_of_getElem? hp
    have hmax : p.initial.processingTime < uintMax :=
      Nat.lt_trans (T.processingTime_lt _ (initial_mem hi hmem)) (by decide)
    have hincr : incr p.processedTime = p.processedTime + 1 :=
      incr_of_lt (Nat.lt_of_le_of_lt (htally.rows p hmem).le hmax) (Nat.le_refl _)
    refine ⟨p.initial, initial_mem hi hmem, sched, hanswer, ?_⟩
    rw [List.count_append, List.count_singleton_self, ← (htally.rows p hmem).count, ← hincr]
    exact hlt

/-- A time step in which the scheduler answers 0 or a pid of the table is no fault. -/
theorem Enters.tick_ne_none {t pid : Nat} {s : Sim S} {sched : S.State}
    (h : Enters S T timeBound t s) (hanswer : s.answer t = some (pid, sched))
    (hpid : pid = 0 ∨ ∃ p ∈ T.processes, p.pid = pid) : s.tick t ≠ none := by
  intro htick
  have hcase := s.tick_cases t h.reached.length_le
  rw [htick] at hcase
  cases hcase with
  | fault hfault =>
    rw [hanswer] at hfault
    cases hfault
  | stray hstray hpos hne =>
    cases hanswer.symm.trans hstray
    rcases hpid with rfl | ⟨p, hp, rfl⟩
    · exact Nat.lt_irrefl 0 hpos
    · rw [← h.reached.initial] at hp
      obtain ⟨r, hr, rfl⟩ := List.mem_map.mp hp
      exact hne r hr rfl

/-- The scheduler answers with `ρ` for as long as it is asked. -/
def Answers (S : Scheduler) (T : Table) (timeBound : UInt32) (ρ : List Nat) : Prop :=
  ∀ t s pid, Enters S T timeBound t s → ρ[t]? = some pid →
    (∃ sched, s.answer t = some (pid, sched)) ∧ (pid = 0 ∨ ∃ p ∈ T.processes, p.pid = pid)

/-- The answers so far and the answers to come are those of one list. -/
theorem Answers.getElem?_eq {σ ρ : List Nat} {s : Sim S} (h : Answers S T timeBound ρ)
    (htally : Tally T timeBound σ s) {i pid pid' : Nat} (hσ : σ[i]? = some pid)
    (hρ : ρ[i]? = some pid') : pid = pid' := by
  obtain ⟨s', sched, hs', hanswer⟩ := htally.answered i pid hσ
  obtain ⟨⟨sched', hanswer'⟩, -⟩ := h i s' pid' hs' hρ
  rw [hanswer] at hanswer'
  exact congrArg Prod.fst (Option.some.inj hanswer')

theorem Answers.prefix {σ ρ : List Nat} {s : Sim S} (h : Answers S T timeBound ρ)
    (htally : Tally T timeBound σ s) : ρ <+: σ ∨ σ.length < ρ.length ∧ σ <+: ρ := by
  rcases Nat.lt_or_ge σ.length ρ.length with hlt | hge
  · refine .inr ⟨hlt, List.prefix_iff_getElem?.mpr fun i hi => ?_⟩
    have hρ := List.getElem?_eq_getElem (Nat.lt_trans hi hlt)
    rw [hρ, h.getElem?_eq htally (List.getElem?_eq_getElem hi) hρ]
  · refine .inl (List.prefix_iff_getElem?.mpr fun i hi => ?_)
    have hσ := List.getElem?_eq_getElem (Nat.lt_of_lt_of_le hi hge)
    rw [hσ, h.getElem?_eq htally hσ (List.getElem?_eq_getElem hi)]

/-- **Enough answers.** If the scheduler answers with a list that is exact and not too
long, `run_simulation` returns `TRUE`. -/
theorem Answers.runSimulation_eq_true {ρ : List Nat} (h : Answers S T timeBound ρ)
    (hlength : ρ.length ≤ timeBound.toNat) (hexact : Exact T ρ) :
    ∃ s, runSimulation S T.start timeBound = some (true, s) := by
  have hcase := runSimulation_cases S T timeBound
  generalize runSimulation S T.start timeBound = result at hcase
  -- a state in which there is work to do is before the end of the list
  have hbefore : ∀ {σ : List Nat} {t : Nat} {s : Sim S}, Reached S T.start timeBound t s →
      Tally T timeBound σ s → stillRunning s.processes = true →
        σ.length < ρ.length ∧ σ <+: ρ := by
    intro σ t s hs htally hrun
    rcases h.prefix htally with hpre | hpre
    · have hexact' := exact_of_prefix hexact hpre fun p hp => htally.count_le hs.initial hp
      rw [(htally.stillRunning_eq_false_iff hs.initial).mpr hexact'] at hrun
      cases hrun
    · exact hpre
  cases hcase with
  | @done N s _ _ => exact ⟨s, rfl⟩
  | timeUp hs hrun =>
    obtain ⟨σ, hσ, htally⟩ := hs.tally
    obtain ⟨hlt, -⟩ := hbefore hs htally hrun
    omega
  | stop hs htick =>
    obtain ⟨σ, rfl, htally⟩ := hs.reached.tally
    obtain ⟨hlt, hpre⟩ := hbefore hs.reached htally hs.running
    obtain ⟨p, hp, sched, hanswer, hcount⟩ := hs.stop_inv htally htick
    obtain ⟨⟨sched', hanswer'⟩, -⟩ := h σ.length _ _ hs (List.getElem?_eq_getElem hlt)
    rw [hanswer] at hanswer'
    have hpid : p.pid = ρ[σ.length] := congrArg Prod.fst (Option.some.inj hanswer')
    -- the list has this time step too
    have hpre' : σ ++ [p.pid] <+: ρ := by
      have htake := List.take_succ_eq_append_getElem hlt
      rw [← List.prefix_iff_eq_take.mp hpre, ← hpid] at htake
      rw [← htake]
      exact List.take_prefix _ _
    have hle := hpre'.sublist.count_le p.pid
    rw [hexact p hp] at hle
    exact absurd hcount (Nat.not_lt.mpr hle)
  | fault hs htick =>
    obtain ⟨σ, rfl, htally⟩ := hs.reached.tally
    obtain ⟨hlt, -⟩ := hbefore hs.reached htally hs.running
    obtain ⟨⟨sched, hanswer⟩, hpid⟩ := h σ.length _ _ hs (List.getElem?_eq_getElem hlt)
    exact absurd htick (hs.tick_ne_none hanswer hpid)

/-- When `run_simulation` returns `TRUE` the answers were exact. -/
theorem exact_of_runSimulation_true {s : Sim S}
    (h : runSimulation S T.start timeBound = some (true, s)) :
    ∃ σ, Reached S T.start timeBound σ.length s ∧ Tally T timeBound σ s ∧ Exact T σ := by
  have hcase := runSimulation_cases S T timeBound
  rw [h] at hcase
  cases hcase with
  | done hs hdone =>
    obtain ⟨σ, rfl, htally⟩ := hs.tally
    exact ⟨σ, hs, htally, (htally.stillRunning_eq_false_iff hs.initial).mp hdone⟩

end Cosc240
