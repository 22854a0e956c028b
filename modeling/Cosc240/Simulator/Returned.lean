import Cosc240.Simulator.AnyScheduler
import Cosc240.Simulator.Books

/-!
# What a run returns, and two runs side by side

`returned` is the list of the pids that the scheduler returns in a run of
`run_simulation` (simulator.c:177–221), one for each time step. For a scheduler that keeps its
books the table and this list determine everything the simulator computes.

- `returned_reached` and `returned_enters`: a reached state is that of the pids returned so far, and
  a time step returns the answer of the scheduler there.
- `Schedule.unique`: the table that a schedule leaves is determined by its pids.
- `runSimulation_makespan` and `runSimulation_returned`: the verdict and the number of time steps of
  a run, from the table alone.

Two such runs, of any two schedulers on any two tables:

- `SameOn`: two lists have the same entries from one position up to another.
- `Abreast`: where the two runs are at the start of a time step. Both get to it, with a relation `R`
  between the globals, or both have ended before.
- `Books.lockstep`: if the two runs have work to do at the same time steps, and related globals give
  the same answer and are related afterwards, then the two runs return the same on the interval.
-/

namespace Cosc240

/-- The pids that are returned in the time steps of a run. -/
def returned (S : Scheduler) (processes : List ProcessStats) (timeBound : UInt32) : List Nat :=
  match runSimulation S processes timeBound with
  | none => []
  | some (_, s) => s.trace.map Prod.snd

/-- The table a schedule leaves is determined by its pids. -/
theorem Schedule.unique {T : Table} {σ σ' : List Nat} {processes processes' : List ProcessStats}
    (h : Schedule T σ processes) (h' : Schedule T σ' processes') (heq : σ = σ') :
    processes = processes' := by
  induction h generalizing σ' processes' with
  | start =>
    cases h' with
    | start => rfl
    | tick _ _ _ => simp at heq
  | tick _ _ _ ih =>
    cases h' with
    | start => simp at heq
    | tick h' _ _ =>
      obtain ⟨rfl, hpid⟩ := List.append_inj' heq rfl
      cases hpid
      rw [ih h' rfl]

/-- The loop passes through the time steps one by one. -/
theorem Reached.exists_of_lt {S : Scheduler} {processes : List ProcessStats} {timeBound : UInt32}
    {t t' : Nat} {s : Sim S} (h : Reached S processes timeBound t s) (hlt : t' < t) :
    ∃ s', Reached S processes timeBound t' s' ∧ t' < timeBound.toNat ∧
      stillRunning s'.processes = true := by
  induction h with
  | start => exact absurd hlt (Nat.not_lt_zero t')
  | tick h hbound hrun _ ih =>
    rcases Nat.lt_succ_iff_lt_or_eq.mp hlt with hlt | rfl
    · exact ih hlt
    · exact ⟨_, h, hbound, hrun⟩

theorem map_snd_mapIdx (σ : List Nat) :
    (σ.mapIdx fun t pid => (t, pid)).map Prod.snd = σ := by
  refine List.ext_getElem (by simp) fun i hi hi' => ?_
  simp

namespace Books

variable {S : Scheduler} (B : Books S) {T : Table} {timeBound : UInt32}

include B in
/-- The verdict and the time steps of a run, from the table alone. -/
theorem runSimulation_makespan (T : Table) (timeBound : UInt32) :
    ∃ σ s, runSimulation S T.start timeBound =
        some (decide (T.makespan ≤ timeBound.toNat), s) ∧
      σ.length = min T.makespan timeBound.toNat ∧ Schedule T σ s.processes ∧
      s.trace = σ.mapIdx fun t pid => (t, pid) := by
  obtain ⟨N, s, hrun, hs, hend⟩ := B.runSimulation_eq T timeBound
  obtain ⟨σ, rfl, hσ, htrace⟩ := (B.agree_reached hs).trace
  have hle := hs.le_timeBound
  refine ⟨σ, s, ?_, ?_, hσ, htrace⟩
  · rw [hrun]
    cases hstill : stillRunning s.processes with
    | true =>
      -- the time bound stops the run before the makespan
      have hlt := hσ.lt_makespan hstill
      have hN := hend hstill
      rw [decide_eq_false (by omega)]
      rfl
    | false =>
      -- all work is done at the makespan
      have hM := hσ.makespan_eq hstill
      rw [decide_eq_true (by omega)]
      rfl
  · cases hstill : stillRunning s.processes with
    | true =>
      have hlt := hσ.lt_makespan hstill
      have hN := hend hstill
      omega
    | false =>
      have hM := hσ.makespan_eq hstill
      omega

include B in
/-- The same, for the returned pids. -/
theorem runSimulation_returned (T : Table) (timeBound : UInt32) :
    ∃ s, runSimulation S T.start timeBound =
        some (decide (T.makespan ≤ timeBound.toNat), s) ∧
      (returned S T.start timeBound).length = min T.makespan timeBound.toNat ∧
      Schedule T (returned S T.start timeBound) s.processes ∧
      s.trace = (returned S T.start timeBound).mapIdx fun t pid => (t, pid) := by
  obtain ⟨σ, s, hrun, hlen, hσ, htrace⟩ := B.runSimulation_makespan T timeBound
  have hret : returned S T.start timeBound = σ := by
    rw [returned, hrun]
    show s.trace.map Prod.snd = σ
    rw [htrace, map_snd_mapIdx]
  rw [hret]
  exact ⟨s, hrun, hlen, hσ, htrace⟩

include B in
/-- An earlier state of a run has the beginning of its schedule. -/
theorem schedule_take {t t' : Nat} {s s' : Sim S} (h : Reached S T.start timeBound t s)
    (h' : Reached S T.start timeBound t' s') (hle : t ≤ t') :
    ∃ σ : List Nat, σ.length = t' ∧ s'.output = .header :: σ.mapIdx Line.step ∧
      Schedule T (σ.take t) s.processes ∧ s.output = .header :: (σ.take t).mapIdx Line.step := by
  induction h' with
  | start =>
    cases Nat.le_zero.mp hle
    cases h.unique .start
    exact ⟨[], rfl, rfl, .start, rfl⟩
  | @tick t' s' s'' h' hbound hrun hstep ih =>
    rcases Nat.lt_or_eq_of_le hle with hlt | rfl
    · -- a time step after the earlier state appends its pid
      obtain ⟨σ, rfl, hout, htake⟩ := ih (Nat.le_of_lt_succ hlt)
      obtain ⟨pid, sched, -, -, htick, -⟩ := B.tick_agree (B.agree_reached h') hrun
      cases hstep.symm.trans htick
      refine ⟨σ ++ [pid], by simp, ?_, ?_⟩
      · rw [hout, List.mapIdx_append]
        simp
      · rw [List.take_append_of_le_length (Nat.le_of_lt_succ hlt)]
        exact htake
    · cases h.unique (.tick h' hbound hrun hstep)
      obtain ⟨σ, hlen, hσ, hout⟩ := (B.agree_reached h).schedule
      rw [← hlen]
      refine ⟨σ, rfl, hout, ?_⟩
      rw [List.take_length]
      exact ⟨hσ, hout⟩

include B in
/-- **A reached state** is that of the pids returned so far. -/
theorem returned_reached {t : Nat} {s : Sim S} (h : Reached S T.start timeBound t s) :
    t ≤ (returned S T.start timeBound).length ∧
      Schedule T ((returned S T.start timeBound).take t) s.processes ∧
      s.output = .header :: ((returned S T.start timeBound).take t).mapIdx Line.step := by
  obtain ⟨N, sN, hrun, hN, hend⟩ := B.runSimulation_eq T timeBound
  have hle : t ≤ N := by
    by_contra hlt
    have hN' := hend (hN.stillRunning_of_lt h (by omega))
    have hbound := h.le_timeBound
    omega
  obtain ⟨σ, hlen, hout, htake⟩ := B.schedule_take h hN hle
  have hret : returned S T.start timeBound = σ := by
    rw [returned, hrun]
    show sN.trace.map Prod.snd = σ
    rw [Sim.trace, hout, filterMap_step?, map_snd_mapIdx]
  rw [hret, hlen]
  exact ⟨hle, htake⟩

include B in
/-- **A time step** returns the answer of the scheduler, and goes on to the next
one. -/
theorem returned_enters {t : Nat} {s : Sim S} (h : Enters S T timeBound t s) :
    ∃ pid sched, s.answer t = some (pid, sched) ∧
      (returned S T.start timeBound)[t]? = some pid ∧
      Reached S T.start timeBound (t + 1)
        { processes := s.processes.map (ProcessStats.serve t pid), sched,
          output := s.output ++ [.step t pid] } := by
  obtain ⟨pid, sched, hnext, -, htick, -⟩ := B.tick_agree (B.agree_reached h.reached) h.running
  have hreach := Reached.tick h.reached h.bound h.running htick
  refine ⟨pid, sched, hnext, ?_, hreach⟩
  obtain ⟨-, -, hout⟩ := B.returned_reached h.reached
  obtain ⟨hlt, -, hout'⟩ := B.returned_reached hreach
  rw [List.take_succ_eq_append_getElem hlt, List.mapIdx_append, hout] at hout'
  rw [List.getElem?_eq_getElem hlt]
  simpa [Nat.min_eq_left (Nat.le_of_lt hlt)] using hout'.symm

include B in
theorem exists_enters {t : Nat} (hlt : t < (returned S T.start timeBound).length) :
    ∃ s, Enters S T timeBound t s := by
  obtain ⟨N, sN, hrun, hN, -⟩ := B.runSimulation_eq T timeBound
  have hlen : (returned S T.start timeBound).length = N := by
    obtain ⟨σ, hσ, -, htrace⟩ := (B.agree_reached hN).trace
    rw [returned, hrun]
    show (sN.trace.map Prod.snd).length = N
    rw [htrace, map_snd_mapIdx, hσ]
  rw [hlen] at hlt
  obtain ⟨s, hs, hbound, hstill⟩ := hN.exists_of_lt hlt
  exact ⟨s, hs, hbound, hstill⟩

include B in
/-- A run that lasts long enough does not end before the last arrival. -/
theorem enters_of_le {p : ProcessInitial} (hp : p ∈ T.processes) {t : Nat}
    (ht : t ≤ p.arrivalTime) (hbound : t < timeBound.toNat) :
    ∃ s, Enters S T timeBound t s := by
  refine B.exists_enters ?_
  by_contra hle
  obtain ⟨s, -, hlen, hσ, -⟩ := B.runSimulation_returned T timeBound
  -- the process has had nothing yet, so there is work to do
  obtain ⟨row, hrow, rfl⟩ := mem_rows hσ.initial hp
  have hzero := (hσ.rowOk row hrow).eq_zero_of_le (by omega)
  have hpos := T.processingTime_pos _ hp
  have hlt := hσ.lt_makespan (stillRunning_iff.mpr ⟨row, hrow, by omega⟩)
  omega

include B in
/-- Without work to do the run is over. -/
theorem length_returned_of_done {t : Nat} {s : Sim S} (h : Reached S T.start timeBound t s)
    (hdone : stillRunning s.processes = false) :
    (returned S T.start timeBound).length = t := by
  obtain ⟨hle, hσ, -⟩ := B.returned_reached h
  refine Nat.le_antisymm ?_ hle
  by_contra hlt
  obtain ⟨s', hs'⟩ := B.exists_enters (Nat.lt_of_not_le hlt)
  rw [h.unique hs'.reached, hs'.running] at hdone
  cases hdone

end Books

/-! ## Two runs side by side -/

/-- Two lists have the same entries from `a` up to `b`. -/
def SameOn (a b : Nat) (σ σ' : List Nat) : Prop := ∀ i, a ≤ i → i < b → σ[i]? = σ'[i]?

theorem SameOn.succ {a b : Nat} {σ σ' : List Nat} (h : SameOn a b σ σ') (hb : σ[b]? = σ'[b]?) :
    SameOn a (b + 1) σ σ' := by
  intro i ha hi
  rcases Nat.lt_succ_iff_lt_or_eq.mp hi with hi | rfl
  · exact h i ha hi
  · exact hb

theorem SameOn.take_eq {b : Nat} {σ σ' : List Nat} (h : SameOn 0 b σ σ') :
    σ.take b = σ'.take b := by
  refine List.ext_getElem? fun i => ?_
  rw [List.getElem?_take, List.getElem?_take]
  split
  · next hi => exact h i (Nat.zero_le i) hi
  · rfl

section Lockstep

variable {S S' : Scheduler} (B : Books S) (B' : Books S') {T T' : Table}
  {timeBound timeBound' : UInt32} {a b : Nat}

/-- Where the two runs are at the start of time step `k`, with `R` between the
globals of the schedulers: both get to it, or both have ended before. -/
inductive Abreast (S S' : Scheduler) (T T' : Table) (timeBound timeBound' : UInt32)
    (R : S.State → S'.State → Prop) (k : Nat) : Prop
  | going {s : Sim S} {s' : Sim S'} (h : Reached S T.start timeBound k s)
      (h' : Reached S' T'.start timeBound' k s') (hR : R s.sched s'.sched)
  | ended (h : (returned S T.start timeBound).length ≤ k)
      (h' : (returned S' T'.start timeBound').length ≤ k)

include B B' in
/-- One time step of two runs: they return the same, and both go on or both end. -/
theorem Books.abreast_succ {R R' : S.State → S'.State → Prop} {k : Nat}
    (hk : k < timeBound.toNat) (hk' : k < timeBound'.toNat)
    (habreast : Abreast S S' T T' timeBound timeBound' R k)
    (hrun : ∀ s s', Reached S T.start timeBound k s → Reached S' T'.start timeBound' k s' →
      stillRunning s.processes = stillRunning s'.processes)
    (hstep : ∀ s s' pid pid' sched sched', Enters S T timeBound k s →
      Enters S' T' timeBound' k s' → R s.sched s'.sched → s.answer k = some (pid, sched) →
      s'.answer k = some (pid', sched') → pid = pid' ∧ R' sched sched') :
    (returned S T.start timeBound)[k]? = (returned S' T'.start timeBound')[k]? ∧
      Abreast S S' T T' timeBound timeBound' R' (k + 1) := by
  have hended : (returned S T.start timeBound).length ≤ k →
      (returned S' T'.start timeBound').length ≤ k →
      (returned S T.start timeBound)[k]? = (returned S' T'.start timeBound')[k]? := by
    intro h h'
    rw [List.getElem?_eq_none h, List.getElem?_eq_none h']
  cases habreast with
  | ended h h' => exact ⟨hended h h', .ended (by omega) (by omega)⟩
  | @going s s' h h' hR =>
    have hstill := hrun s s' h h'
    cases hcase : stillRunning s.processes with
    | true =>
      rw [hcase] at hstill
      -- both runs take the time step
      have henters : Enters S T timeBound k s := ⟨h, hk, hcase⟩
      have henters' : Enters S' T' timeBound' k s' := ⟨h', hk', hstill.symm⟩
      obtain ⟨pid, sched, hanswer, hget, hreach⟩ := B.returned_enters henters
      obtain ⟨pid', sched', hanswer', hget', hreach'⟩ := B'.returned_enters henters'
      obtain ⟨rfl, hnext⟩ := hstep s s' pid pid' sched sched' henters henters' hR hanswer hanswer'
      exact ⟨hget.trans hget'.symm, .going hreach hreach' hnext⟩
    | false =>
      rw [hcase] at hstill
      -- both runs are over
      have hlen := (B.length_returned_of_done h hcase).le
      have hlen' := (B'.length_returned_of_done h' hstill.symm).le
      exact ⟨hended hlen hlen', .ended (by omega) (by omega)⟩

include B B' in
/-- **Two runs in lockstep.** `R k` relates the globals of the two schedulers at
the tick boundary before time step `k`. If the two runs have work to do at the
same time steps, and related globals give the same answer and are related
afterwards, then the two runs return the same from `a` up to `b`. -/
theorem Books.lockstep (hb : b ≤ timeBound.toNat) (hb' : b ≤ timeBound'.toNat)
    (R : Nat → S.State → S'.State → Prop)
    (hstart : ∃ s s', Reached S T.start timeBound a s ∧ Reached S' T'.start timeBound' a s' ∧
      R a s.sched s'.sched)
    (hrun : ∀ k s s', a ≤ k → k < b →
      SameOn a k (returned S T.start timeBound) (returned S' T'.start timeBound') →
      Reached S T.start timeBound k s → Reached S' T'.start timeBound' k s' →
      stillRunning s.processes = stillRunning s'.processes)
    (hstep : ∀ k s s' pid pid' sched sched', a ≤ k → k < b →
      SameOn a k (returned S T.start timeBound) (returned S' T'.start timeBound') →
      Enters S T timeBound k s → Enters S' T' timeBound' k s' → R k s.sched s'.sched →
      s.answer k = some (pid, sched) → s'.answer k = some (pid', sched') →
      pid = pid' ∧ (k + 1 < b → R (k + 1) sched sched')) :
    SameOn a b (returned S T.start timeBound) (returned S' T'.start timeBound') := by
  obtain ⟨s, s', hs, hs', hR⟩ := hstart
  -- the induction is on the time step: up to it the two runs return the same
  have hmain : ∀ k, a ≤ k → k ≤ b →
      SameOn a k (returned S T.start timeBound) (returned S' T'.start timeBound') ∧
      Abreast S S' T T' timeBound timeBound' (fun x x' => k < b → R k x x') k := by
    intro k hak
    induction k, hak using Nat.le_induction with
    | base =>
      intro _
      exact ⟨fun i ha hi => absurd hi (Nat.not_lt_of_le ha), .going hs hs' fun _ => hR⟩
    | succ k hak ih =>
      intro hkb
      obtain ⟨hsame, habreast⟩ := ih (Nat.le_of_succ_le hkb)
      obtain ⟨hget, hnext⟩ := B.abreast_succ B' (Nat.lt_of_lt_of_le hkb hb)
        (Nat.lt_of_lt_of_le hkb hb') habreast
        (fun s s' => hrun k s s' hak hkb hsame)
        (fun s s' pid pid' sched sched' h h' hR =>
          hstep k s s' pid pid' sched sched' hak hkb hsame h h' (hR hkb))
      exact ⟨hsame.succ hget, hnext⟩
  by_cases hab : a ≤ b
  · exact (hmain b hab (Nat.le_refl b)).1
  · exact fun i ha hi => absurd (Nat.le_of_lt (Nat.lt_of_le_of_lt ha hi)) hab

end Lockstep

end Cosc240
