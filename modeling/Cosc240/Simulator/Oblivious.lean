import Cosc240.Simulator.Books

/-!
# Two runs on permuted tables

`run_simulation` adds the arrivals of a time step in table order (simulator.c:183–187). Two runs
on permuted tables are compared through a view of the scheduler's state: what it
decides from. If arrivals of one time step commute in the view, the two runs
print the same.

- `Oblivious B`: a view of the state of a bookkeeping scheduler. It determines the answer and the
  view afterwards, and two arrivals of one time step with different pids commute in it.
- `Oblivious.ofState`: the state itself is a view, if arrivals commute in it.
- `Oblivious.Related`: two runs at one tick boundary. The tables are permutations of each other, the
  views and the output are equal.

Main results:

- `view_addArrivals`: the views agree once the arrivals of a time step are in, in whatever order.
- `view_answer`: the answers agree, and so do the views after them.
- `Oblivious.Related.tick` and `Oblivious.Related.runFrom`: one time step of both runs keeps the
  relation, and so do both runs to their ends.
-/

namespace Cosc240

/-- A view of a scheduler's state that determines what it does next, and in
which two arrivals of one time step commute. -/
structure Oblivious {S : Scheduler} (B : Books S) where
  View : Type
  view : S.State → View
  add : View → ProcessInitial → View
  view_add : ∀ s p, B.Ok s → ValidJobs (p.job :: B.contents s) →
    view (S.addToReadyQueue s p) = add (view s) p
  add_comm : ∀ v p q, p.arrivalTime = q.arrivalTime → p.pid ≠ q.pid →
    add (add v p) q = add (add v q) p
  view_next : ∀ s s' pid pid' s₁ s₁', B.Ok s → B.Ok s' → ValidJobs (B.contents s) →
    ValidJobs (B.contents s') → view s = view s' →
    S.getNextScheduledProcess s = some (pid, s₁) →
    S.getNextScheduledProcess s' = some (pid', s₁') → pid = pid' ∧ view s₁ = view s₁'

namespace Oblivious

variable {S : Scheduler} {B : Books S} (O : Oblivious B)

/-- The view after a list of arrivals. -/
theorem view_foldl (ps : List ProcessInitial) (s : S.State) (hok : B.Ok s)
    (hv : ValidJobs (ps.map ProcessInitial.job ++ B.contents s)) :
    O.view (ps.foldl S.addToReadyQueue s) = ps.foldl O.add (O.view s) := by
  induction ps using List.reverseRecOn with
  | nil => rfl
  | append_singleton ps p ih =>
    have hv' : ValidJobs (p.job :: (ps.map ProcessInitial.job ++ B.contents s)) := by
      refine hv.perm ?_
      rw [List.map_append, List.map_singleton, List.append_assoc]
      exact List.perm_middle
    have hv'' := hv'.sublist (List.sublist_cons_self _ _)
    obtain ⟨hok', hperm⟩ := B.foldl_add ps s hok hv''
    rw [List.foldl_append, List.foldl_append, List.foldl_cons, List.foldl_cons, List.foldl_nil,
      List.foldl_nil, O.view_add _ p hok' (hv'.perm (hperm.symm.cons _)), ih hv'']

/-- Two runs at one tick boundary. -/
structure Related (s s' : Sim S) : Prop where
  processes : s.processes.Perm s'.processes
  view : O.view s.sched = O.view s'.sched
  output : s.output = s'.output

theorem stillRunning_perm {processes processes' : List ProcessStats}
    (h : processes.Perm processes') : stillRunning processes = stillRunning processes' := by
  rw [Bool.eq_iff_iff, stillRunning_iff, stillRunning_iff]
  constructor
  · rintro ⟨p, hp, hlt⟩
    exact ⟨p, h.mem_iff.mp hp, hlt⟩
  · rintro ⟨p, hp, hlt⟩
    exact ⟨p, h.mem_iff.mpr hp, hlt⟩

variable {O} {T T' : Table}

/-- The views agree once the arrivals of a time step are in, in whatever order
they are. -/
theorem view_addArrivals {t : Nat} {s s' : Sim S} (h : Agree B T t s) (h' : Agree B T' t s')
    (hview : O.view s.sched = O.view s'.sched)
    (hperm : (arrivalsAt s.processes t).Perm (arrivalsAt s'.processes t)) :
    O.view (addArrivals S s.processes t s.sched) =
      O.view (addArrivals S s'.processes t s'.sched) := by
  -- two arrivals with one pid are the same process
  have hpids : ∀ p ∈ arrivalsAt s.processes t, ∀ q ∈ arrivalsAt s.processes t,
      p.pid = q.pid → p = q := by
    intro p hp q hq hpq
    obtain ⟨σ, -, hσ, -⟩ := h.schedule
    have hmem : ∀ p ∈ arrivalsAt s.processes t, p ∈ T.processes := fun p hp =>
      hσ.initial ▸ (mem_arrivalsAt.mp hp).1
    exact T.eq_of_pid_eq (hmem p hp) (hmem q hq) hpq
  rw [addArrivals_eq_foldl, addArrivals_eq_foldl, O.view_foldl _ _ h.ok (B.valid_arrivals h),
    O.view_foldl _ _ h'.ok (B.valid_arrivals h'), ← hview]
  refine hperm.foldl_eq' (fun p hp q hq v => ?_) _
  by_cases hpq : p.pid = q.pid
  · rw [hpids p hp q hq hpq]
  · exact O.add_comm v p q
      ((mem_arrivalsAt.mp hp).2.trans (mem_arrivalsAt.mp hq).2.symm) hpq

/-- **The answers agree**, and the views after them. -/
theorem view_answer {t pid pid' : Nat} {s s' : Sim S} {sched sched' : S.State}
    (h : Agree B T t s) (h' : Agree B T' t s') (hview : O.view s.sched = O.view s'.sched)
    (hperm : (arrivalsAt s.processes t).Perm (arrivalsAt s'.processes t))
    (hnext : S.getNextScheduledProcess (addArrivals S s.processes t s.sched) = some (pid, sched))
    (hnext' : S.getNextScheduledProcess (addArrivals S s'.processes t s'.sched) =
      some (pid', sched')) :
    pid = pid' ∧ O.view sched = O.view sched' :=
  O.view_next _ _ _ _ _ _ (B.agree_arrivals h).1 (B.agree_arrivals h').1
    (B.valid_addArrivals h) (B.valid_addArrivals h') (view_addArrivals h h' hview hperm)
    hnext hnext'

/-- **One time step of both runs.** -/
theorem Related.tick {t : Nat} {s s' : Sim S} (hrel : Related O s s') (h : Agree B T t s)
    (h' : Agree B T' t s') (hrun : stillRunning s.processes = true) :
    ∃ s₁ s₁', s.tick t = some (.next s₁) ∧ s'.tick t = some (.next s₁') ∧
      Agree B T (t + 1) s₁ ∧ Agree B T' (t + 1) s₁' ∧ Related O s₁ s₁' := by
  have hrun' : stillRunning s'.processes = true := stillRunning_perm hrel.processes ▸ hrun
  obtain ⟨pid, sched, hnext, -, htick, hagree⟩ := B.tick_agree h hrun
  obtain ⟨pid', sched', hnext', -, htick', hagree'⟩ := B.tick_agree h' hrun'
  obtain ⟨rfl, hview⟩ := view_answer h h' hrel.view ((hrel.processes.filter _).map _) hnext hnext'
  refine ⟨_, _, htick, htick', hagree, hagree', hrel.processes.map _, hview, ?_⟩
  rw [hrel.output]

/-- Both runs to their ends. -/
theorem Related.runFrom (left : Nat) {t : Nat} {s s' : Sim S} (hrel : Related O s s')
    (h : Agree B T t s) (h' : Agree B T' t s') :
    ∃ result s₁ s₁', runFrom left t s = some (result, s₁) ∧
      runFrom left t s' = some (result, s₁') ∧ Related O s₁ s₁' := by
  induction left generalizing t s s' with
  | zero =>
    refine ⟨!stillRunning s.processes, s, s', rfl, ?_, hrel⟩
    rw [Cosc240.runFrom, stillRunning_perm hrel.processes]
  | succ left ih =>
    by_cases hrun : stillRunning s.processes = true
    · have hrun' : stillRunning s'.processes = true := stillRunning_perm hrel.processes ▸ hrun
      obtain ⟨s₁, s₁', htick, htick', hagree, hagree', hrel₁⟩ := hrel.tick h h' hrun
      obtain ⟨result, s₂, s₂', hfrom, hfrom', hrel₂⟩ := ih hrel₁ hagree hagree'
      refine ⟨result, s₂, s₂', ?_, ?_, hrel₂⟩
      · rw [Cosc240.runFrom, if_pos hrun, htick]
        exact hfrom
      · rw [Cosc240.runFrom, if_pos hrun', htick']
        exact hfrom'
    · have hrun' : ¬ stillRunning s'.processes = true := stillRunning_perm hrel.processes ▸ hrun
      refine ⟨!stillRunning s.processes, s, s', ?_, ?_, hrel⟩
      · rw [Cosc240.runFrom, if_neg hrun]
      · rw [Cosc240.runFrom, if_neg hrun', stillRunning_perm hrel.processes]

end Oblivious

/-- The state itself is a view, if arrivals commute in it. -/
def Oblivious.ofState {S : Scheduler} (B : Books S)
    (add_comm : ∀ s p q, p.arrivalTime = q.arrivalTime → p.pid ≠ q.pid →
      S.addToReadyQueue (S.addToReadyQueue s p) q = S.addToReadyQueue (S.addToReadyQueue s q) p) :
    Oblivious B where
  View := S.State
  view s := s
  add := S.addToReadyQueue
  view_add _ _ _ _ := rfl
  add_comm := add_comm
  view_next s s' pid pid' s₁ s₁' _ _ _ _ hview hnext hnext' := by
    rw [hview, hnext', Option.some.injEq, Prod.mk.injEq] at hnext
    exact ⟨hnext.1.symm, hnext.2.symm⟩

end Cosc240
