import Cosc240.Schedulers.RrQuantum

/-!
# The list of `rr.c` is a queue

`add_to_ready_queue` (rr.c:71–103) walks past smaller arrival times and then past smaller pids,
as if `process_list` were sorted by the two. Rotations put the list out of order (rr.c:147–154),
but whatever is in it at a tick boundary is older than all that arrives later, and
that is enough: new processes go to the back, in pid order among themselves.

- `LinksIn`: a call of `add_to_ready_queue` puts the process behind all that arrived before, in pid
  order among the arrivals of its time step, and nothing else moves.
- `Ahead`, `LetsPass`, `Completed`: a process is ahead of another one in the list; a time step goes
  to it, and then it has completed or is behind the other.
- `FifoQueue`: first in, first out. All calls link in as above, and the order of two processes lasts
  until the first lets the second pass.

Main results:

- `linksIn_of_arrivals`: the insertion law, for each arrival of a time step.
- `ahead_step` and `ahead_or_letsPass`: the overtaking law, for one time step and for many.
- `fifo_of_unsorted`: `process_list` is a queue for every table and in every state of the run,
  although it is in general not sorted by arrival time.
-/

namespace Cosc240

open Lib

namespace Rr

variable {T : Table} {timeBound : UInt32} {t : Nat} {s : Sim scheduler}

/-! ## The statement -/

/-- A call of `add_to_ready_queue` in time step `t`: the process goes behind all that
arrived before `t`, in pid order among the arrivals of `t`, and nothing else moves. -/
def LinksIn (t : Nat) (process : ProcessInitial) (before after : List RrProcess) : Prop :=
  ∃ front back, before = front ++ back ∧ after = front ++ newQuantumProcess process :: back ∧
    (∀ q ∈ front, q.arrivalTime < t ∨ q.arrivalTime = t ∧ q.pid < process.pid) ∧
    ∀ q ∈ back, q.arrivalTime = t ∧ process.pid < q.pid

/-- `q` is ahead of `p` in the list. -/
def Ahead (q p : Nat) (l : List RrProcess) : Prop := [q, p].Sublist (l.map fun r => r.pid)

/-- The process `q` has all its time and has left the list. -/
def Completed (s : Sim scheduler) (q : Nat) : Prop :=
  (∃ r ∈ s.processes, r.initial.pid = q ∧ r.processedTime = r.initial.processingTime) ∧
    ∀ r ∈ processList s, r.pid ≠ q

/-- Time step `u` goes to `q`, which then has completed or is behind `p`. -/
def LetsPass (T : Table) (timeBound : UInt32) (q p u : Nat) : Prop :=
  ∃ s s', Enters scheduler T timeBound u s ∧ s.tick u = some (.next s') ∧
    s.answer u = some (q, s'.sched) ∧ (Completed s' q ∨ Ahead p q (processList s'))

/-- First in, first out. -/
structure FifoQueue (T : Table) (timeBound : UInt32) : Prop where
  add : ∀ {t : Nat} {s : Sim scheduler} {added rest : List ProcessInitial}
    {process : ProcessInitial}, Enters scheduler T timeBound t s →
    arrivalsAt s.processes t = added ++ process :: rest →
    LinksIn t process (added.foldl addToReadyQueue (processList s))
      (addToReadyQueue (added.foldl addToReadyQueue (processList s)) process)
  returned : ∀ {t t' : Nat} {s s' : Sim scheduler} {q p : Nat} {sched : List RrProcess},
    Reached scheduler T.start timeBound t s → Ahead q p (processList s) → t ≤ t' →
    Enters scheduler T timeBound t' s' → s'.answer t' = some (p, sched) →
    ∃ u, t ≤ u ∧ u < t' ∧ LetsPass T timeBound q p u

/-! ## Arrivals -/

/-- The arrivals of a time step that are in already are sorted by pid, and the list
of the tick boundary is in front of them. -/
theorem foldl_added {added rest : List ProcessInitial}
    (h : Reached scheduler T.start timeBound t s)
    (hsplit : arrivalsAt s.processes t = added ++ rest) :
    ∃ new : List RrProcess,
      added.foldl addToReadyQueue (processList s) = processList s ++ new ∧
      (∀ x ∈ new, x.arrivalTime = t) ∧
      new.Pairwise (KeyLt (fun p => p.arrivalTime) fun p => p.pid) := by
  have hadded : ∀ x ∈ added.map newQuantumProcess, x.arrivalTime = t := by
    intro x hx
    obtain ⟨p, hp, rfl⟩ := List.mem_map.mp hx
    have hmem : p ∈ arrivalsAt s.processes t := hsplit ▸ List.mem_append_left _ hp
    exact (mem_arrivalsAt.mp hmem).2
  have hpids : (added.map newQuantumProcess).Pairwise fun a b => a.pid ≠ b.pid := by
    have hnodup : (arrivalsAt s.processes t).Pairwise fun p q => p.pid ≠ q.pid := by
      rw [arrivalsAt_eq h.initial]
      exact (List.pairwise_map.mp T.pids_nodup).sublist List.filter_sublist
    rw [hsplit] at hnodup
    exact List.pairwise_map.mpr (List.pairwise_append.mp hnodup).1
  have hfold := foldl_skipInsert_append (f := fun p : RrProcess => p.arrivalTime)
    (g := fun p : RrProcess => p.pid) (arrivalTime_lt h) hadded []
  rw [List.foldl_map, List.append_nil] at hfold
  refine ⟨_, hfold, ?_, ?_⟩
  · intro x hx
    have hperm := foldl_skipInsert_perm (f := fun p : RrProcess => p.arrivalTime)
      (g := fun p : RrProcess => p.pid) (added.map newQuantumProcess) []
    rw [List.append_nil] at hperm
    exact hadded x (hperm.mem_iff.mp hx)
  · exact foldl_skipInsert_sorted .nil hpids fun _ _ _ hy => by cases hy

/-- The call for the next of them. -/
theorem linksIn_of_arrivals {added rest : List ProcessInitial} {process : ProcessInitial}
    (h : Enters scheduler T timeBound t s)
    (hsplit : arrivalsAt s.processes t = added ++ process :: rest) :
    LinksIn t process (added.foldl addToReadyQueue (processList s))
      (addToReadyQueue (added.foldl addToReadyQueue (processList s)) process) := by
  obtain ⟨new, hbefore, -, -⟩ := foldl_added h.reached hsplit
  have hsplit' : arrivalsAt s.processes t = added ++ [process] ++ rest := by
    rw [hsplit, List.append_assoc, List.singleton_append]
  obtain ⟨new', hafter, harrival, hsorted⟩ := foldl_added h.reached hsplit'
  rw [List.foldl_append, List.foldl_cons, List.foldl_nil] at hafter
  rw [hafter, hbefore]
  rw [hbefore] at hafter
  -- the walk passes the whole list of the tick boundary
  have hold : ∀ q ∈ processList s, q.arrivalTime < (newQuantumProcess process).arrivalTime := by
    intro q hq
    have hmem : process ∈ arrivalsAt s.processes t := by simp [hsplit]
    show q.arrivalTime < process.arrivalTime
    rw [(mem_arrivalsAt.mp hmem).2]
    exact arrivalTime_lt h.reached q hq
  obtain ⟨front, back, rfl, hinsert⟩ := skipInsert_eq_append
    (f := fun p : RrProcess => p.arrivalTime) (g := fun p : RrProcess => p.pid)
    (newQuantumProcess process) new
  obtain rfl : new' = front ++ newQuantumProcess process :: back := by
    rw [← hinsert]
    exact List.append_cancel_left (hafter.symm.trans (skipInsert_append hold))
  have hprocess := harrival (newQuantumProcess process) (by simp)
  obtain ⟨-, hback, hfront⟩ := List.pairwise_append.mp hsorted
  refine ⟨processList s ++ front, back, ?_, ?_, ?_, ?_⟩
  · rw [List.append_assoc]
  · rw [List.append_assoc]
  · intro q hq
    rcases List.mem_append.mp hq with hq | hq
    · exact .inl (arrivalTime_lt h.reached q hq)
    · have hq' := harrival q (List.mem_append_left _ hq)
      exact .inr ⟨hq', (hfront q hq _ List.mem_cons_self).secondary_lt (hq'.trans hprocess.symm)⟩
  · intro q hq
    have hq' := harrival q (List.mem_append_right _ (List.mem_cons_of_mem _ hq))
    exact ⟨hq', ((List.pairwise_cons.mp hback).1 q hq).secondary_lt (hprocess.trans hq'.symm)⟩

/-! ## One time step -/

/-- `process_list` when the call is made contains it at the tick boundary. -/
theorem Ahead.queue {q p : Nat} (h : Reached scheduler T.start timeBound t s)
    (hahead : Ahead q p (processList s)) : Ahead q p (queue s t) := by
  rw [queue_eq h, Ahead, List.map_append]
  exact hahead.trans (List.sublist_append_left _ _)

/-- The row of a process that is in the list. -/
theorem exists_row {p : RrProcess} (h : Enters scheduler T timeBound t s) (hp : p ∈ queue s t) :
    ∃ r ∈ s.processes, r.initial.pid = p.pid ∧ r.processedTime = p.processedTime ∧
      r.initial.processingTime = p.processingTime := by
  obtain ⟨-, hcontents⟩ := books.agree_arrivals (books.agree_reached h.reached)
  have hmem : p.toJob ∈ pendingJobs t s.processes :=
    hcontents.mem_iff.mp (List.mem_map_of_mem (f := QuantumProcess.toJob) hp)
  obtain ⟨r, hr, -, hjob⟩ := mem_pendingJobs.mp hmem
  exact ⟨r, hr, congrArg Job.pid hjob, congrArg Job.processedTime hjob,
    congrArg Job.processingTime hjob⟩

/-- What a time step does to table and list. -/
theorem tick_eq (h : Enters scheduler T timeBound t s) :
    ∃ s', s.tick t = some (.next s') ∧
      s.answer t = some ((getNextScheduledProcess (queue s t)).1, s'.sched) ∧
      processList s' = (getNextScheduledProcess (queue s t)).2 ∧
      s'.processes =
        s.processes.map (ProcessStats.serve t (getNextScheduledProcess (queue s t)).1) := by
  obtain ⟨pid, sched, hnext, -, htick, -⟩ :=
    books.tick_agree (books.agree_reached h.reached) h.running
  have hcall : getNextScheduledProcess (queue s t) = (pid, sched) := Option.some.inj hnext
  refine ⟨_, htick, hnext.trans ?_, ?_, ?_⟩
  · rw [hcall]
  · rw [hcall]
    rfl
  · rw [hcall]

/-- The head of the list after its last unit of time. -/
theorem completed_of_head {p : RrProcess} {rest : List RrProcess} {s' : Sim scheduler}
    (h : Enters scheduler T timeBound t s) (hqueue : queue s t = p :: rest)
    (hdone : p.processedTime + 1 = p.processingTime) (hlist : processList s' = rest)
    (hrows : s'.processes = s.processes.map (ProcessStats.serve t p.pid)) : Completed s' p.pid := by
  constructor
  · obtain ⟨r, hr, hpid, hprocessed, hprocessing⟩ :=
      exists_row h (p := p) (hqueue ▸ List.mem_cons_self)
    refine ⟨r.serve t p.pid, hrows ▸ List.mem_map_of_mem hr, ?_, ?_⟩
    · rw [ProcessStats.serve_initial, hpid]
    · rw [ProcessStats.serve_initial, ProcessStats.serve, if_pos hpid, hprocessing, hprocessed]
      exact hdone
  · rw [hlist]
    exact (head_ok h hqueue).2.2.2

/-- Where the head of the list stands among the two. -/
theorem Ahead.cases {q p : Nat} {r : RrProcess} {rest : List RrProcess}
    (h : Ahead q p (r :: rest)) :
    (∃ r' ∈ rest, r'.pid = p) ∧ (Ahead q p rest ∨ r.pid = q) := by
  rw [Ahead, List.map_cons, List.sublist_cons_iff] at h
  rcases h with hrest | ⟨l, hl, hrest⟩
  · refine ⟨List.mem_map.mp (hrest.subset ?_), .inl hrest⟩
    exact List.mem_cons_of_mem _ List.mem_cons_self
  · obtain ⟨rfl, rfl⟩ := List.cons.inj hl
    exact ⟨List.mem_map.mp (hrest.subset List.mem_cons_self), .inr rfl⟩

/-- Behind the head, and at the back of the list. -/
theorem ahead_append {q p : Nat} {x : RrProcess} {rest : List RrProcess}
    (hp : ∃ r ∈ rest, r.pid = p) (hx : x.pid = q) : Ahead p q (rest ++ [x]) := by
  rw [Ahead, List.map_append]
  have hfront : [p].Sublist (rest.map fun r => r.pid) :=
    List.singleton_sublist.mpr (List.mem_map.mpr hp)
  rw [List.map_singleton, hx]
  exact hfront.append (List.Sublist.refl [q])

theorem ahead_cons {q p : Nat} {x : RrProcess} {rest : List RrProcess}
    (hp : ∃ r ∈ rest, r.pid = p) (hx : x.pid = q) : Ahead q p (x :: rest) := by
  rw [Ahead, List.map_cons, hx]
  exact (List.singleton_sublist.mpr (List.mem_map.mpr hp)).cons_cons q

/-- **One time step.** A process that is ahead stays ahead or lets the other pass, and
the one behind is not returned. -/
theorem ahead_step {q p : Nat} (h : Enters scheduler T timeBound t s)
    (hahead : Ahead q p (processList s)) :
    ∃ s' pid, s.tick t = some (.next s') ∧ s.answer t = some (pid, s'.sched) ∧ pid ≠ p ∧
      (Ahead q p (processList s') ∨ LetsPass T timeBound q p t) := by
  obtain ⟨s', htick, hanswer, hlist, hrows⟩ := tick_eq h
  have hmem := hahead.queue h.reached
  cases hqueue : queue s t with
  | nil =>
    rw [hqueue] at hmem
    exact absurd hmem.length_le (by simp)
  | cons r rest =>
    obtain ⟨hlt, hle, hreset, hother⟩ := head_ok h hqueue
    rw [hqueue, getNextScheduledProcess_fst] at hanswer hrows
    rw [hqueue] at hmem hlist
    obtain ⟨hp, hq⟩ := hmem.cases
    refine ⟨s', r.pid, htick, hanswer, ?_, ?_⟩
    · obtain ⟨r', hr', rfl⟩ := hp
      exact (hother r' hr').symm
    · rcases next_cases rest hlt hle hreset with ⟨hdone, hcall⟩ | ⟨-, -, hcall⟩ | ⟨-, -, hcall⟩
      · -- the head completes
        rw [hcall] at hlist
        rcases hq with hq | rfl
        · exact .inl (hlist ▸ hq)
        · have hcompleted := completed_of_head h hqueue hdone hlist hrows
          exact .inr ⟨s, s', h, htick, hanswer, .inl hcompleted⟩
      · -- it goes to the back
        rw [hcall] at hlist
        rcases hq with hq | rfl
        · refine .inl (hlist ▸ ?_)
          rw [Ahead, List.map_append]
          exact hq.trans (List.sublist_append_left _ _)
        · refine .inr ⟨s, s', h, htick, hanswer, .inr (hlist ▸ ?_)⟩
          exact ahead_append hp r.execute_pid
      · -- it stays
        rw [hcall] at hlist
        refine .inl (hlist ▸ ?_)
        rcases hq with hq | rfl
        · exact hq.trans (List.sublist_cons_self _ _)
        · exact ahead_cons hp r.execute_pid

/-! ## Runs -/

/-- The order of two processes lasts until the first lets the second pass. -/
theorem ahead_or_letsPass {q p t' : Nat} {s' : Sim scheduler}
    (h : Reached scheduler T.start timeBound t s) (hahead : Ahead q p (processList s))
    (h' : Reached scheduler T.start timeBound t' s') (hle : t ≤ t') :
    Ahead q p (processList s') ∨ ∃ u, t ≤ u ∧ u < t' ∧ LetsPass T timeBound q p u := by
  induction h' with
  | start =>
    obtain rfl : t = 0 := Nat.le_zero.mp hle
    exact .inl (h.unique .start ▸ hahead)
  | @tick t' s₁ s₂ h' hbound hrun hstep ih =>
    rcases Nat.lt_or_eq_of_le hle with hlt | rfl
    · rcases ih (Nat.le_of_lt_succ hlt) with hahead' | ⟨u, hu, hu', hpass⟩
      · obtain ⟨s₂', -, htick, -, -, hnext⟩ := ahead_step ⟨h', hbound, hrun⟩ hahead'
        cases hstep.symm.trans htick
        rcases hnext with hahead'' | hpass
        · exact .inl hahead''
        · exact .inr ⟨t', Nat.le_of_lt_succ hlt, Nat.lt_succ_self t', hpass⟩
      · exact .inr ⟨u, hu, Nat.lt_succ_of_lt hu', hpass⟩
    · exact .inl (h.unique (.tick h' hbound hrun hstep) ▸ hahead)

theorem fifo_queue (T : Table) (timeBound : UInt32) : FifoQueue T timeBound where
  add := linksIn_of_arrivals
  returned := by
    intro t t' s s' q p sched h hahead hle h' hanswer
    rcases ahead_or_letsPass h hahead h'.reached hle with hahead' | hpass
    · -- the process at the head is another one
      obtain ⟨s₁, pid, -, hanswer', hne, -⟩ := ahead_step h' hahead'
      rw [hanswer] at hanswer'
      exact absurd (congrArg Prod.fst (Option.some.inj hanswer')).symm hne
    · exact hpass

/-- A long process that comes first, and one that arrives in its first quantum. -/
def rotated : Table where
  processes := [⟨1, 4, 0⟩, ⟨2, 4, 1⟩]
  nonempty := by decide
  pids_nodup := by decide
  pid_pos := by decide
  pid_lt := by decide
  arrivalTime_lt := by decide
  processingTime_pos := by decide
  processingTime_lt := by decide

/-- **`process_list` is a queue**, for every table and in every state of the run, although
it is in general not sorted by arrival time. -/
theorem fifo_of_unsorted : (∀ T timeBound, FifoQueue T timeBound) ∧
    ∃ (T : Table) (timeBound : UInt32) (t : Nat) (s : Sim scheduler),
      Reached scheduler T.start timeBound t s ∧
        ¬ (processList s).Pairwise fun p q => p.arrivalTime ≤ q.arrivalTime := by
  refine ⟨fifo_queue, rotated, 20, 3, _,
    .tick (.tick (.tick .start (by decide) rfl rfl) (by decide) rfl rfl) (by decide) rfl rfl, ?_⟩
  decide

end Rr

end Cosc240
