import Cosc240.Simulator.AnyScheduler
import Cosc240.Simulator.Books

/-!
# The scheduler between two calls

`run_simulation` calls `add_to_ready_queue` once for each arrival of a time
step, and then `get_next_scheduled_process` once (simulator.c:182–190). An invariant of a
scheduler has to hold between these calls as well, and not only at the tick boundaries.

- `CallState`: the states that the globals of a scheduler are in before, between and after the calls
  of a run.
- `Keeps`: a property of the globals that each of the two functions keeps, given that the books of
  the scheduler are in order.

Main results:

- `Keeps.reached`: such a property holds in every reached state.
- `Keeps.callState`: it holds at every call boundary, and the books are in order there. This is how
  the invariants of the single schedulers get to all states of their runs.
- `arrived`: the state in which `get_next_scheduled_process` is called is one of them.
-/

namespace Cosc240

/-- The globals of the scheduler at some call boundary of a run. -/
inductive CallState (S : Scheduler) (T : Table) (timeBound : UInt32) : S.State → Prop
  /-- At the start of a time step, or at the end of the run. -/
  | boundary {t : Nat} {s : Sim S} (h : Reached S T.start timeBound t s) :
      CallState S T timeBound s.sched
  /-- After some of the arrivals of a time step. -/
  | adding {t : Nat} {s : Sim S} {added rest : List ProcessInitial}
      (h : Enters S T timeBound t s) (hsplit : arrivalsAt s.processes t = added ++ rest) :
      CallState S T timeBound (added.foldl S.addToReadyQueue s.sched)
  /-- After the answer. -/
  | answered {t pid : Nat} {s : Sim S} {sched : S.State} (h : Enters S T timeBound t s)
      (hanswer : s.answer t = some (pid, sched)) : CallState S T timeBound sched

namespace CallState

variable {S : Scheduler} {T : Table} {timeBound : UInt32}

/-- The state in which `get_next_scheduled_process` is called. -/
theorem arrived {t : Nat} {s : Sim S} (h : Enters S T timeBound t s) :
    CallState S T timeBound (addArrivals S s.processes t s.sched) := by
  rw [addArrivals_eq_foldl]
  exact .adding h (List.append_nil _).symm

end CallState

/-- While the scheduler holds a process there is work to do. -/
theorem Agree.stillRunning_of_mem {S : Scheduler} {B : Books S} {T : Table} {t : Nat} {s : Sim S}
    (h : Agree B T t s) {j : Job} (hj : j ∈ B.contents s.sched) :
    stillRunning s.processes = true := by
  obtain ⟨p, hp, -⟩ := List.mem_map.mp (h.books.mem_iff.mp hj)
  obtain ⟨hp, hpending⟩ := List.mem_filter.mp hp
  exact stillRunning_iff.mpr ⟨p, hp, (of_decide_eq_true hpending).2⟩

namespace Books

variable {S : Scheduler} (B : Books S) {T : Table} {timeBound : UInt32}

/-- A property of the globals that each call keeps, whatever else is known of
them. -/
structure Keeps (P : S.State → Prop) : Prop where
  init : P S.init
  add : ∀ s p, B.Ok s → ValidJobs (p.job :: B.contents s) → P s → P (S.addToReadyQueue s p)
  next : ∀ s pid s', B.Ok s → ValidJobs (B.contents s) → P s →
    S.getNextScheduledProcess s = some (pid, s') → P s'

variable {B} {P : S.State → Prop}

/-- It is kept by any number of arrivals. -/
theorem Keeps.foldl (hP : B.Keeps P) (ps : List ProcessInitial) {s : S.State} (hok : B.Ok s)
    (hv : ValidJobs (ps.map ProcessInitial.job ++ B.contents s)) (hs : P s) :
    P (ps.foldl S.addToReadyQueue s) := by
  induction ps generalizing s with
  | nil => exact hs
  | cons p ps ih =>
    have hadd : ValidJobs (p.job :: B.contents s) :=
      hv.sublist ((List.sublist_append_right _ _).cons_cons _)
    refine ih (B.add_ok s p hok hadd) (hv.perm ?_) (hP.add s p hok hadd hs)
    exact List.perm_middle.symm.trans ((B.add_contents s p).symm.append_left _)

/-- **It holds in every reached state.** -/
theorem Keeps.reached (hP : B.Keeps P) {t : Nat} {s : Sim S}
    (h : Reached S T.start timeBound t s) : P s.sched := by
  induction h with
  | start => exact hP.init
  | @tick t s s' h _ hrun hstep ih =>
    have hagree := B.agree_reached h
    obtain ⟨pid, sched, hnext, -, htick, -⟩ := B.tick_agree hagree hrun
    cases hstep.symm.trans htick
    refine hP.next _ pid sched (B.agree_arrivals hagree).1 (B.valid_addArrivals hagree) ?_ hnext
    rw [addArrivals_eq_foldl]
    exact hP.foldl _ hagree.ok (B.valid_arrivals hagree) ih

/-- **It holds at every call boundary**, and there the books are in order. -/
theorem Keeps.callState (hP : B.Keeps P) {sched : S.State} (h : CallState S T timeBound sched) :
    P sched ∧ B.Ok sched ∧ ValidJobs (B.contents sched) := by
  cases h with
  | boundary h =>
    have hagree := B.agree_reached h
    exact ⟨hP.reached h, hagree.ok, B.valid_contents hagree⟩
  | @adding t s added rest h hsplit =>
    have hagree := B.agree_reached h.reached
    have hv := B.valid_arrivals hagree
    -- the arrivals so far are a prefix of those of the time step
    rw [hsplit, List.map_append, List.append_assoc] at hv
    have hadded : ValidJobs (added.map ProcessInitial.job ++ B.contents s.sched) :=
      hv.sublist ((List.sublist_append_right _ _).append_left _)
    obtain ⟨hok, hcontents⟩ := B.foldl_add added s.sched hagree.ok hadded
    exact ⟨hP.foldl added hagree.ok hadded (hP.reached h.reached), hok,
      hadded.perm hcontents.symm⟩
  | @answered t pid s sched h hanswer =>
    have hagree := B.agree_reached h.reached
    obtain ⟨pid', sched', hnext, -, htick, hagree'⟩ := B.tick_agree hagree h.running
    cases hanswer.symm.trans hnext
    exact ⟨hP.reached (.tick h.reached h.bound h.running htick), hagree'.ok,
      B.valid_contents hagree'⟩

end Books

end Cosc240
