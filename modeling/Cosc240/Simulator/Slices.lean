import Cosc240.Lib.SkipInsert
import Cosc240.Lib.Slices
import Cosc240.Simulator.Books

/-!
# Runs of a slice machine

A scheduler that keeps in step with a slice machine, one time step after the
other, makes `run_simulation` print the trace of the slice machine. What is left
to show for a scheduler is one time step.

- `Table.arrivals`: the arrivals of one time step in pid order, which is the order in which a sorted
  ready queue has them, although `run_simulation` adds them in the order of the table
  (simulator.c:183–187).
- `foldl_skipInsert_arrivals`: however they are added, they end up in pid order behind a list of
  older nodes.
- `Agree.arrivalTime_lt`: whatever a bookkeeping scheduler holds at a tick boundary is older than
  the arrivals of the next time step.

Main result:

- `Books.trace_eq_reference`: if a relation between the states of a scheduler and of a slice machine
  holds at the start and is kept by one time step of both, in which both put out the same pid, then
  the trace of every reached state is the reference of the slice machine, and the relation holds
  there.
-/

namespace Cosc240

open Lib

/-- The arrivals of one time step, in pid order. -/
def Table.arrivals (T : Table) (t : Nat) : List ProcessInitial :=
  (T.processes.filter fun p => p.arrivalTime = t).insertionSort fun p q => p.pid ≤ q.pid

section Arrivals

variable {T : Table} {processes : List ProcessStats}

theorem arrivalsAt_eq (hi : processes.map ProcessStats.initial = T.processes) (t : Nat) :
    arrivalsAt processes t = T.processes.filter fun p => p.arrivalTime = t := by
  rw [← hi, List.filter_map]
  rfl

theorem Table.mem_arrivals {t : Nat} {p : ProcessInitial} :
    p ∈ T.arrivals t ↔ p ∈ T.processes ∧ p.arrivalTime = t := by
  rw [Table.arrivals, (List.perm_insertionSort _ _).mem_iff, List.mem_filter, decide_eq_true_eq]

/-- However the arrivals are added, they end up in pid order behind a list of
older nodes. -/
theorem foldl_skipInsert_arrivals {α : Type} (f g : α → Nat) (new : ProcessInitial → α)
    (hi : processes.map ProcessStats.initial = T.processes)
    (hf : ∀ p, f (new p) = p.arrivalTime) (hg : ∀ p, g (new p) = p.pid) {t : Nat} {old : List α}
    (hold : ∀ a ∈ old, f a < t) :
    (arrivalsAt processes t).foldl (fun l p => skipInsert f g (new p) l) old =
      old ++ (T.arrivals t).map new := by
  have hnew : ∀ a ∈ (T.processes.filter fun p => p.arrivalTime = t).map new, f a = t := by
    intro a ha
    obtain ⟨p, hp, rfl⟩ := List.mem_map.mp ha
    rw [hf]
    exact of_decide_eq_true (List.mem_filter.mp hp).2
  have hpids : ((T.processes.filter fun p => p.arrivalTime = t).map new).Pairwise
      fun a b => g a ≠ g b := by
    refine List.pairwise_map.mpr ?_
    have hnd := T.pids_nodup.sublist
      ((List.filter_sublist (p := fun p => decide (p.arrivalTime = t))).map ProcessInitial.pid)
    refine (List.pairwise_map.mp hnd).imp fun hne => ?_
    rw [hg, hg]
    exact hne
  have hfold := foldl_skipInsert_eq hold hnew hpids
  rw [List.foldl_map] at hfold
  have hsort := List.map_insertionSort (fun p q : ProcessInitial => p.pid ≤ q.pid)
    (fun a b => g a ≤ g b) new (T.processes.filter fun p => p.arrivalTime = t)
    fun p _ q _ => by rw [hg, hg]
  rw [arrivalsAt_eq hi, hfold, Table.arrivals, hsort]

/-- Whatever a bookkeeping scheduler holds at a tick boundary is older than the
arrivals of the next time step. -/
theorem Agree.arrivalTime_lt {S : Scheduler} {B : Books S} {t : Nat} {s : Sim S}
    (h : Agree B T t s) {j : Job} (hj : j ∈ B.contents s.sched) : j.arrivalTime < t := by
  obtain ⟨p, hp, rfl⟩ := List.mem_map.mp (h.books.mem_iff.mp hj)
  exact (of_decide_eq_true (List.mem_filter.mp hp).2).1

end Arrivals

section Runs

variable {S : Scheduler} {σ ι : Type} {T : Table} {timeBound : UInt32}

open SliceMachine

/-- **Runs of a scheduler that keeps in step with a slice machine.** `R t`
relates their states at the tick boundary before time step `t`. -/
theorem Books.trace_eq_reference (B : Books S) {m : SliceMachine σ ι} {Good : σ → Prop}
    {GoodSlice : ι → Prop} (hm : m.Lawful Good GoodSlice) {q : σ} (hq : Good q)
    (R : Nat → S.State → Running σ ι → Prop) (hstart : R 0 S.init ⟨q, none⟩)
    (hstep : ∀ t s r, t < timeBound.toNat → Agree B T t s → R t s.sched r →
      r.Ok m Good GoodSlice →
      ∃ sched, S.getNextScheduledProcess (addArrivals S s.processes t s.sched) =
        some ((m.tick t r).1, sched) ∧ R (t + 1) sched (m.tick t r).2)
    {t : Nat} {s : Sim S} (h : Reached S T.start timeBound t s) :
    s.trace = (m.reference q t).mapIdx (fun t pid => (t, pid)) ∧
      R t s.sched (m.after t 0 ⟨q, none⟩) := by
  have hstartOk : Running.Ok m Good GoodSlice ⟨q, none⟩ := ⟨hq, fun _ _ h => by cases h⟩
  rw [← hm.outputs_eq_reference hq]
  induction h with
  | start => exact ⟨rfl, hstart⟩
  | @tick t s s' h hbound hrun hnext ih =>
    obtain ⟨htrace, hR⟩ := ih
    have hagree := B.agree_reached h
    obtain ⟨pid, sched, hget, -, htick, -⟩ := B.tick_agree hagree hrun
    obtain ⟨sched', hget', hR'⟩ := hstep t s _ hbound hagree hR (hm.after_ok hstartOk t 0)
    rw [hget, Option.some.injEq, Prod.mk.injEq] at hget'
    obtain ⟨rfl, rfl⟩ := hget'
    rw [hnext] at htick
    cases htick
    rw [outputs_succ, after_succ, Nat.zero_add]
    refine ⟨?_, hR'⟩
    have hlen : (m.outputs t 0 ⟨q, none⟩).length = t := by
      have h₁ := congrArg List.length htrace
      obtain ⟨σ, hσ, -, hσtrace⟩ := hagree.trace
      rw [hσtrace, List.length_mapIdx, List.length_mapIdx, hσ] at h₁
      exact h₁.symm
    rw [Sim.trace, List.filterMap_append, List.mapIdx_append, hlen, ← htrace]
    simp [Sim.trace, Line.step?]

end Runs

end Cosc240
