import Cosc240.Simulator.Returned
import Cosc240.Simulator.Slices

/-!
# Schedulers that are a queue

While no process outlasts its first slice, a scheduler with several queues or
with rotation serves its processes one after the other, in the order in which
they were added. `Fifo` says that for processes up to a given length.

- `serveFirst`: one time step for the first node of a queue, the pid and what is left.
- `Fifo B limit`: a bookkeeping scheduler that is a queue as long as no process needs more than
  `limit`. Its nodes, as a list, are what `serveFirst` leaves of them, and a call returns its pid.

Main results:

- `Fifo.answer`: in a run on a table of such processes, a time step is one step of the queue behind
  the arrivals.
- `Fifo.returned_eq`: two such schedulers return the same pids.
- `Fifo.runSimulation_same`: they run the table in the same way, with the same result, trace and
  rows. The proof is a run of both side by side, with the equality of their queues as the relation.
-/

namespace Cosc240

/-- One time step for the first node of the queue: the pid, and what is left. -/
def serveFirst : List Job → Nat × List Job
  | [] => (0, [])
  | j :: rest => (j.pid, j.served ++ rest)

/-- A scheduler that is a queue, as long as no process needs more than `limit`. -/
structure Fifo {S : Scheduler} (B : Books S) (limit : Nat) where
  /-- The nodes, in the order in which they will be served. -/
  line : S.State → List Job
  Good : S.State → Prop
  init_good : Good S.init
  init_line : line S.init = []
  line_perm : ∀ s, Good s → (B.contents s).Perm (line s)
  arrivals_good : ∀ {T : Table} {t : Nat} {s : Sim S}, Agree B T t s → Good s.sched →
    Good (addArrivals S s.processes t s.sched)
  arrivals_line : ∀ {T : Table} {t : Nat} {s : Sim S}, Agree B T t s → Good s.sched →
    line (addArrivals S s.processes t s.sched) =
      line s.sched ++ (T.arrivals t).map ProcessInitial.job
  next : ∀ s pid s', B.Ok s → ValidJobs (B.contents s) → Good s →
    (∀ j ∈ line s, j.processingTime ≤ limit) → S.getNextScheduledProcess s = some (pid, s') →
    Good s' ∧ (pid, line s') = serveFirst (line s)

namespace Fifo

variable {S S' : Scheduler} {B : Books S} {B' : Books S'} {limit limit' : Nat} {T : Table}
  {timeBound : UInt32}

/-- No node in the queue needs more than the longest process of the table. -/
theorem line_le (F : Fifo B limit) (hT : ∀ p ∈ T.processes, p.processingTime ≤ limit) {t : Nat}
    {s : Sim S} (h : Agree B T t s) (hgood : F.Good s.sched) :
    ∀ j ∈ F.line (addArrivals S s.processes t s.sched), j.processingTime ≤ limit := by
  intro j hj
  obtain ⟨σ, -, hσ, -⟩ := h.schedule
  have hmem := (F.line_perm _ (F.arrivals_good h hgood)).mem_iff.mpr hj
  obtain ⟨p, hp, -, rfl⟩ := mem_pendingJobs.mp ((B.agree_arrivals h).2.mem_iff.mp hmem)
  exact hT p.initial (initial_mem hσ.initial hp)

/-- **One time step** is one step of the queue behind the arrivals. -/
theorem answer (F : Fifo B limit) (hT : ∀ p ∈ T.processes, p.processingTime ≤ limit) {t : Nat}
    {s : Sim S} (h : Agree B T t s) (hgood : F.Good s.sched) {pid : Nat} {sched : S.State}
    (hanswer : s.answer t = some (pid, sched)) :
    F.Good sched ∧ (pid, F.line sched) =
      serveFirst (F.line s.sched ++ (T.arrivals t).map ProcessInitial.job) := by
  rw [← F.arrivals_line h hgood]
  exact F.next _ pid sched (B.agree_arrivals h).1 (B.valid_addArrivals h)
    (F.arrivals_good h hgood) (F.line_le hT h hgood) hanswer

/-- **Two queues** return the same pids. -/
theorem returned_eq (F : Fifo B limit) (F' : Fifo B' limit')
    (hT : ∀ p ∈ T.processes, p.processingTime ≤ limit)
    (hT' : ∀ p ∈ T.processes, p.processingTime ≤ limit') (timeBound : UInt32) :
    returned S T.start timeBound = returned S' T.start timeBound := by
  have hsame : SameOn 0 timeBound.toNat (returned S T.start timeBound)
      (returned S' T.start timeBound) := by
    refine B.lockstep B' (Nat.le_refl _) (Nat.le_refl _)
      (fun _ s s' => F.Good s ∧ F'.Good s' ∧ F.line s = F'.line s')
      ⟨_, _, .start, .start, F.init_good, F'.init_good, F.init_line.trans F'.init_line.symm⟩ ?_ ?_
    · -- the pids so far determine the tables
      intro k s s' _ _ hsame hs hs'
      have hσ := (B.returned_reached hs).2.1
      have hσ' := (B'.returned_reached hs').2.1
      rw [hσ.unique hσ' hsame.take_eq]
    · -- equal lines have the same first node, and are equal after the time step
      rintro k s s' pid pid' sched sched' - - - hs hs' ⟨hgood, hgood', hline⟩ hanswer hanswer'
      obtain ⟨hgood, hnext⟩ := F.answer hT (B.agree_reached hs.reached) hgood hanswer
      obtain ⟨hgood', hnext'⟩ := F'.answer hT' (B'.agree_reached hs'.reached) hgood' hanswer'
      rw [hline, ← hnext', Prod.mk.injEq] at hnext
      exact ⟨hnext.1, fun _ => ⟨hgood, hgood', hnext.2⟩⟩
  obtain ⟨-, -, hlen, -, -⟩ := B.runSimulation_returned T timeBound
  obtain ⟨-, -, hlen', -, -⟩ := B'.runSimulation_returned T timeBound
  refine List.ext_getElem? fun i => ?_
  by_cases hi : i < timeBound.toNat
  · exact hsame i (Nat.zero_le i) hi
  · -- beyond the time bound nothing is returned
    rw [List.getElem?_eq_none (by omega), List.getElem?_eq_none (by omega)]

/-- **They run the table in the same way.** -/
theorem runSimulation_same (F : Fifo B limit) (F' : Fifo B' limit')
    (hT : ∀ p ∈ T.processes, p.processingTime ≤ limit)
    (hT' : ∀ p ∈ T.processes, p.processingTime ≤ limit') (timeBound : UInt32) :
    ∃ result s s', runSimulation S T.start timeBound = some (result, s) ∧
      runSimulation S' T.start timeBound = some (result, s') ∧
      s.trace = s'.trace ∧ s.processes = s'.processes := by
  obtain ⟨s, hrun, -, hσ, htrace⟩ := B.runSimulation_returned T timeBound
  obtain ⟨s', hrun', -, hσ', htrace'⟩ := B'.runSimulation_returned T timeBound
  have heq := F.returned_eq F' hT hT' timeBound
  refine ⟨_, s, s', hrun, hrun', ?_, hσ.unique hσ' heq⟩
  rw [htrace, htrace', heq]

end Fifo

end Cosc240
