import Cosc240.Schedulers.Algorithms
import Cosc240.Schedulers.CustomProgramRefines
import Cosc240.Schedulers.FcfsProgram
import Cosc240.Schedulers.MlfqProgram
import Cosc240.Schedulers.RrProgram

/-!
# The five schedulers in memory

With any allocator, and loops that can take more steps than there are processes, each
`scheduler.c` as it is in memory does what the one on lists does, so that whatever is shown
of the latter holds of the former. In every state of a run it has allocated one node for each
process that has arrived and is not complete, and `custom.c` a history as well; the only thing
that is never freed is the sentinel of these histories (custom.c:51–84, 103–118).

- `Algorithm.program`: each file in memory, from `FcfsProgram`, `RrProgram`, `MlfqProgram` and
  `CustomProgram`.
- `Algorithm.implements`: each program implements the scheduler on lists, in the sense of
  `Implements`.
- `Algorithm.inUse` and `Algorithm.sentinelAddrs`: the addresses that are in use, and those among
  them that hold the sentinels.
- `Algorithm.ncard_inUse`: with `n` processes in the queues, so much is in use.

Main results:

- `runSimulation_inMemory`: `run_simulation` with a scheduler in memory never faults, and returns,
  prints and leaves what it does with the scheduler on lists.
- `inUse_reached`: what is in use in each state of a run, counted.
- `inUse_of_true`: at the end of a run that completes all processes, the addresses in use are those
  of the sentinels.
-/

namespace Cosc240

open Lib LinkedList

variable (D : Type) [DoubleArith D]

namespace Algorithm

/-- How many nodes are not allocated at run time. -/
def sentinels : Algorithm → Nat
  | fcfs => 1
  | rr => 1
  | constant => 4
  | exponential => 4
  | custom => 2

/-- Each file in memory. -/
def program : (a : Algorithm) → (A : Allocator {x | x < a.sentinels}) → (steps : Nat) → Program
  | fcfs => FcfsProgram.program
  | rr => RrProgram.program
  | constant => ConstantProgram.program
  | exponential => ExponentialProgram.program
  | custom => CustomProgram.program D

/-- The addresses that are in use. -/
def inUse : (a : Algorithm) → (A : Allocator {x | x < a.sentinels}) → (steps : Nat) →
    (a.program D A steps).Memory → Set Nat
  | fcfs => fun A _ (m : NodeMemory A FcfsProcess) => A.live m.allocator
  | rr => fun A _ (m : NodeMemory A RrProcess) => A.live m.allocator
  | constant => fun A _ (m : MlfqProgram.Globals A) => A.live m.allocator
  | exponential => fun A _ (m : MlfqProgram.Globals A) => A.live m.allocator
  | custom => fun A _ (m : CustomProgram.Globals D A) => A.live m.allocator

/-- The addresses of the sentinels: those that are not allocated at run time, and that of
`custom.c` in front of its histories. -/
def sentinelAddrs : (a : Algorithm) → (A : Allocator {x | x < a.sentinels}) → (steps : Nat) →
    (a.program D A steps).Memory → Set Nat
  | fcfs => fun _ _ _ => {x | x < 1}
  | rr => fun _ _ _ => {x | x < 1}
  | constant => fun _ _ _ => {x | x < 4}
  | exponential => fun _ _ _ => {x | x < 4}
  | custom => fun A _ (m : CustomProgram.Globals D A) =>
    {x | x < 2} ∪ {x | m.processHistories = some x}

/-- **Each program implements the scheduler on lists.** -/
def implements : (a : Algorithm) → (A : Allocator {x | x < a.sentinels}) → {bound steps : Nat} →
    bound < steps → Implements (a.program D A steps) (a.books D) bound
  | fcfs => FcfsProgram.implements
  | rr => RrProgram.implements
  | constant => MlfqProgram.implements Constant.sliceLength
  | exponential => MlfqProgram.implements Exponential.sliceLength
  | custom => CustomProgram.implements D

/-- How many addresses should be in use with `n` processes in the queues: `histories` says
whether the sentinel of the histories is there. -/
def expected (histories : Prop) [Decidable histories] (n : Nat) : Algorithm → Nat
  | fcfs => 1 + n
  | rr => 1 + n
  | constant => 4 + n
  | exponential => 4 + n
  | custom => 2 + n + n + if histories then 1 else 0

end Algorithm

/-! ## What is in use -/

section InUse

variable {D}

theorem ncard_lt (n : Nat) : ({x | x < n} : Set Nat).ncard = n :=
  (ncard_eq_length (l := List.range n) List.nodup_range fun _ => List.mem_range.symm).1.trans
    List.length_range

theorem FcfsProgram.Holds.ncard {A : Allocator {x | x < 1}} {m : NodeMemory A FcfsProcess}
    {processes : List FcfsProcess} (hm : FcfsProgram.Holds m processes) :
    (A.live m.allocator).ncard = 1 + processes.length := by
  obtain ⟨cells, hm, rfl⟩ := hm
  have hrange : List.finRange 1 = [0] := rfl
  rw [hm.ncard_live Set.finite_empty, Set.ncard_empty]
  simp [allQueues, hrange]

theorem RrProgram.Holds.ncard {A : Allocator {x | x < 1}} {m : NodeMemory A RrProcess}
    {processes : List RrProcess} (hm : RrProgram.Holds m processes) :
    (A.live m.allocator).ncard = 1 + processes.length := by
  obtain ⟨cells, hm, rfl⟩ := hm
  have hrange : List.finRange 1 = [0] := rfl
  rw [hm.ncard_live Set.finite_empty, Set.ncard_empty]
  simp [allQueues, hrange]

theorem MlfqProgram.Holds.ncard {A : Allocator {x | x < 4}} {m : MlfqProgram.Globals A}
    {s : Mlfq.State} (hm : MlfqProgram.Holds m s) :
    (A.live m.allocator).ncard = 4 + s.nodes.length := by
  obtain ⟨cells, running, hm⟩ := hm
  rw [hm.memory.ncard_live Set.finite_empty, Set.ncard_empty, hm.queues, Mlfq.State.nodes,
    hm.running, List.length_append]
  cases running <;> simp [Nat.add_comm, Nat.add_left_comm]

omit [DoubleArith D] in
theorem CustomProgram.Holds.ncard {A : Allocator {x | x < 2}} {m : CustomProgram.Globals D A}
    {s : Custom.State D} (hm : CustomProgram.Holds m s) (hok : Custom.Ok s) :
    (A.live m.allocator).ncard = 2 + s.nodes.length + s.nodes.length +
      if s.processHistories.isSome then 1 else 0 := by
  obtain ⟨nodes, hqueues, hnodes⟩ := hm.histories
  obtain ⟨hcard, hfinite⟩ := hqueues.ncard_single
  have hhistories : nodes.length =
      s.nodes.length + if s.processHistories.isSome then 1 else 0 := by
    rw [← CustomProgram.histories_length hok]
    generalize s.processHistories = l at hnodes
    generalize m.processHistories = p at hnodes
    cases hnodes with
    | unallocated => rfl
    | behind a x cells => simp
  have hlive : (A.live m.allocator).ncard = _ := hm.memory.ncard_live hfinite
  have hqueue : (allQueues (contentsOf (CustomProgram.cellsOf s))).length =
      s.fastQueue.length + s.smartQueue.length := by
    have hrange : List.finRange 2 = [0, 1] := rfl
    simp [allQueues, hrange, contentsOf, CustomProgram.cellsOf]
  have hcurrent : (s.current.map Custom.cell).toList.length = s.current.toList.length := by
    cases s.current <;> rfl
  rw [hlive, hcard, hhistories, hqueue, hcurrent, Custom.State.nodes, List.length_append,
    List.length_append]
  omega

omit [DoubleArith D] in
/-- The sentinels of `custom.c` are in use, and the one of the histories is not among the others. -/
theorem CustomProgram.Holds.sentinels {A : Allocator {x | x < 2}} {m : CustomProgram.Globals D A}
    {s : Custom.State D} (hm : CustomProgram.Holds m s) :
    {x | x < 2} ∪ {x | m.processHistories = some x} ⊆ A.live m.allocator ∧
      ({x | x < 2} ∪ {x | m.processHistories = some x} : Set Nat).ncard =
        2 + if s.processHistories.isSome then 1 else 0 := by
  obtain ⟨nodes, hqueues, hnodes⟩ := hm.histories
  have hstatic : {x | x < 2} ⊆ A.live m.allocator := hm.memory.sentinels_subset
  have htwo : ({x | x < 2} : Set Nat).ncard = 2 := ncard_lt 2
  generalize hl : s.processHistories = l at hnodes
  generalize hp : m.processHistories = p at hnodes
  cases hnodes with
  | unallocated =>
    have hnone : {x : Nat | (none : Option Nat) = some x} = ∅ := by simp
    rw [hnone, Set.union_empty, htwo]
    exact ⟨hstatic, rfl⟩
  | behind a x cells =>
    have hsome : {b : Nat | some a = some b} = {a} := by
      ext b
      simp [eq_comm]
    have hallocated : a ∈ allocated m.histories :=
      hqueues.ne_none (i := ()) (List.mem_map_of_mem (f := Prod.fst) List.mem_cons_self)
    have hnot : a ∉ {x | x < 2} := fun hlt =>
      hm.memory.sentinel_ne_none hlt (hm.memory.apart a hallocated)
    rw [hsome, Set.union_singleton, Set.ncard_insert_of_notMem hnot (Set.finite_lt_nat 2), htwo]
    refine ⟨Set.insert_subset ?_ hstatic, rfl⟩
    have hlive : a ∈ allocated m.processMemory.heap ∪ allocated m.histories := Or.inr hallocated
    rwa [← hm.memory.live] at hlive

/-- `process_histories` is not `NULL`. -/
def Custom.hasSentinel (s : (Custom.scheduler D).State) : Bool :=
  (Custom.State.processHistories s).isSome

theorem Custom.hasSentinel_foldl (ps : List ProcessInitial) (s : (Custom.scheduler D).State) :
    hasSentinel (ps.foldl (Custom.scheduler D).addToReadyQueue s) =
      (hasSentinel s || !ps.isEmpty) := by
  induction ps generalizing s with
  | nil => simp
  | cons p ps ih =>
    have hadd : hasSentinel ((Custom.scheduler D).addToReadyQueue s p) = true := rfl
    rw [List.foldl_cons, ih, hadd]
    simp

/-- `custom.c` has allocated the sentinel of its histories once a process has arrived. -/
theorem Custom.hasSentinel_iff {T : Table} {timeBound : UInt32} {t : Nat}
    {s : Sim (Custom.scheduler D)} (h : Reached (Custom.scheduler D) T.start timeBound t s) :
    hasSentinel s.sched = true ↔ ∃ p ∈ T.processes, p.arrivalTime < t := by
  induction h with
  | start => simp [hasSentinel, Sim.start, Custom.scheduler, Custom.init]
  | @tick t s s' h _ hrun hstep ih =>
    have hagree := (Custom.books D).agree_reached h
    obtain ⟨σ, -, hσ, -⟩ := hagree.schedule
    obtain ⟨pid, sched, hnext, -, htick, -⟩ := (Custom.books D).tick_agree hagree hrun
    rw [hstep] at htick
    cases htick
    have hkept : hasSentinel sched = hasSentinel (addArrivals _ s.processes t s.sched) :=
      CustomProgram.next_isSome hnext
    rw [hkept, addArrivals_eq_foldl, hasSentinel_foldl, Bool.or_eq_true, ih]
    have harrivals : (!(arrivalsAt s.processes t).isEmpty) = true ↔
        ∃ p ∈ T.processes, p.arrivalTime = t := by
      rw [Bool.not_eq_true', List.isEmpty_eq_false_iff_exists_mem]
      simp only [mem_arrivalsAt, hσ.initial]
    rw [harrivals]
    constructor
    · rintro (⟨p, hp, hlt⟩ | ⟨p, hp, rfl⟩)
      · exact ⟨p, hp, Nat.lt_succ_of_lt hlt⟩
      · exact ⟨p, hp, Nat.lt_succ_self _⟩
    · rintro ⟨p, hp, hlt⟩
      rcases Nat.lt_succ_iff_lt_or_eq.mp hlt with hlt | heq
      · exact Or.inl ⟨p, hp, hlt⟩
      · exact Or.inr ⟨p, hp, heq⟩

end InUse

/-- **With `n` processes in the queues, so much is in use.** -/
theorem Algorithm.ncard_inUse (a : Algorithm) {A : Allocator {x | x < a.sentinels}}
    {bound steps : Nat} (hsteps : bound < steps) {T : Table} {timeBound : UInt32} {t : Nat}
    {s : Sim (a.scheduler D)} (hs : Reached (a.scheduler D) T.start timeBound t s)
    {m : (a.program D A steps).Memory} (hm : (a.implements D A hsteps).Rel m s.sched) :
    (a.inUse D A steps m).ncard =
      a.expected (∃ p ∈ T.processes, p.arrivalTime < t) (a.contents D s.sched).length := by
  cases a with
  | fcfs => exact FcfsProgram.Holds.ncard hm
  | rr => exact (RrProgram.Holds.ncard hm).trans (congrArg (1 + ·) (List.length_map _).symm)
  | constant => exact (MlfqProgram.Holds.ncard hm).trans (congrArg (4 + ·) (List.length_map _).symm)
  | exponential =>
    exact (MlfqProgram.Holds.ncard hm).trans (congrArg (4 + ·) (List.length_map _).symm)
  | custom =>
    obtain ⟨u, hu, hok, hscored, hsome⟩ := hm
    have hlength : u.nodes.length = (Algorithm.contents D .custom s.sched).length :=
      (CustomProgram.length_eq hscored).trans (List.length_map _).symm
    refine (hu.ncard hok).trans ?_
    rw [hlength, hsome]
    show _ = 2 + _ + _ + _
    have hsentinel := Custom.hasSentinel_iff hs
    rw [Custom.hasSentinel] at hsentinel
    simp only [hsentinel]

/-- **The sentinels are in use**, and there are so many of them. -/
theorem Algorithm.sentinelAddrs_subset (a : Algorithm) {A : Allocator {x | x < a.sentinels}}
    {bound steps : Nat} (hsteps : bound < steps) {T : Table} {timeBound : UInt32} {t : Nat}
    {s : Sim (a.scheduler D)} (hs : Reached (a.scheduler D) T.start timeBound t s)
    {m : (a.program D A steps).Memory} (hm : (a.implements D A hsteps).Rel m s.sched) :
    a.sentinelAddrs D A steps m ⊆ a.inUse D A steps m ∧
      (a.sentinelAddrs D A steps m).ncard =
        a.expected (∃ p ∈ T.processes, p.arrivalTime < t) 0 := by
  cases a with
  | fcfs =>
    obtain ⟨cells, hm, -⟩ := hm
    exact ⟨hm.sentinels_subset, ncard_lt 1⟩
  | rr =>
    obtain ⟨cells, hm, -⟩ := hm
    exact ⟨hm.sentinels_subset, ncard_lt 1⟩
  | constant =>
    obtain ⟨cells, running, hm⟩ := hm
    exact ⟨hm.memory.sentinels_subset, ncard_lt 4⟩
  | exponential =>
    obtain ⟨cells, running, hm⟩ := hm
    exact ⟨hm.memory.sentinels_subset, ncard_lt 4⟩
  | custom =>
    obtain ⟨u, hu, -, -, hsome⟩ := hm
    obtain ⟨hsubset, hcard⟩ := hu.sentinels
    refine ⟨hsubset, hcard.trans ?_⟩
    rw [hsome]
    have hsentinel := Custom.hasSentinel_iff hs
    rw [Custom.hasSentinel] at hsentinel
    simp only [hsentinel]
    rfl

/-- **The same runs.** `run_simulation` with a scheduler in memory never faults, returns what
it returns with the scheduler on lists, and leaves the same table and output. -/
theorem runSimulation_inMemory (a : Algorithm) (A : Allocator {x | x < a.sentinels})
    (steps : Nat) (T : Table) (timeBound : UInt32) (hsteps : T.processes.length < steps) :
    ∃ result s m, runSimulation (a.scheduler D) T.start timeBound = some (result, s) ∧
      runSimulation (a.program D A steps).scheduler T.start timeBound =
        some (result, ⟨s.processes, some m, s.output⟩) := by
  obtain ⟨result, s, m, hrun, hrun', -⟩ :=
    (a.implements D A hsteps).runSimulation_eq T timeBound le_rfl
  exact ⟨result, s, m, hrun, hrun'⟩

/-- The example of `readme.md` under `custom.c`, with an allocator that hands out what has been
freed as soon as it can. -/
theorem runSimulation_inMemory_readme :
    ∃ result s m, runSimulation (Custom.scheduler ℚ) readmeTable.start 20 = some (result, s) ∧
      runSimulation (CustomProgram.program ℚ (.firstFit 2) 4).scheduler readmeTable.start 20 =
        some (result, ⟨s.processes, some m, s.output⟩) :=
  runSimulation_inMemory ℚ .custom (.firstFit 2) 4 readmeTable 20 (by decide)

/-- **No leaks.** In every state of a run with a scheduler in memory, what is in use is the
sentinels, a node for each process that has arrived and is not complete, and for `custom.c` as
many histories and the sentinel of these. -/
theorem inUse_reached (a : Algorithm) (A : Allocator {x | x < a.sentinels}) (steps : Nat)
    (T : Table) (timeBound : UInt32) (hsteps : T.processes.length < steps) {t : Nat}
    {s : Sim (a.program D A steps).scheduler}
    (h : Reached (a.program D A steps).scheduler T.start timeBound t s) :
    ∃ m, s.sched = some m ∧ (a.inUse D A steps m).ncard =
      a.expected (∃ p ∈ T.processes, p.arrivalTime < t)
        (s.processes.filter fun p => p.initial.arrivalTime < t ∧
          p.processedTime < p.initial.processingTime).length := by
  obtain ⟨s, m, hs, rfl, hm⟩ := (a.implements D A hsteps).reached le_rfl h
  refine ⟨m, rfl, ?_⟩
  have hbooks := ((a.books D).agree_reached hs).books.length_eq
  rw [a.books_contents D, List.length_map] at hbooks
  rw [a.ncard_inUse D hsteps hs hm, hbooks]
  rfl

/-- After the first time step: two sentinels, a node, a history, and the sentinel of the
histories. -/
theorem inUse_reached_readme :
    ∃ s m, Reached (CustomProgram.program ℚ (.firstFit 2) 4).scheduler readmeTable.start 20 1 s ∧
      s.sched = some m ∧ (Algorithm.inUse ℚ .custom (.firstFit 2) 4 m).ncard = 5 := by
  obtain ⟨m, hm, hcard⟩ := inUse_reached ℚ .custom (.firstFit 2) 4 readmeTable 20 (by decide)
    (.tick .start (by decide) (by decide) rfl)
  exact ⟨_, m, .tick .start (by decide) (by decide) rfl, hm, hcard⟩

/-- When all work is done the scheduler has no processes left, and some process has arrived. -/
theorem Algorithm.contents_of_done (a : Algorithm) {T : Table} {timeBound : UInt32} {N : Nat}
    {s : Sim (a.scheduler D)} (hs : Reached (a.scheduler D) T.start timeBound N s)
    (hdone : stillRunning s.processes = false) :
    (a.contents D s.sched).length = 0 ∧ ∃ p ∈ T.processes, p.arrivalTime < N := by
  have hagree := (a.books D).agree_reached hs
  obtain ⟨σ, hlen, hσ, -⟩ := hagree.schedule
  have hcomplete : ∀ p ∈ s.processes, ¬ p.processedTime < p.initial.processingTime := by
    intro p hp hlt
    rw [stillRunning_iff.mpr ⟨p, hp, hlt⟩] at hdone
    cases hdone
  constructor
  · have hbooks := hagree.books.length_eq
    rw [a.books_contents D, List.length_map] at hbooks
    rw [hbooks, List.length_eq_zero_iff, List.filter_eq_nil_iff]
    exact fun p hp hpending => hcomplete p hp (of_decide_eq_true hpending).2
  · -- what is complete has run, and so has arrived
    obtain ⟨q, rest, hq⟩ := List.exists_cons_of_ne_nil T.nonempty
    have hmem : q ∈ T.processes := hq ▸ List.mem_cons_self
    obtain ⟨p, hp, rfl⟩ := mem_rows hσ.initial hmem
    refine ⟨p.initial, hmem, ?_⟩
    by_contra hle
    have hzero := (hσ.rowOk p hp).eq_zero_of_le (by omega)
    have hpos := T.processingTime_pos _ hmem
    exact hcomplete p hp (by omega)

/-- **What is left** at the end of a run that completes all processes: the sentinels, one of which
is that of the histories of `custom.c`, and nothing else. -/
theorem inUse_of_true (a : Algorithm) (A : Allocator {x | x < a.sentinels}) (steps : Nat)
    (T : Table) (timeBound : UInt32) (hsteps : T.processes.length < steps)
    {s : Sim (a.program D A steps).scheduler}
    (h : runSimulation (a.program D A steps).scheduler T.start timeBound = some (true, s)) :
    ∃ m, s.sched = some m ∧ a.inUse D A steps m = a.sentinelAddrs D A steps m ∧
      (a.inUse D A steps m).ncard = a.sentinels + if a = .custom then 1 else 0 := by
  obtain ⟨result, s, m, hrun, hrun', hm⟩ :=
    (a.implements D A hsteps).runSimulation_eq T timeBound le_rfl
  cases h.symm.trans hrun'
  obtain ⟨N, hs, hdone⟩ := (a.books D).reached_of_runSimulation_true hrun
  obtain ⟨hempty, harrived⟩ := a.contents_of_done D hs hdone
  have hcard := a.ncard_inUse D hsteps hs hm
  rw [hempty] at hcard
  obtain ⟨hsubset, hsentinels⟩ := a.sentinelAddrs_subset D hsteps hs hm
  have hexpected : a.expected (∃ p ∈ T.processes, p.arrivalTime < N) 0 ≠ 0 := by
    cases a <;> simp [Algorithm.expected]
  refine ⟨m, rfl, ?_, hcard.trans ?_⟩
  · exact (Set.eq_of_subset_of_ncard_le hsubset (hcard.trans hsentinels.symm).le
      (Set.finite_of_ncard_ne_zero (hcard ▸ hexpected))).symm
  cases a with
  | fcfs => rfl
  | rr => rfl
  | constant => rfl
  | exponential => rfl
  | custom => simp [Algorithm.expected, Algorithm.sentinels, harrived]

theorem inUse_of_true_readme :
    ∃ s m, runSimulation (CustomProgram.program ℚ (.firstFit 2) 4).scheduler readmeTable.start 20 =
        some (true, s) ∧
      s.sched = some m ∧
      Algorithm.inUse ℚ .custom (.firstFit 2) 4 m =
        Algorithm.sentinelAddrs ℚ .custom (.firstFit 2) 4 m ∧
      (Algorithm.inUse ℚ .custom (.firstFit 2) 4 m).ncard = 3 := by
  have htrue : (runSimulation (CustomProgram.program ℚ (.firstFit 2) 4).scheduler
      readmeTable.start 20).map Prod.fst = some true := by decide +kernel
  obtain ⟨⟨result, s⟩, hrun, rfl⟩ := Option.map_eq_some_iff.mp htrue
  obtain ⟨m, hm, hcard⟩ := inUse_of_true ℚ .custom (.firstFit 2) 4 readmeTable 20 (by decide) hrun
  exact ⟨s, m, hrun, hm, hcard⟩

end Cosc240
