import Cosc240.Lib.LinkedMemory
import Cosc240.Schedulers.Fcfs
import Cosc240.Simulator.Program

/-!
# `fcfs.c`, pointer by pointer

In `Fcfs` the list of processes is a list. Here it is what `fcfs.c` has: nodes in memory
behind the sentinel `process_list`, which come from `malloc` and go to `free`. As long as
each loop can take more steps than there are processes, the program does what `Fcfs` does.

- `processList` and `sentinel` (fcfs.c:16): the address and the contents of the sentinel.
- `addToReadyQueue` (fcfs.c:69–97): the new node is allocated and filled in, two walks find its
  place, and `add_next` links it in.
- `scheduleFrom`, `schedule`, `getNextScheduledProcess` (fcfs.c:107–136): the loop over the nodes,
  what it does with the one it stops at, and the function. A node that is complete is taken out with
  `remove_next` and freed.
- `Holds`: the memory consists of `process_list` and the nodes of a list.

Main results:

- `Holds.addToReadyQueue` and `Holds.getNextScheduledProcess`: each function on memory does what the
  function on lists does, and neither faults.
- `implements`: `fcfs.c` in memory implements `Fcfs`, for fewer processes than `steps`.
-/

namespace Cosc240

open Lib LinkedList

namespace FcfsProgram

variable {A : Allocator {a | a < 1}}

/-! ## The program -/

/-- The address of `process_list`. -/
abbrev processList : Fin 1 := 0

/-- What is in `process_list`. -/
def sentinel : FcfsProcess := ⟨0, 0, 0, 0⟩

/-- `add_to_ready_queue`. -/
def addToReadyQueue (steps : Nat) (m : NodeMemory A FcfsProcess) (process : ProcessInitial) :
    Option (NodeMemory A FcfsProcess) :=
  let (newProcess, m) := m.malloc process.job
  (walkInsert Job.arrivalTime Job.pid m.heap steps processList newProcess).map fun heap =>
    { m with heap }

/-- `next->processed_time++`, and the removal of `next` if it is complete then. -/
def schedule (m : NodeMemory A FcfsProcess) (node next : Nat) :
    Option (Nat × NodeMemory A FcfsProcess) := do
  let heap ← modify m.heap next fun p => { p with processedTime := incr p.processedTime }
  let process ← heap next
  if process.data.processedTime = process.data.processingTime then
    let (_, heap) ← removeNext heap node
    let m ← NodeMemory.free { m with heap } next
    return (process.data.pid, m)
  else
    return (process.data.pid, { m with heap })

/-- The loop of `get_next_scheduled_process`, from `node` on. -/
def scheduleFrom : Nat → NodeMemory A FcfsProcess → Nat → Option (Nat × NodeMemory A FcfsProcess)
  | 0, _, _ => none
  | steps + 1, m, node =>
    match m.heap node with
    | none => none
    | some c =>
      match c.next with
      | none => some (0, m)
      | some next =>
        match m.heap next with
        | none => none
        | some process =>
          if process.data.processedTime < process.data.processingTime then schedule m node next
          else scheduleFrom steps m next

/-- `get_next_scheduled_process`. -/
def getNextScheduledProcess (steps : Nat) (m : NodeMemory A FcfsProcess) :
    Option (Nat × NodeMemory A FcfsProcess) := scheduleFrom steps m processList

/-- `fcfs.c` in memory. -/
def program (A : Allocator {a | a < 1}) (steps : Nat) : Program where
  Memory := NodeMemory A FcfsProcess
  init := .sentinels A sentinel
  addToReadyQueue := addToReadyQueue steps
  getNextScheduledProcess := getNextScheduledProcess steps

/-! ## It does what `Fcfs` does -/

/-- The memory consists of `process_list` and the nodes of this list. -/
def Holds (m : NodeMemory A FcfsProcess) (processes : List FcfsProcess) : Prop :=
  ∃ cells : Fin 1 → _, m.Holds (behind sentinel cells) [] ∅ ∧
    contentsOf cells processList = processes

variable {m : NodeMemory A FcfsProcess} {processes : List FcfsProcess} {steps : Nat}

theorem Holds.addToReadyQueue (hm : Holds m processes) (hsteps : processes.length < steps)
    (process : ProcessInitial) :
    ∃ m', addToReadyQueue steps m process = some m' ∧
      Holds m' (Fcfs.addToReadyQueue processes process) := by
  obtain ⟨cells, hm, rfl⟩ := hm
  rw [contentsOf, List.length_map] at hsteps
  obtain ⟨heap, hinsert, hheld⟩ := hm.mallocInsert (f := Job.arrivalTime) (g := Job.pid)
    process.job hsteps
  refine ⟨_, congrArg (Option.map _) hinsert, _, hheld, ?_⟩
  rw [contentsOf_update, Function.update_self]
  exact map_skipInsert (fun c : Nat × Job => c.2.arrivalTime) (fun c => c.2.pid) Job.arrivalTime
    Job.pid Prod.snd (fun _ => rfl) (fun _ => rfl) _ _

/-- The first process is served. -/
theorem schedule_eq {next : FcfsProcess} {rest : List FcfsProcess} {cells : Fin 1 → _} {a : Nat}
    {l : List (Nat × FcfsProcess)} (hm : m.Holds (behind sentinel cells) [] ∅)
    (hcells : cells 0 = (a, next) :: l) (hrest : l.map Prod.snd = rest)
    (hlt : next.processedTime < next.processingTime) (hle : next.processingTime ≤ uintMax) :
    ∃ m', schedule m processList a = some (next.pid, m') ∧ Holds m' (next.served ++ rest) := by
  obtain ⟨heap, hmodify, hm₁, -⟩ := hm.modifyFirst hcells
    fun p => { p with processedTime := incr p.processedTime }
  obtain ⟨q, hcell⟩ := hm₁.first_cell (Function.update_self 0 _ _)
  rw [schedule, hmodify]
  show ∃ m', (heap a).bind _ = _ ∧ _
  rw [show heap a = _ from hcell, Option.bind_some]
  dsimp only
  rw [incr_of_lt hlt hle, Job.served]
  by_cases hdone : next.processedTime + 1 = next.processingTime
  · obtain ⟨heap', hremove, hm₂, -⟩ := hm₁.removeFirst (Function.update_self 0 _ _)
    obtain ⟨m', hfree, hm', -⟩ := hm₂.free
    rw [if_pos hdone, if_pos hdone, show removeNext heap processList = _ from hremove]
    show ∃ m', (NodeMemory.free _ a).bind _ = _ ∧ _
    rw [show NodeMemory.free ⟨heap', m.allocator⟩ a = _ from hfree]
    refine ⟨m', rfl, _, hm', ?_⟩
    rw [contentsOf_update, Function.update_self, hrest]
    rfl
  · rw [if_neg hdone, if_neg hdone]
    refine ⟨_, rfl, _, hm₁, ?_⟩
    rw [contentsOf_update, Function.update_self, List.map_cons, hrest, incr_of_lt hlt hle]
    rfl

theorem Holds.getNextScheduledProcess (hm : Holds m processes) (hv : ValidJobs processes)
    (hsteps : 0 < steps) :
    ∃ m', getNextScheduledProcess steps m =
        some ((Fcfs.getNextScheduledProcess processes).1, m') ∧
      Holds m' (Fcfs.getNextScheduledProcess processes).2 := by
  obtain ⟨cells, hm, rfl⟩ := hm
  obtain ⟨steps, rfl⟩ := Nat.exists_eq_succ_of_ne_zero (Nat.ne_of_gt hsteps)
  have hnode := hm.sentinel_cell 0
  rw [FcfsProgram.getNextScheduledProcess, scheduleFrom, processList, hnode]
  dsimp only
  cases hcells : cells 0 with
  | nil =>
    rw [contentsOf, hcells]
    exact ⟨m, rfl, cells, hm, by rw [contentsOf, hcells]; rfl⟩
  | cons c l =>
    obtain ⟨a, next⟩ := c
    have hcontents : contentsOf cells 0 = next :: l.map Prod.snd := by
      rw [contentsOf, hcells]
      rfl
    rw [hcontents] at hv ⊢
    have hlt := hv.lt next List.mem_cons_self
    have hle := (hv.lt_uintMax next List.mem_cons_self).le
    obtain ⟨q, hcell⟩ := hm.first_cell hcells
    obtain ⟨m', hschedule, hm'⟩ := schedule_eq hm hcells rfl hlt hle
    rw [Fcfs.getNextScheduledProcess_cons hlt hle]
    refine ⟨m', ?_, hm'⟩
    rw [List.head?_cons, Option.map_some]
    dsimp only
    rw [hcell]
    dsimp only
    rw [if_pos hlt]
    exact hschedule

/-- **`fcfs.c` in memory implements `Fcfs`**, for fewer processes than `steps`. -/
def implements (A : Allocator {a | a < 1}) {bound steps : Nat} (hsteps : bound < steps) :
    Implements (program A steps) Fcfs.books bound where
  Rel := Holds
  init := ⟨_, NodeMemory.sentinels_holds A sentinel, rfl⟩
  add _ _ p hrel _ _ hlength := hrel.addToReadyQueue (Nat.lt_trans hlength hsteps) p
  next m s pid s' hrel _ hv _ hnext := by
    obtain ⟨m', hrun, hm'⟩ := hrel.getNextScheduledProcess hv (Nat.zero_lt_of_lt hsteps)
    rw [Option.some.inj hnext] at hrun hm'
    exact ⟨m', hrun, hm'⟩

end FcfsProgram

end Cosc240
