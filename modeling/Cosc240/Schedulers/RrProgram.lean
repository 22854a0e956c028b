import Cosc240.Schedulers.FcfsProgram
import Cosc240.Schedulers.Rr

/-!
# `rr.c`, pointer by pointer

As in `FcfsProgram`, with the walk to the end of the list that the rotation takes. The nodes come
from `malloc` and go to `free`, and are behind the sentinel `process_list` (rr.c:21).

- `addToReadyQueue` (rr.c:71–103): the new node is allocated and filled in, two walks find its
  place, and `add_next` links it in.
- `getNextScheduledProcess` (rr.c:118–157): the first node is executed. It is taken out with
  `remove_next` and freed when it is complete; when its quantum is used up it is taken out, and
  linked in again behind the last node, to which another walk leads.
- `Holds`: the memory consists of `process_list` and the nodes of a list.

Main results:

- `Holds.addToReadyQueue` and `Holds.getNextScheduledProcess`: each function on memory does what the
  function on lists does, and neither faults.
- `implements`: `rr.c` in memory implements `Rr`, for fewer processes than `steps`.
-/

namespace Cosc240

open Lib LinkedList

namespace RrProgram

variable {A : Allocator {a | a < 1}}

/-! ## The program -/

/-- The address of `process_list`, as in `fcfs.c`. -/
abbrev processList : Fin 1 := FcfsProgram.processList

/-- What is in `process_list`. -/
def sentinel : RrProcess := { pid := 0, processingTime := 0, arrivalTime := 0, processedTime := 0,
                              quantumUsed := 0 }

/-- `add_to_ready_queue`. -/
def addToReadyQueue (steps : Nat) (m : NodeMemory A RrProcess) (process : ProcessInitial) :
    Option (NodeMemory A RrProcess) :=
  let (newProcess, m) := m.malloc (newQuantumProcess process)
  (walkInsert (fun p => p.arrivalTime) (fun p => p.pid) m.heap steps processList newProcess).map
    fun heap => { m with heap }

/-- `get_next_scheduled_process`. -/
def getNextScheduledProcess (steps : Nat) (m : NodeMemory A RrProcess) :
    Option (Nat × NodeMemory A RrProcess) := do
  let node ← m.heap processList
  match node.next with
  | none => return (0, m)
  | some current => do
    let heap ← modify m.heap current QuantumProcess.execute
    let process ← heap current
    if process.data.processedTime = process.data.processingTime then do
      let (_, heap) ← removeNext heap processList
      let m ← NodeMemory.free { m with heap } current
      return (process.data.pid, m)
    else if process.data.quantumUsed = Rr.quantum then do
      let (_, heap) ← removeNext heap processList
      let last ← skipWhile heap (fun _ => true) steps processList
      let heap ← insertNext heap last current
      return (process.data.pid, { m with heap })
    else
      return (process.data.pid, { m with heap })

/-- `rr.c` in memory. -/
def program (A : Allocator {a | a < 1}) (steps : Nat) : Program where
  Memory := NodeMemory A RrProcess
  init := .sentinels A sentinel
  addToReadyQueue := addToReadyQueue steps
  getNextScheduledProcess := getNextScheduledProcess steps

/-! ## It does what `Rr` does -/

/-- The memory consists of `process_list` and the nodes of this list. -/
def Holds (m : NodeMemory A RrProcess) (processes : List RrProcess) : Prop :=
  ∃ cells : Fin 1 → _, m.Holds (behind sentinel cells) [] ∅ ∧
    contentsOf cells processList = processes

variable {m : NodeMemory A RrProcess} {processes : List RrProcess} {steps : Nat}

theorem Holds.addToReadyQueue (hm : Holds m processes) (hsteps : processes.length < steps)
    (process : ProcessInitial) :
    ∃ m', addToReadyQueue steps m process = some m' ∧
      Holds m' (Rr.addToReadyQueue processes process) := by
  obtain ⟨cells, hm, rfl⟩ := hm
  rw [contentsOf, List.length_map] at hsteps
  obtain ⟨heap, hinsert, hheld⟩ := hm.mallocInsert (f := fun p => p.arrivalTime)
    (g := fun p => p.pid) (newQuantumProcess process) hsteps
  refine ⟨_, congrArg (Option.map _) hinsert, _, hheld, ?_⟩
  rw [contentsOf_update, Function.update_self]
  exact map_skipInsert (fun c : Nat × RrProcess => c.2.arrivalTime) (fun c => c.2.pid)
    (fun p => p.arrivalTime) (fun p => p.pid) Prod.snd (fun _ => rfl) (fun _ => rfl) _ _

/-- The head of the list is executed, and then leaves, stays or goes to the back. -/
theorem Holds.getNextScheduledProcess (hm : Holds m processes)
    (hsteps : processes.length < steps) :
    ∃ m', getNextScheduledProcess steps m =
        some ((Rr.getNextScheduledProcess processes).1, m') ∧
      Holds m' (Rr.getNextScheduledProcess processes).2 := by
  obtain ⟨cells, hm, rfl⟩ := hm
  have hnode := hm.sentinel_cell 0
  rw [RrProgram.getNextScheduledProcess, processList]
  show ∃ m', (m.heap _).bind _ = _ ∧ _
  rw [hnode, Option.bind_some]
  cases hcells : cells 0 with
  | nil =>
    rw [contentsOf, hcells]
    exact ⟨m, rfl, cells, hm, by rw [contentsOf, hcells]; rfl⟩
  | cons c l =>
    obtain ⟨a, current⟩ := c
    have hcontents : contentsOf cells 0 = current :: l.map Prod.snd := by
      rw [contentsOf, hcells]
      rfl
    rw [hcontents, List.length_cons, List.length_map] at hsteps
    obtain ⟨heap, hmodify, hm₁, -⟩ := hm.modifyFirst hcells QuantumProcess.execute
    obtain ⟨q, hcell⟩ := hm₁.first_cell (Function.update_self 0 _ _)
    obtain ⟨heap', hremove, hm₂, -⟩ := hm₁.removeFirst (Function.update_self 0 _ _)
    rw [Function.update_idem] at hm₂
    rw [hcontents, Rr.getNextScheduledProcess]
    dsimp only [List.head?_cons, Option.map_some]
    rw [hmodify]
    show ∃ m', (heap a).bind _ = _ ∧ _
    rw [show heap a = _ from hcell, Option.bind_some]
    dsimp only
    by_cases hdone : current.execute.processedTime = current.execute.processingTime
    · obtain ⟨m', hfree, hm', -⟩ := hm₂.free
      rw [if_pos hdone, if_pos hdone, show removeNext heap ↑(0 : Fin 1) = _ from hremove]
      show ∃ m', (NodeMemory.free _ a).bind _ = _ ∧ _
      rw [show NodeMemory.free ⟨heap', m.allocator⟩ a = _ from hfree]
      refine ⟨m', rfl, _, hm', ?_⟩
      rw [contentsOf_update, Function.update_self]
    · rw [if_neg hdone, if_neg hdone]
      by_cases hquantum : current.execute.quantumUsed = Rr.quantum
      · have hl : (Function.update cells 0 l 0).length < steps := by
          rw [Function.update_self]
          omega
        obtain ⟨front, last, hwalk, hlast⟩ := hm₂.last hl
        obtain ⟨heap'', hinsert, hm', -⟩ := hm₂.insertLast hlast
        rw [if_pos hquantum, if_pos hquantum, show removeNext heap ↑(0 : Fin 1) = _ from hremove]
        show ∃ m', (skipWhile heap' _ _ _).bind _ = _ ∧ _
        rw [show skipWhile heap' _ _ _ = _ from hwalk, Option.bind_some]
        show ∃ m', (insertNext heap' _ a).bind _ = _ ∧ _
        rw [show insertNext heap' _ a = _ from hinsert]
        refine ⟨_, rfl, _, hm', ?_⟩
        rw [Function.update_self, contentsOf_update, Function.update_self, List.map_append]
        rfl
      · rw [if_neg hquantum, if_neg hquantum]
        refine ⟨_, rfl, _, hm₁, ?_⟩
        rw [contentsOf_update, Function.update_self]
        rfl

theorem contents_length (processes : List RrProcess) :
    (Rr.books.contents processes).length = processes.length := List.length_map _

/-- **`rr.c` in memory implements `Rr`**, for fewer processes than `steps`. -/
def implements (A : Allocator {a | a < 1}) {bound steps : Nat} (hsteps : bound < steps) :
    Implements (program A steps) Rr.books bound where
  Rel := Holds
  init := ⟨_, NodeMemory.sentinels_holds A sentinel, rfl⟩
  add _ s p hrel _ _ hlength :=
    hrel.addToReadyQueue ((contents_length s).symm.trans_lt (hlength.trans hsteps)) p
  next m s pid s' hrel _ _ hlength hnext := by
    obtain ⟨m', hrun, hm'⟩ :=
      hrel.getNextScheduledProcess ((contents_length s).symm.trans_lt (hlength.trans_lt hsteps))
    rw [Option.some.inj hnext] at hrun hm'
    exact ⟨m', hrun, hm'⟩

end RrProgram

end Cosc240
