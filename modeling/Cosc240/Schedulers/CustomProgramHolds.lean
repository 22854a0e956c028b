import Cosc240.Schedulers.CustomProgram
import Cosc240.Schedulers.CustomRefines

/-!
# `custom.c` in memory does what `Custom` does

The two heaps of `custom.c` have no address in common, and what the allocator has handed out is what
is in them. The addresses themselves are arbitrary: the nodes of `Custom` have other ones, but
nothing that `Custom` does depends on them. This module has the relation between memory and lists,
and the functions on histories and arrivals (custom.c:51–118, 195–279).

- `HistoryNodes` and `HoldsHistories`: `process_histories` leads to the sentinel, if there is one,
  and from there to the histories of a state, and their heap consists of these.
- `Holds`: the memory holds a state.

Main results:

- `HoldsHistories.getProcessHistory`, `HoldsHistories.modify`, `HoldsHistories.free`: a history is
  found, changed and freed.
- `updateFrom_eq`: the walk over one queue increments the wait times in the histories.
- `initProcessHistory_eq`: a history is added behind the sentinel.
- `Holds.addToReadyQueue`: a process is added, at an address that no other node has.
- `ok_addToReadyQueue`: the invariant of `Custom`, for an address that need not be the next one.
-/

namespace Cosc240

open Lib LinkedList

namespace CustomProgram

variable {D : Type} {A : Allocator {a | a < 2}}

/-! ## What the memory holds -/

/-- The nodes of the queues. -/
def cellsOf (s : Custom.State D) (i : Fin 2) : List (Nat × QuantumProcess) :=
  (if i = 0 then s.fastQueue else s.smartQueue).map Custom.cell

/-- `process_histories` leads to the sentinel of the histories, if there is one, and from
there to the others. -/
inductive HistoryNodes : Option Nat → List (Nat × ProcessHistory D) →
    Option (List (ProcessHistory D)) → Prop
  | unallocated : HistoryNodes none [] none
  | behind (a : Nat) (x : ProcessHistory D) (cells : List (Nat × ProcessHistory D)) :
      HistoryNodes (some a) ((a, x) :: cells) (some (cells.map Prod.snd))

/-- The heap of the histories consists of them. -/
def HoldsHistories (heap : Heap (ProcessHistory D)) (processHistories : Option Nat)
    (histories : Option (List (ProcessHistory D))) : Prop :=
  ∃ nodes, Queues heap (fun _ : Unit => nodes) [] ∧ HistoryNodes processHistories nodes histories

/-- The memory holds this state. -/
structure Holds (m : Globals D A) (s : Custom.State D) : Prop where
  memory : m.processMemory.Holds (behind sentinel (cellsOf s)) (s.current.map Custom.cell).toList
    (allocated m.histories)
  histories : HoldsHistories m.histories m.processHistories s.processHistories
  priorityQueues : m.priorityQueues = 0
  current : m.current = s.current.map fun p => p.addr
  priorityLevel : m.priorityLevel = s.priorityLevel

variable {m : Globals D A} {s s' : Custom.State D} {steps pid : Nat}

theorem update_fast (s : Custom.State D) (fastQueue : List CustomProcess) :
    Function.update (cellsOf s) 0 (fastQueue.map Custom.cell) = cellsOf { s with fastQueue } := by
  funext i
  by_cases hi : i = 0
  · rw [hi, Function.update_self]
    rfl
  · rw [Function.update_of_ne hi, cellsOf, cellsOf, if_neg hi, if_neg hi]

theorem update_smart (s : Custom.State D) (smartQueue : List CustomProcess) :
    Function.update (cellsOf s) 1 (smartQueue.map Custom.cell) =
      cellsOf { s with smartQueue } := by
  funext i
  by_cases hi : i = 1
  · rw [hi, Function.update_self]
    rfl
  · have hi' : i = 0 := by omega
    rw [Function.update_of_ne hi, hi']
    rfl

theorem update_unit {β : Type} (x y : β) :
    Function.update (fun _ : Unit => x) () y = fun _ => y := by
  funext _
  exact Function.update_self _ _ _

/-! ## Histories -/

section Histories

variable {heap : Heap (ProcessHistory D)} {histories : List (ProcessHistory D)}

/-- The histories, as the choice from the smart queue wants them. -/
theorem HoldsHistories.exists_cells (hm : HoldsHistories m.histories m.processHistories
      (some histories)) :
    ∃ a x cells, m.processHistories = some a ∧ cells.map Prod.snd = histories ∧
      Queues m.histories (fun _ : Unit => (a, x) :: cells) [] ∧
      m.toStorage.HoldsHistories (some cells) := by
  obtain ⟨nodes, hqueues, hnodes⟩ := hm
  generalize hp : m.processHistories = p at hnodes
  cases hnodes with
  | behind a x cells =>
    obtain ⟨q, hchain⟩ := hqueues.chain ()
    exact ⟨a, x, cells, rfl, rfl, hqueues, a, x, hp, hchain.head_eq ▸ hchain⟩

theorem HoldsHistories.getProcessHistory
    (hm : HoldsHistories m.histories m.processHistories (some histories))
    (hsteps : histories.length < steps) (pid : Nat) :
    ∃ a, m.getProcessHistory steps pid = some a ∧
      a.isSome = (histories.find? fun history => history.pid = pid).isSome := by
  obtain ⟨a, x, cells, hp, rfl, hqueues, hcells⟩ := hm.exists_cells
  rw [List.length_map] at hsteps
  refine ⟨_, Custom.Storage.getProcessHistory_eq hcells hsteps pid, ?_⟩
  rw [List.find?_map, Option.isSome_map, Option.isSome_map]
  rfl

/-- **A history is found and changed.** -/
theorem HoldsHistories.modify
    (hm : HoldsHistories m.histories m.processHistories (some histories))
    (hsteps : histories.length < steps) {history : ProcessHistory D}
    (hfind : histories.find? (fun history => history.pid = pid) = some history)
    (f : ProcessHistory D → ProcessHistory D) :
    ∃ a heap, m.getProcessHistory steps pid = some (some a) ∧
      modify m.histories a f = some heap ∧
      HoldsHistories heap m.processHistories (some (Custom.modifyHistory pid f histories)) ∧
      allocated heap = allocated m.histories := by
  obtain ⟨sentinel, x, cells, hp, rfl, hqueues, hcells⟩ := hm.exists_cells
  rw [List.length_map] at hsteps
  have hlookup := Custom.Storage.getProcessHistory_eq hcells hsteps pid
  rw [List.find?_map] at hfind
  obtain ⟨⟨a, history⟩, hfound, rfl⟩ := Option.map_eq_some_iff.mp hfind
  rw [show cells.find? (fun c => c.2.pid = pid) = some (a, history) from hfound] at hlookup
  obtain ⟨hpid, front, back, rfl, hfront⟩ := List.find?_eq_some_iff_append.mp hfound
  obtain ⟨heap, hmodify, hqueues', halloc⟩ :=
    hqueues.modify (i := ()) (l := (sentinel, x) :: front) rfl f
  rw [update_unit] at hqueues'
  refine ⟨a, heap, hlookup, hmodify, ⟨_, hqueues', ?_⟩, halloc⟩
  have hsnd : Custom.modifyHistory pid f ((front ++ (a, history) :: back).map Prod.snd) =
      (front ++ (a, f history) :: back).map Prod.snd := by
    rw [List.map_append, List.map_append]
    refine Custom.Storage.modifyHistory_append (fun other hother => ?_) (of_decide_eq_true hpid)
    obtain ⟨c, hc, rfl⟩ := List.mem_map.mp hother
    simpa using hfront c hc
  rw [hp, hsnd]
  exact .behind _ _ _

theorem length_modifyHistory (pid : Nat) (f : ProcessHistory D → ProcessHistory D)
    (l : List (ProcessHistory D)) : (Custom.modifyHistory pid f l).length = l.length := by
  induction l with
  | nil => rfl
  | cons history l ih =>
    rw [Custom.modifyHistory]
    split
    · rfl
    · exact congrArg (· + 1) ih

/-! ## Waiting -/

/-- One turn of `update_wait_times` on lists. -/
theorem updateWaitTimes_cons {p : CustomProcess} {rest : List CustomProcess}
    {l l' : Option (List (ProcessHistory D))}
    (h : Custom.updateWaitTimes l (p :: rest) = some l') :
    ∃ histories, l = some histories ∧
      ((histories.find? (fun history => history.pid = p.pid) = none ∧
          Custom.updateWaitTimes l rest = some l') ∨
        ∃ history, histories.find? (fun history => history.pid = p.pid) = some history ∧
          Custom.updateWaitTimes (some (Custom.modifyHistory p.pid
            (fun history => { history with waitTime := incr history.waitTime }) histories)) rest =
            some l') := by
  rw [Custom.updateWaitTimes, List.foldlM_cons] at h
  cases l with
  | none => cases h
  | some histories =>
    refine ⟨histories, rfl, ?_⟩
    rw [Custom.getProcessHistory, Option.map_some] at h
    cases hfind : histories.find? fun history => history.pid = p.pid with
    | none =>
      rw [hfind] at h
      exact .inl ⟨rfl, h⟩
    | some history =>
      rw [hfind] at h
      exact .inr ⟨history, rfl, h⟩

/-- **The walk over one queue** increments the wait times in the histories. -/
theorem updateFrom_eq {node left : Nat} {x : QuantumProcess} {rest : List CustomProcess}
    {p : Option Nat} (hrest : Chain m.processes p ((node, x) :: rest.map Custom.cell))
    (hleft : rest.length < left) {l l' : Option (List (ProcessHistory D))}
    (hm : HoldsHistories m.histories m.processHistories l)
    (hsteps : (l.getD []).length < steps) (hrun : Custom.updateWaitTimes l rest = some l') :
    ∃ heap, updateFrom steps left m node = some { m with toStorage.histories := heap } ∧
      HoldsHistories heap m.processHistories l' ∧ (l'.getD []).length = (l.getD []).length ∧
      allocated heap = allocated m.histories := by
  obtain ⟨left, rfl⟩ := Nat.exists_eq_succ_of_ne_zero (Nat.ne_of_gt (Nat.zero_lt_of_lt hleft))
  induction rest generalizing m node x p left l with
  | nil =>
    cases hrest with
    | cons hcell hnil =>
      cases hnil
      cases hrun
      refine ⟨m.histories, ?_, hm, rfl, rfl⟩
      rw [updateFrom, hcell]
      rfl
  | cons process rest ih =>
    obtain ⟨left, rfl⟩ := Nat.exists_eq_succ_of_ne_zero
      (Nat.ne_of_gt (Nat.zero_lt_of_lt (Nat.lt_of_succ_lt_succ hleft)))
    cases hrest with
    | cons hcell hrest =>
      have hnext := hrest.head_eq
      subst hnext
      obtain ⟨r, hprocess⟩ := hrest.exists_cell List.mem_cons_self
      obtain ⟨histories, rfl, hturn⟩ := updateWaitTimes_cons hrun
      rw [updateFrom, hcell]
      show ∃ heap, (m.processes process.addr).bind _ = _ ∧ _
      rw [hprocess, Option.bind_some]
      rcases hturn with ⟨hfind, hrun⟩ | ⟨history, hfind, hrun⟩
      · -- no history: the walk goes on
        obtain ⟨a, hlookup, hsome⟩ := hm.getProcessHistory hsteps process.pid
        rw [hfind, Option.isSome_none, Option.isSome_eq_false_iff, Option.isNone_iff_eq_none]
          at hsome
        rw [hsome] at hlookup
        obtain ⟨heap, hgo, hrest'⟩ :=
          ih hrest hm hsteps hrun left (Nat.lt_of_succ_lt_succ hleft)
        refine ⟨heap, ?_, hrest'⟩
        show (m.getProcessHistory steps process.pid).bind _ = _
        rw [hlookup]
        exact hgo
      · obtain ⟨a, heap, hlookup, hmodify, hm', halloc⟩ := hm.modify hsteps hfind
          fun history => { history with waitTime := incr history.waitTime }
        have hlength := length_modifyHistory process.pid
          (fun history => { history with waitTime := incr history.waitTime }) histories
        obtain ⟨heap', hgo, hheld, hlength', halloc'⟩ :=
          ih (m := { m with toStorage.histories := heap }) hrest hm' (hlength ▸ hsteps) hrun left
            (Nat.lt_of_succ_lt_succ hleft)
        refine ⟨heap', ?_, hheld, hlength'.trans hlength, halloc'.trans halloc⟩
        show (m.getProcessHistory steps process.pid).bind _ = _
        rw [hlookup, Option.bind_some]
        show (LinkedList.modify m.histories a _).bind _ = _
        rw [hmodify]
        exact hgo

/-! ## Freeing a history -/

/-- The loop gets to the node in front of the history. -/
theorem freeFrom_eq {prev a : Nat} {x history : ProcessHistory D}
    {front back : List (Nat × ProcessHistory D)} {p q : Option Nat}
    (hchain : Chain m.histories p ((prev, x) :: (front ++ (a, history) :: back)))
    (hprev : m.histories prev = some ⟨x, q⟩) (hfront : ∀ c ∈ front, c.2.pid ≠ pid)
    (hpid : history.pid = pid) (hsteps : front.length < steps) :
    ∃ before last, (prev, x) :: front = before ++ [last] ∧
      freeFrom steps m pid prev q = (removeNext m.histories last.1).bind fun (_, heap) =>
        (NodeMemory.free ⟨heap, m.allocator⟩ a).map m.withHistories := by
  obtain ⟨steps, rfl⟩ := Nat.exists_eq_succ_of_ne_zero (Nat.ne_of_gt (Nat.zero_lt_of_lt hsteps))
  induction front generalizing prev x p q steps with
  | nil =>
    cases hchain with
    | cons hcell hrest =>
      cases hprev.symm.trans hcell
      obtain rfl := hrest.head_eq
      obtain ⟨r, hhistory⟩ := hrest.exists_cell List.mem_cons_self
      refine ⟨[], (prev, x), rfl, ?_⟩
      rw [freeFrom, removeNext, hprev]
      show (m.histories a).bind _ = ((m.histories a).bind _).bind _
      rw [hhistory, Option.bind_some]
      dsimp only
      rw [if_pos hpid]
      exact Option.map_eq_bind.symm
  | cons c front ih =>
    obtain ⟨b, y⟩ := c
    obtain ⟨steps, rfl⟩ := Nat.exists_eq_succ_of_ne_zero
      (Nat.ne_of_gt (Nat.zero_lt_of_lt (Nat.lt_of_succ_lt_succ hsteps)))
    cases hchain with
    | cons hcell hrest =>
      cases hprev.symm.trans hcell
      obtain rfl := hrest.head_eq
      obtain ⟨r, hnode⟩ := hrest.exists_cell List.mem_cons_self
      obtain ⟨hne, hfront⟩ := List.forall_mem_cons.mp hfront
      obtain ⟨before, last, hsplit, hgo⟩ :=
        ih hrest hnode hfront steps (Nat.lt_of_succ_lt_succ hsteps)
      refine ⟨(prev, x) :: before, last, congrArg _ hsplit, ?_⟩
      rw [freeFrom]
      show (m.histories b).bind _ = _
      rw [hnode, Option.bind_some, if_neg hne]
      exact hgo

/-- **A history is found and freed.** -/
theorem HoldsHistories.free {others : Set Nat}
    (hm : HoldsHistories m.histories m.processHistories (some histories))
    (hmemory : ∀ nodes, Queues m.histories (fun _ : Unit => nodes) [] →
      m.historyMemory.Holds (fun _ : Unit => nodes) [] others)
    (hsteps : histories.length < steps) {history : ProcessHistory D}
    (hfind : histories.find? (fun history => history.pid = pid) = some history) :
    ∃ memory nodes, freeProcessHistory steps m pid = some (m.withHistories memory) ∧
      memory.Holds (fun _ : Unit => nodes) [] others ∧
      HistoryNodes m.processHistories nodes
        (some (histories.eraseP fun history => history.pid = pid)) := by
  obtain ⟨sentinel, x, cells, hp, rfl, hqueues, -⟩ := hm.exists_cells
  rw [List.length_map] at hsteps
  rw [List.find?_map] at hfind
  obtain ⟨⟨a, history⟩, hfound, rfl⟩ := Option.map_eq_some_iff.mp hfind
  obtain ⟨hpid, front, back, rfl, hfront⟩ := List.find?_eq_some_iff_append.mp hfound
  have hfront' : ∀ c ∈ front, c.2.pid ≠ pid := fun c hc => by simpa using hfront c hc
  obtain ⟨p, hchain⟩ := hqueues.chain ()
  obtain ⟨q, hcell⟩ := hchain.exists_cell List.mem_cons_self
  obtain ⟨before, ⟨b, y⟩, hsplit, hgo⟩ := freeFrom_eq hchain hcell hfront'
    (of_decide_eq_true hpid) (show front.length < steps by
      rw [List.length_append] at hsteps
      omega)
  have hnodes : ∀ l, (sentinel, x) :: (front ++ l) = before ++ (b, y) :: l := by
    intro l
    rw [← List.cons_append, hsplit, List.append_assoc, List.singleton_append]
  obtain ⟨heap, hremove, hqueues', halloc⟩ := hqueues.removeNext (i := ()) (hnodes _)
  rw [update_unit, ← hnodes] at hqueues'
  obtain ⟨memory, hfree, hheld, -⟩ := ((hmemory _ hqueues).of_queues hqueues' halloc).free
  refine ⟨memory, _, ?_, hheld, ?_⟩
  · rw [freeProcessHistory, hp]
    show (m.histories sentinel).bind _ = _
    rw [hcell, Option.bind_some, hgo, hremove]
    show (NodeMemory.free ⟨heap, m.allocator⟩ a).map _ = _
    rw [show NodeMemory.free ⟨heap, m.allocator⟩ a = _ from hfree]
    rfl
  · have herase : ((front ++ (a, history) :: back).map Prod.snd).eraseP
        (fun history => history.pid = pid) = (front ++ back).map Prod.snd := by
      rw [List.eraseP_map, List.eraseP_append_right, List.eraseP_cons_of_pos]
      · exact hpid
      · exact fun c hc => by simpa using hfront' c hc
    rw [hp, herase]
    exact .behind _ _ _

end Histories

/-! ## Adding a process -/

/-- Seen from the histories. -/
theorem Holds.historyMemory (hm : Holds m s) {nodes : List (Nat × ProcessHistory D)}
    (hqueues : Queues m.histories (fun _ : Unit => nodes) []) :
    m.historyMemory.Holds (fun _ : Unit => nodes) [] (allocated m.processes) :=
  hm.memory.swap hqueues

/-- Each node of the state is where it says. -/
theorem Holds.node_cell (hm : Holds m s) {p : CustomProcess} (hp : p ∈ s.nodes) :
    ∃ q, m.processes p.addr = some ⟨p.toQuantumProcess, q⟩ := by
  have hqueue : ∀ i, Custom.cell p ∈ cellsOf s i →
      ∃ q, m.processes p.addr = some ⟨p.toQuantumProcess, q⟩ := by
    intro i hi
    obtain ⟨_, hchain⟩ := hm.memory.queues.chain i
    exact hchain.exists_cell (List.mem_cons_of_mem _ hi)
  rw [Custom.State.nodes, List.mem_append, List.mem_append] at hp
  rcases hp with hp | hp | hp
  · refine hm.memory.queues.cell (Custom.cell p) ?_
    rw [Option.mem_toList] at hp ⊢
    rw [hp]
    rfl
  · exact hqueue 0 (List.mem_map_of_mem hp)
  · exact hqueue 1 (List.mem_map_of_mem hp)

section Adding

variable [DoubleArith D]

/-- There is a sentinel, after the first part of `init_process_history`. -/
theorem allocateSentinel_eq {others : Set Nat} {nodes : List (Nat × ProcessHistory D)}
    {l : Option (List (ProcessHistory D))}
    (hmemory : m.historyMemory.Holds (fun _ : Unit => nodes) [] others)
    (hnodes : HistoryNodes m.processHistories nodes l) :
    ∃ a x cells memory, allocateSentinel m =
        { m.withHistories memory with toStorage.processHistories := some a } ∧
      memory.Holds (fun _ : Unit => (a, x) :: cells) [] others ∧
      cells.map Prod.snd = l.getD [] := by
  generalize hp : m.processHistories = p at hnodes
  cases hnodes with
  | behind a x cells =>
    refine ⟨a, x, cells, m.historyMemory, ?_, hmemory, rfl⟩
    have hsame : allocateSentinel m = m := by rw [allocateSentinel, hp]
    rw [hsame, ← hp]
    rfl
  | unallocated =>
    let x : ProcessHistory D := { pid := 0, totalTimeRun := none, waitTime := 0,
                                  rescheduleCount := 0, score := DoubleArith.ofUInt 0 }
    obtain ⟨hheld, hfresh, -⟩ := hmemory.malloc x
    refine ⟨(m.historyMemory.malloc x).1, x, [], (m.historyMemory.malloc x).2, ?_, ?_, rfl⟩
    · rw [allocateSentinel, hp]
    · refine ⟨Queues.single (p := some _) (.cons (store_self _ _ _) .nil) fun a ha => ?_,
        hheld.live, hheld.apart⟩
      rcases hheld.queues.covers a ha with ⟨_, hmem⟩ | hmem
      · cases hmem
      · exact hmem

/-- **A history is added** behind the sentinel. -/
theorem initProcessHistory_eq {others : Set Nat} {nodes : List (Nat × ProcessHistory D)}
    {l : Option (List (ProcessHistory D))}
    (hmemory : m.historyMemory.Holds (fun _ : Unit => nodes) [] others)
    (hnodes : HistoryNodes m.processHistories nodes l) {p : CustomProcess} {q : Option Nat}
    (hp : m.processes p.addr = some ⟨p.toQuantumProcess, q⟩) :
    ∃ memory sentinel nodes', initProcessHistory m p.addr =
        some { m.withHistories memory with toStorage.processHistories := some sentinel } ∧
      memory.Holds (fun _ : Unit => nodes') [] others ∧
      HistoryNodes (some sentinel) nodes' (Custom.initProcessHistory l p) := by
  obtain ⟨a, x, cells, memory, hsentinel, hheld, hcells⟩ := allocateSentinel_eq hmemory hnodes
  obtain ⟨hheld', -, -⟩ := hheld.malloc (Custom.newHistory p)
  obtain ⟨heap, hinsert, hqueues, halloc⟩ :=
    hheld'.queues.insertNext (i := ()) (l := []) rfl
  rw [update_unit] at hqueues
  refine ⟨⟨heap, (memory.malloc (Custom.newHistory p)).2.allocator⟩, a, _, ?_,
    hheld'.of_queues hqueues halloc, ?_⟩
  · rw [initProcessHistory, hsentinel]
    show (m.processes p.addr).bind _ = _
    rw [hp, Option.bind_some]
    show (insertNext (memory.malloc (Custom.newHistory p)).2.heap a
      (memory.malloc (Custom.newHistory p)).1).bind _ = _
    rw [hinsert]
    rfl
  · rw [Custom.initProcessHistory, ← hcells]
    exact .behind a x ((_, Custom.newHistory p) :: cells)

/-- **A process is added**, at an address that no other node has. -/
theorem Holds.addToReadyQueue (hm : Holds m s) (hsteps : s.nodes.length < steps)
    (process : ProcessInitial) :
    ∃ m' a, addToReadyQueue steps m process = some m' ∧ (∀ p ∈ s.nodes, p.addr ≠ a) ∧
      Holds m' (Custom.addToReadyQueue { s with nextAddr := a } process) := by
  obtain ⟨hheld, hfresh, hothers⟩ := hm.memory.malloc (newQuantumProcess process)
  obtain ⟨nodes, hqueues, hnodes⟩ := hm.histories
  -- the new node is there, and then its history
  let p : CustomProcess :=
    { toQuantumProcess := newQuantumProcess process
      addr := (m.processMemory.malloc (newQuantumProcess process)).1 }
  let m₁ := m.withProcesses (m.processMemory.malloc (newQuantumProcess process)).2
  obtain ⟨memory, sentinelAddr, nodes', hinit, hhistories, hnodes'⟩ :=
    initProcessHistory_eq (m := m₁) (p := p) (hheld.swap hqueues) hnodes (store_self _ _ _)
  have hmemory := hhistories.swap hheld.queues
  obtain ⟨heap, hinsert, hheld', -⟩ := hmemory.insert (f := fun p => p.arrivalTime)
    (g := fun p => p.pid) (i := 0) (show (cellsOf s 0).length < steps by
      rw [cellsOf, if_pos rfl, List.length_map]
      rw [Custom.State.nodes, List.length_append, List.length_append] at hsteps
      omega)
  refine ⟨{ m₁.withHistories memory with
      toStorage.processes := heap
      toStorage.processHistories := some sentinelAddr }, p.addr, ?_, fun q hq heq => ?_,
    ⟨?_, ⟨nodes', hhistories.queues, hnodes'⟩, hm.priorityQueues, hm.current, hm.priorityLevel⟩⟩
  · rw [CustomProgram.addToReadyQueue]
    show (initProcessHistory m₁ p.addr).bind _ = _
    rw [hinit, Option.bind_some]
    exact congrArg (fun h : Option _ => h.bind _) hinsert
  · obtain ⟨r, hcell⟩ := hm.node_cell hq
    rw [heq] at hcell
    exact Option.some_ne_none _ (hcell.symm.trans hfresh)
  · have hmap : Lib.skipInsert (fun c => c.2.arrivalTime) (fun c => c.2.pid) (Custom.cell p)
        (cellsOf s 0) = (Lib.skipInsert (fun p => p.arrivalTime) (fun p => p.pid) p
          s.fastQueue).map Custom.cell :=
      (map_skipInsert (fun p : CustomProcess => p.arrivalTime) (fun p => p.pid)
        (fun c : Nat × QuantumProcess => c.2.arrivalTime) (fun c => c.2.pid) Custom.cell
        (fun _ => rfl) (fun _ => rfl) p s.fastQueue).symm
    have hcells := update_fast s
      (Lib.skipInsert (fun p => p.arrivalTime) (fun p => p.pid) p s.fastQueue)
    rw [← hmap] at hcells
    exact hcells ▸ hheld'

/-- The invariant of `Custom`, for an address that need not be the next one. -/
theorem ok_addToReadyQueue (hok : Custom.Ok s) {a : Nat} (ha : ∀ p ∈ s.nodes, p.addr ≠ a)
    (process : ProcessInitial) :
    ∃ nextAddr, Custom.Ok
      { Custom.addToReadyQueue { s with nextAddr := a } process with nextAddr } := by
  have hperm := Custom.addToReadyQueue_nodes { s with nextAddr := a } process
  refine ⟨max (a + 1) s.nextAddr, ⟨?_, ?_, fun p hp => ?_⟩⟩
  · refine List.Perm.trans ?_ (hperm.map Custom.nodeLink).symm
    exact hok.linked.cons _
  · have haddr := hperm.map fun p => p.addr
    refine haddr.nodup_iff.mpr ?_
    rw [List.map_cons, List.nodup_cons]
    refine ⟨fun hmem => ?_, hok.addr_nodup⟩
    obtain ⟨p, hp, heq⟩ := List.mem_map.mp hmem
    exact ha p hp heq
  · rcases List.mem_cons.mp (hperm.mem_iff.mp hp) with rfl | hp
    · exact Nat.lt_of_lt_of_le (Nat.lt_succ_self a) (le_max_left _ _)
    · exact Nat.lt_of_lt_of_le (hok.addr_lt p hp) (le_max_right _ _)

end Adding

end CustomProgram

end Cosc240
