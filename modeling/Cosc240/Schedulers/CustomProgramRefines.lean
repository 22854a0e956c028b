import Cosc240.Schedulers.CustomProgramHolds

/-!
# `get_next_scheduled_process` of `custom.c` in memory

Each part of it (custom.c:336–387) does to the memory what the part of the same name does to the
lists, and so the program in memory implements `Custom`.

- `Holds.selectBest` and `Holds.dispatch`: the best process of the smart queue is found and taken
  out, and dispatching takes the process that `Custom` takes.
- `Holds.runCurrent`: the wait times, and one unit of time for the current process.
- `moveToSmartQueue_eq`: `move_to_smart_queue` puts the process behind the last node.
- `Holds.retire_done`, `Holds.retire_demote`, `Holds.retire`: a complete process and its history are
  freed, and one whose slice is over goes to the end of the smart queue.
- `Rel`: the memory holds a state in which the two-queue scheduler (`Scored`) is as in the given
  one. The nodes may be at other addresses, since the allocator of `Custom` is only one of many.

Main results:

- `Holds.getNextScheduledProcess`: the whole function.
- `implements`: `custom.c` in memory implements `Custom`, for fewer processes than `steps`.
-/

namespace Cosc240

open Lib LinkedList

namespace CustomProgram

variable {D : Type} {A : Allocator {a | a < 2}} {m : Globals D A} {s s' : Custom.State D}
  {steps : Nat}

/-! ## Choosing a process -/

/-- Storing scores moves no history. -/
theorem HoldsHistories.refreshed {a : Nat} {x : ProcessHistory D}
    {cells : List (Nat × ProcessHistory D)} {histories : Option (List (Nat × ProcessHistory D))}
    {storage : Custom.Storage D} (hp : m.processHistories = some a)
    (hqueues : Queues m.histories (fun _ : Unit => (a, x) :: cells) [])
    (h : m.toStorage.Refreshed (some cells) storage histories) :
    HoldsHistories storage.histories storage.processHistories
        (histories.map (List.map Prod.snd)) ∧
      allocated storage.histories = allocated m.histories := by
  have halloc : allocated storage.histories = allocated m.histories := by
    ext b
    have hnone : storage.histories b = none ↔ m.histories b = none := by
      rw [← Option.map_eq_none_iff (f := Custom.unscored), h.rescored.histories b,
        Option.map_eq_none_iff]
    exact not_congr hnone
  obtain ⟨cells', rfl, haddrs⟩ := Option.map_eq_some_iff.mp h.addresses
  obtain ⟨a', x', hp', hchain⟩ := h.holds
  obtain rfl : a' = a := by
    rw [h.rescored.processHistories, hp] at hp'
    exact (Option.some.inj hp').symm
  refine ⟨⟨(a', x') :: cells', .single hchain fun b hb => ?_, hp' ▸ .behind _ _ _⟩, halloc⟩
  have hb' : b ∈ allocated m.histories := halloc ▸ hb
  rcases hqueues.covers b hb' with ⟨_, hmem⟩ | hmem
  · rw [addrs, List.map_cons, haddrs]
    exact hmem
  · cases hmem

theorem histories_length (hok : Custom.Ok s) :
    (s.processHistories.getD []).length = s.nodes.length := by
  have hlength := hok.linked.length_eq
  rw [List.length_map, List.length_map] at hlength
  exact hlength

theorem queues_length (s : Custom.State D) :
    s.fastQueue.length ≤ s.nodes.length ∧ s.smartQueue.length ≤ s.nodes.length := by
  rw [Custom.State.nodes, List.length_append, List.length_append]
  omega

section Dispatching

variable [DoubleArith D]

/-- **The best process of the smart queue** is found and taken out. -/
theorem Holds.selectBest (hm : Holds m s) (hok : Custom.Ok s) (hcur : s.current = none)
    {best : CustomProcess} (hbest : best ∈ s.smartQueue) (hqueue : s.smartQueue.length < steps)
    (hsteps : (s.processHistories.getD []).length < steps)
    (h : Custom.selectBestProcessFromSmartQueue s = some (some best, s')) :
    ∃ storage, m.selectBestProcessFromSmartQueue steps = some (some best.addr, storage) ∧
      Holds { m with toStorage := storage, current := some best.addr, priorityLevel := 1 }
        { s' with current := some best, priorityLevel := 1 } := by
  have hmem : ∀ p ∈ s.smartQueue, p ∈ s.nodes := fun p hp => by simp [Custom.State.nodes, hp]
  have hhistories := hok.processHistories (hmem best hbest)
  have hheld := hm.histories
  rw [hhistories] at hheld
  obtain ⟨a, x, cells, hp, hcells, hqueues, hstorage⟩ := hheld.exists_cells
  -- the two loops on lists have a result
  rw [Custom.selectBestProcessFromSmartQueue, hhistories, ← hcells] at h
  rw [hhistories, ← hcells] at hsteps
  cases hscan : Custom.scanSmartQueue s.readProcessedTime s.smartQueue none
      DoubleArith.negDblMax (some (cells.map Prod.snd)) with
  | none =>
    rw [hscan] at h
    cases h
  | some result =>
    obtain ⟨b, l'⟩ := result
    rw [hscan] at h
    cases b with
    | none => cases h
    | some b =>
      obtain ⟨queue', hunlink, heq⟩ := Option.map_eq_some_iff.mp h
      cases heq
      obtain ⟨before, p, after, hsplit, haddr, rfl⟩ := Custom.Storage.unlink_eq_some hunlink
      have hpb : p = best := List.inj_on_of_nodup_map hok.addr_nodup
        (hmem p (by simp [hsplit])) (hmem best hbest) haddr
      subst hpb
      -- the first loop on pointers
      obtain ⟨_, hchain⟩ := hm.memory.queues.chain 1
      cases hchain with
      | @cons _ _ first _ hsentinel hrest =>
        obtain ⟨storage, histories', hrun, rfl, hrefreshed⟩ :=
          Custom.Storage.scanSmartQueue_eq (m := m.toStorage)
            (fun _ _ => Custom.Storage.exists_of_readProcessedTime fun q hq => hm.node_cell hq)
            hrest hstorage (by simpa using hsteps) hqueue hscan
        obtain ⟨hheld', halloc⟩ := HoldsHistories.refreshed hp hqueues hrefreshed
        have hprocesses : storage.processes = m.processes := hrefreshed.rescored.processes
        -- the second one, and the removal
        obtain hnil | ⟨front, ⟨prev, y⟩, hfront⟩ :=
          List.eq_nil_or_concat' (((1 : Nat), sentinel) :: before.map Custom.cell)
        · cases hnil
        have happend : ∀ l, ((1 : Nat), sentinel) :: (before.map Custom.cell ++ l) =
            front ++ (prev, y) :: l := by
          intro l
          rw [← List.cons_append, hfront, List.append_assoc, List.singleton_append]
        have hcells₁ : behind sentinel (cellsOf s) 1 =
            front ++ (prev, y) :: Custom.cell p :: after.map Custom.cell := by
          rw [← happend, behind, cellsOf, if_neg (by decide), hsplit, List.map_append,
            List.map_cons]
          rfl
        obtain ⟨processes, hremoved, hqueues', halloc'⟩ :=
          hm.memory.queues.unlinkNext (i := 1) hcells₁
        obtain ⟨w, hchain⟩ := hm.memory.queues.chain 1
        obtain rfl : w = some ((1 : Fin 2) : Nat) := Chain.head_eq hchain
        rw [hcells₁] at hchain
        have hlength : front.length < steps := by
          have hlength := congrArg List.length hfront
          rw [List.length_cons, List.length_map, List.length_append] at hlength
          rw [hsplit, List.length_append] at hqueue
          simp only [List.length_cons, List.length_nil] at hlength hqueue
          omega
        have hprev := findPrev_eq hchain hlength
        refine ⟨{ storage with processes }, ?_, ⟨?_, hheld', ?_, rfl, rfl⟩⟩
        · rw [Custom.Storage.selectBestProcessFromSmartQueue, hm.priorityQueues,
            show m.processes (0 + 1) = _ from hsentinel]
          dsimp only
          rw [show m.scanSmartQueue steps steps first none DoubleArith.negDblMax = _ from hrun]
          dsimp only [Option.map_some]
          rw [hrefreshed.rescored.priorityQueues, hm.priorityQueues, hprocesses,
            show findPrev m.processes p.addr steps (some (0 + 1)) = _ from hprev]
          dsimp only
          rw [show LinkedList.unlinkNext m.processes prev p.addr = _ from hremoved]
          rfl
        · have hqueue' : cellsOf { s with smartQueue := before ++ after } =
              Function.update (cellsOf s) 1 (before.map Custom.cell ++ after.map Custom.cell) := by
            rw [← update_smart, List.map_append]
          rw [← happend, show ((1 : Nat), sentinel) = (((1 : Fin 2) : Nat), sentinel) from rfl,
            behind_update, ← hqueue', hcur] at hqueues'
          have hmemory := hm.memory.of_queues hqueues' halloc'
          rw [← halloc] at hmemory
          exact hmemory
        · exact hrefreshed.rescored.priorityQueues.trans hm.priorityQueues

/-- **Dispatching** takes the process that `Custom` takes. -/
theorem Holds.dispatch (hm : Holds m s) (hok : Custom.Ok s)
    (hv : ValidJobs (s.nodes.map fun p => p.toJob)) (hsteps : s.nodes.length < steps)
    (h : Custom.dispatch s = some s') :
    ∃ m', dispatch steps m = some m' ∧ Holds m' s' := by
  obtain ⟨hfast_le, hsmart_le⟩ := queues_length s
  rw [Custom.dispatch] at h
  rw [CustomProgram.dispatch, hm.current]
  cases hcur : s.current with
  | some c =>
    rw [hcur] at h
    cases h
    exact ⟨m, rfl, hm⟩
  | none =>
    rw [hcur] at h
    have hfast := hm.memory.sentinel_cell 0
    have hsmart := hm.memory.sentinel_cell 1
    show ∃ m', (m.processes 0).bind _ = _ ∧ _
    rw [show m.processes 0 = _ from hfast, Option.bind_some]
    cases hf : s.fastQueue with
    | cons p rest =>
      rw [hf] at h
      cases h
      have hcells : cellsOf s 0 = (p.addr, p.toQuantumProcess) :: rest.map Custom.cell := by
        rw [cellsOf, if_pos rfl, hf]
        rfl
      obtain ⟨processes, hremove, hheld, -⟩ := hm.memory.removeFirst hcells
      rw [hcells]
      show ∃ m', (removeNext m.processes 0).bind _ = _ ∧ _
      rw [show removeNext m.processes 0 = _ from hremove]
      refine ⟨_, rfl, ⟨?_, hm.histories, hm.priorityQueues, rfl, rfl⟩⟩
      rw [update_fast, hcur] at hheld
      exact hheld
    | nil =>
      rw [hf] at h
      have hcells : cellsOf s 0 = [] := by
        rw [cellsOf, if_pos rfl, hf]
        rfl
      rw [hcells]
      show ∃ m', (m.processes 1).bind _ = _ ∧ _
      rw [show m.processes 1 = _ from hsmart, Option.bind_some]
      cases hq : s.smartQueue with
      | nil =>
        rw [hq] at h
        cases h
        have hcells : cellsOf s 1 = [] := by
          rw [cellsOf, if_neg (by decide), hq]
          rfl
        rw [hcells]
        exact ⟨m, rfl, hm⟩
      | cons p rest =>
        rw [hq] at h
        have hcells : cellsOf s 1 = (p.addr, p.toQuantumProcess) :: rest.map Custom.cell := by
          rw [cellsOf, if_neg (by decide), hq]
          rfl
        obtain ⟨best, l', hsel, hbest, -⟩ :=
          hok.selectBestProcessFromSmartQueue hv (hq ▸ List.cons_ne_nil p rest)
        obtain ⟨storage, hrun, hheld⟩ := hm.selectBest hok hcur hbest
          (Nat.lt_of_le_of_lt hsmart_le hsteps) (histories_length hok ▸ hsteps) hsel
        simp only [hsel, Option.map_some, Option.some.injEq] at h
        subst h
        rw [hcells]
        show ∃ m', (m.selectBestProcessFromSmartQueue steps).bind _ = _ ∧ _
        rw [hrun]
        exact ⟨_, rfl, hheld⟩

end Dispatching

/-! ## One unit of time -/

/-- **The wait times and the current process.** -/
theorem Holds.runCurrent (hm : Holds m s) (hok : Custom.Ok s) (hsteps : s.nodes.length < steps)
    {c : CustomProcess} (hcur : s.current = some c) (h : Custom.runCurrent s c = some s') :
    ∃ m', runCurrent steps m c.addr = some m' ∧ Holds m' s' := by
  obtain ⟨hfast_le, hsmart_le⟩ := queues_length s
  obtain ⟨l', hwait, rfl⟩ := Option.map_eq_some_iff.mp h
  rw [Custom.updateWaitTimes, List.foldlM_append] at hwait
  obtain ⟨l₁, hfast, hsmart⟩ := Option.bind_eq_some_iff.mp hwait
  -- one walk over each queue
  obtain ⟨p₀, hchain₀⟩ := hm.memory.queues.chain 0
  obtain ⟨p₁, hchain₁⟩ := hm.memory.queues.chain 1
  have hlength := histories_length hok
  obtain ⟨heap₁, hrun₁, hheld₁, hlength₁, halloc₁⟩ := updateFrom_eq hchain₀
    (show s.fastQueue.length < steps by omega) hm.histories (hlength ▸ hsteps) hfast
  obtain ⟨heap₂, hrun₂, hheld₂, -, halloc₂⟩ := updateFrom_eq
    (m := { m with toStorage.histories := heap₁ }) hchain₁
    (show s.smartQueue.length < steps by omega) hheld₁ (hlength₁ ▸ hlength ▸ hsteps) hsmart
  have hmemory := hm.memory
  rw [hcur] at hmemory
  obtain ⟨processes, hmodify, hmemory', -⟩ := hmemory.modifyLoose QuantumProcess.execute
  refine ⟨{ m with toStorage.histories := heap₂, toStorage.processes := processes }, ?_, ?_, hheld₂,
    hm.priorityQueues, ?_, hm.priorityLevel⟩
  · rw [CustomProgram.runCurrent, updateWaitTimes]
    show ((updateFrom steps steps m 0).bind _).bind _ = _
    rw [show updateFrom steps steps m 0 = _ from hrun₁, Option.bind_some]
    show (updateFrom steps steps _ 1).bind _ = _
    rw [show updateFrom steps steps _ 1 = _ from hrun₂, Option.bind_some]
    show (LinkedList.modify m.processes c.addr _).bind _ = _
    rw [show LinkedList.modify m.processes c.addr _ = _ from hmodify]
    rfl
  · rw [← halloc₁, ← halloc₂] at hmemory'
    exact hmemory'
  · rw [hm.current, hcur]
    rfl

/-! ## The end of the time step -/

section Retiring

variable {c : CustomProcess}

theorem Holds.current_memory (hm : Holds m s) (hcur : s.current = some c) :
    m.processMemory.Holds (behind sentinel (cellsOf s)) [Custom.cell c]
      (allocated m.histories) := by
  have hmemory := hm.memory
  rw [hcur] at hmemory
  exact hmemory

/-- `move_to_smart_queue` puts the process behind the last node. -/
theorem moveToSmartQueue_eq {process last : Nat} {x y : QuantumProcess} {q : Option Nat}
    {processes : Heap QuantumProcess}
    (hwalk : skipWhile m.processes (fun _ => true) steps 1 = some last)
    (hlast : m.processes last = some ⟨x, none⟩) (hprocess : m.processes process = some ⟨y, q⟩)
    (hinsert : insertNext m.processes last process = some processes) :
    moveToSmartQueue steps m process = some { m with toStorage.processes := processes } := by
  rw [moveToSmartQueue, hwalk]
  show (m.processes process).bind _ = _
  rw [hprocess, Option.bind_some]
  rw [insertNext, hlast] at hinsert
  change (m.processes process).bind _ = _ at hinsert
  rw [hprocess, Option.bind_some] at hinsert
  obtain ⟨before, hbefore, heq⟩ := Option.bind_eq_some_iff.mp hinsert
  show (store m.processes process ⟨y, none⟩ last).bind _ = _
  rw [show store m.processes process ⟨y, none⟩ last = _ from hbefore]
  cases heq
  rfl

/-- A complete process and its history are freed. -/
theorem Holds.retire_done (hm : Holds m s) (hsteps : s.nodes.length < steps)
    (hok : Custom.Ok s) (hcur : s.current = some c) {histories : List (ProcessHistory D)}
    (hhistories : s.processHistories = some histories) {history : ProcessHistory D}
    (hfind : histories.find? (fun history => history.pid = c.pid) = some history) :
    ∃ memory m', m.processMemory.free c.addr = some memory ∧
      freeProcessHistory steps (m.withProcesses memory) c.pid = some m' ∧
      Holds { m' with current := none }
        { s with
          current := none
          processHistories := some (histories.eraseP fun history => history.pid = c.pid) } := by
  have hheld := hm.histories
  have hlength := histories_length hok
  rw [hhistories] at hheld hlength
  obtain ⟨memory, hfree, hmemory, -⟩ := (hm.current_memory hcur).free
  obtain ⟨memory', nodes, hfree', hmemory', hnodes⟩ :=
    HoldsHistories.free (m := m.withProcesses memory) hheld
      (fun _ hqueues => hmemory.swap hqueues) (show histories.length < steps by
        rw [Option.getD_some] at hlength
        omega) hfind
  exact ⟨memory, _, hfree, hfree', hmemory'.swap hmemory.queues, ⟨nodes, hmemory'.queues, hnodes⟩,
    hm.priorityQueues, rfl, hm.priorityLevel⟩

/-- A process whose slice is over goes to the end of the smart queue. -/
theorem Holds.retire_demote (hm : Holds m s) (hsteps : s.nodes.length < steps)
    (hok : Custom.Ok s) (hcur : s.current = some c) {histories : List (ProcessHistory D)}
    (hhistories : s.processHistories = some histories) {history : ProcessHistory D}
    (hfind : histories.find? (fun history => history.pid = c.pid) = some history) :
    ∃ a processes heap processes', m.getProcessHistory steps c.pid = some (some a) ∧
      moveToSmartQueue steps m c.addr = some { m with toStorage.processes := processes } ∧
      modify m.histories a Custom.addReschedule = some heap ∧
      modify processes c.addr (fun p => { p with quantumUsed := 0 }) = some processes' ∧
      Holds { m with
          toStorage.histories := heap, toStorage.processes := processes', current := none }
        { s with
          smartQueue := s.smartQueue ++ [Custom.requeued c]
          current := none
          processHistories :=
            some (Custom.modifyHistory c.pid Custom.addReschedule histories) } := by
  have hmemory := hm.current_memory hcur
  have hheld := hm.histories
  have hlength := histories_length hok
  rw [hhistories] at hheld hlength
  rw [Option.getD_some] at hlength
  obtain ⟨a, heap, hlookup, hmodify, hheld', halloc⟩ :=
    hheld.modify (hlength ▸ hsteps) hfind Custom.addReschedule
  -- the end of the smart queue
  have hqueue : (cellsOf s 1).length < steps := by
    rw [cellsOf, if_neg (by decide), List.length_map]
    exact Nat.lt_of_le_of_lt (queues_length s).2 hsteps
  obtain ⟨front, ⟨last, x⟩, hwalk, hlast⟩ := hmemory.last hqueue
  obtain ⟨processes, hinsert, hmemory', halloc'⟩ := hmemory.insertLast hlast
  obtain ⟨_, hchain⟩ := hmemory.queues.chain 1
  rw [hlast] at hchain
  obtain ⟨_, htail⟩ := hchain.suffix
  have hlast_cell : m.processes last = some ⟨x, none⟩ := by
    cases htail with
    | cons hcell hrest =>
      cases hrest
      exact hcell
  obtain ⟨q, hcell⟩ := hmemory.loose_cell
  have hmove := moveToSmartQueue_eq hwalk hlast_cell hcell hinsert
  -- the process is in the smart queue already when `quantum_used` is reset
  have hrequeued : behind sentinel
      (Function.update (cellsOf s) 1 (cellsOf s 1 ++ [(c.addr, (Custom.cell c).2)])) 1 =
      (((1 : Fin 2) : Nat), sentinel) :: cellsOf s 1 ++ (c.addr, (Custom.cell c).2) :: [] := by
    rw [behind, Function.update_self]
    rfl
  obtain ⟨processes', hreset, hqueues, halloc''⟩ := hmemory'.queues.modify hrequeued
    fun p => { p with quantumUsed := 0 }
  refine ⟨a, processes, heap, processes', hlookup, hmove, hmodify, hreset, ?_, hheld',
    hm.priorityQueues, rfl, hm.priorityLevel⟩
  have hcells : cellsOf { s with smartQueue := s.smartQueue ++ [Custom.requeued c] } =
      Function.update (cellsOf s) 1 (cellsOf s 1 ++ [Custom.cell (Custom.requeued c)]) := by
    rw [← update_smart, List.map_append]
    rfl
  rw [List.cons_append, behind_update, Function.update_idem] at hqueues
  have hmemory'' := hmemory'.of_queues hqueues halloc''
  rw [← halloc] at hmemory''
  exact hcells ▸ hmemory''

/-- **The end of the time step.** -/
theorem Holds.retire (hm : Holds m s) (hok : Custom.Ok s)
    (hnd : (s.nodes.map fun p => p.pid).Nodup) (hsteps : s.nodes.length < steps)
    (hcur : s.current = some c) {pid : Nat} (h : Custom.retire s c = some (pid, s')) :
    ∃ m', retire steps m c.addr = some (pid, m') ∧ Holds m' s' := by
  have hmem : c ∈ s.nodes := Custom.nodes_of_current hcur ▸ List.mem_cons_self
  obtain ⟨q, hcell⟩ := hm.node_cell hmem
  obtain ⟨history, hfind, -, -⟩ := hok.find_history hnd hmem rfl
  have hhistories := hok.processHistories hmem
  have hheld := hm.histories
  have hlength := histories_length hok
  rw [hhistories] at hheld hlength
  rw [Option.getD_some] at hlength
  obtain ⟨a, hlookup, -⟩ := hheld.getProcessHistory (hlength ▸ hsteps) c.pid
  simp only [Custom.retire, hhistories, Custom.getProcessHistory, Option.map_some, hfind] at h
  rw [CustomProgram.retire, hcell]
  show ∃ m', (m.getProcessHistory steps c.pid).bind _ = _ ∧ _
  by_cases hdone : c.processedTime = c.processingTime
  · rw [if_pos hdone] at h
    cases h
    obtain ⟨memory, m', hfree, hfree', hheld'⟩ :=
      hm.retire_done hsteps hok hcur hhistories hfind
    rw [hlookup, Option.bind_some]
    dsimp only
    rw [if_pos hdone, hfree]
    show ∃ m', (freeProcessHistory steps _ c.pid).bind _ = _ ∧ _
    rw [hfree']
    exact ⟨_, rfl, hheld'⟩
  · rw [if_neg hdone] at h
    by_cases hquantum : c.quantumUsed ≥ (s.priorityLevel + 1) * 2
    · rw [if_pos hquantum] at h
      cases h
      obtain ⟨a, processes, heap, processes', hlookup, hmove, hmodify, hreset, hheld'⟩ :=
        hm.retire_demote hsteps hok hcur hhistories hfind
      rw [hlookup, Option.bind_some]
      dsimp only
      rw [if_neg hdone, hm.priorityLevel, if_pos hquantum, hmove]
      show ∃ m', (LinkedList.modify m.histories a Custom.addReschedule).bind _ = _ ∧ _
      rw [hmodify, Option.bind_some]
      show ∃ m', (LinkedList.modify processes c.addr _).bind _ = _ ∧ _
      rw [hreset]
      exact ⟨_, rfl, hheld'⟩
    · rw [if_neg hquantum] at h
      cases h
      rw [hlookup, Option.bind_some]
      dsimp only
      rw [if_neg hdone, hm.priorityLevel, if_neg hquantum]
      exact ⟨m, rfl, hm⟩

end Retiring

/-! ## The whole program -/

/-- Addresses aside, the same processes are there. -/
theorem jobs_eq (h : s.scored = s'.scored) :
    s.nodes.map (fun p => p.toJob) = s'.nodes.map fun p => p.toJob := by
  rw [← Custom.scored_nodes_toJob, h, Custom.scored_nodes_toJob]

theorem length_eq (h : s.scored = s'.scored) : s.nodes.length = s'.nodes.length := by
  have hlength := congrArg List.length (jobs_eq h)
  rwa [List.length_map, List.length_map] at hlength

theorem Holds.withNextAddr (hm : Holds m s) (nextAddr : Nat) : Holds m { s with nextAddr } :=
  ⟨hm.memory, hm.histories, hm.priorityQueues, hm.current, hm.priorityLevel⟩

/-! ### The sentinel of the histories

It is allocated with the first process, and never freed. -/

theorem scanSmartQueue_isSome [DoubleArith D] {read : Nat → Option Nat} {queue : List CustomProcess}
    {best b : Option CustomProcess} {bestScore : D} {l l' : Option (List (ProcessHistory D))}
    (h : Custom.scanSmartQueue read queue best bestScore l = some (b, l')) :
    l'.isSome = l.isSome := by
  induction queue generalizing best bestScore l with
  | nil =>
    cases h
    rfl
  | cons p rest ih =>
    cases l with
    | none => cases h
    | some histories =>
      obtain ⟨-, -, rfl⟩ | ⟨_, score, _, -, -, h⟩ := Custom.Storage.scanSmartQueue_cons_cases h
      · rfl
      · by_cases hgt : DoubleArith.gt score bestScore = true
        · rw [if_pos hgt] at h
          exact (ih h).trans rfl
        · rw [if_neg hgt] at h
          exact (ih h).trans rfl

theorem dispatch_isSome [DoubleArith D] (h : Custom.dispatch s = some s') :
    s'.processHistories.isSome = s.processHistories.isSome := by
  rw [Custom.dispatch] at h
  split at h
  · cases h
    rfl
  · split at h
    · cases h
      rfl
    · cases h
      rfl
    · obtain ⟨⟨best, t⟩, hsel, rfl⟩ := Option.map_eq_some_iff.mp h
      show t.processHistories.isSome = _
      rw [Custom.selectBestProcessFromSmartQueue] at hsel
      split at hsel
      · cases hsel
      · next hscan =>
        cases hsel
        exact scanSmartQueue_isSome hscan
      · next hscan =>
        obtain ⟨_, -, heq⟩ := Option.map_eq_some_iff.mp hsel
        cases heq
        exact scanSmartQueue_isSome hscan

theorem updateWaitTimes_isSome {queued : List CustomProcess}
    {l l' : Option (List (ProcessHistory D))} (h : Custom.updateWaitTimes l queued = some l') :
    l'.isSome = l.isSome := by
  induction queued generalizing l with
  | nil =>
    cases h
    rfl
  | cons p rest ih =>
    obtain ⟨histories, rfl, ⟨-, h⟩ | ⟨_, -, h⟩⟩ := updateWaitTimes_cons h
    · exact ih h
    · exact (ih h).trans rfl

theorem retire_isSome {c : CustomProcess} {pid : Nat} (h : Custom.retire s c = some (pid, s')) :
    s'.processHistories.isSome = s.processHistories.isSome := by
  rw [Custom.retire] at h
  split at h
  · cases h
  · split at h
    · cases h
      exact Option.isSome_map
    · split at h
      · split at h
        · cases h
        · cases h
          exact Option.isSome_map
      · cases h
        rfl

theorem next_isSome [DoubleArith D] {pid : Nat}
    (h : Custom.getNextScheduledProcess s = some (pid, s')) :
    s'.processHistories.isSome = s.processHistories.isSome := by
  rw [Custom.getNextScheduledProcess] at h
  split at h
  · cases h
  · next t hdisp =>
    rw [← dispatch_isSome hdisp]
    split at h
    · cases h
      rfl
    · split at h
      · cases h
      · next u hrun =>
        obtain ⟨l, hwait, rfl⟩ := Option.map_eq_some_iff.mp hrun
        rw [retire_isSome h]
        exact updateWaitTimes_isSome hwait

/-! ### The relation -/

/-- The memory holds a state in which the two-queue scheduler is as in `s`. The nodes may be
at other addresses. -/
def Rel (m : Globals D A) (s : Custom.State D) : Prop :=
  ∃ t, Holds m t ∧ Custom.Ok t ∧ t.scored = s.scored ∧
    t.processHistories.isSome = s.processHistories.isSome

section Implementing

variable [DoubleArith D]

/-- **`get_next_scheduled_process`.** -/
theorem Holds.getNextScheduledProcess (hm : Holds m s) (hok : Custom.Ok s)
    (hv : ValidJobs (s.nodes.map fun p => p.toJob)) (hsteps : s.nodes.length < steps) {pid : Nat}
    (h : Custom.getNextScheduledProcess s = some (pid, s')) :
    ∃ m', getNextScheduledProcess steps m = some (pid, m') ∧ Holds m' s' := by
  obtain ⟨s₁, hdisp, -, hok₁, hperm⟩ := hok.dispatch hv
  obtain ⟨m₁, hdisp', hm₁⟩ := hm.dispatch hok hv hsteps hdisp
  have hv₁ : ValidJobs (s₁.nodes.map fun p => p.toJob) := hv.perm (hperm.symm.map _)
  have hsteps₁ : s₁.nodes.length < steps := hperm.length_eq ▸ hsteps
  rw [Custom.getNextScheduledProcess, hdisp] at h
  dsimp only at h
  rw [CustomProgram.getNextScheduledProcess, hdisp']
  show ∃ m', (some m₁).bind _ = _ ∧ _
  rw [Option.bind_some, hm₁.current]
  cases hcur : s₁.current with
  | none =>
    rw [hcur] at h
    cases h
    exact ⟨m₁, rfl, hm₁⟩
  | some c =>
    rw [hcur] at h
    obtain ⟨s₂, hrun, -, hok₂, hcur₂, hpids⟩ := hok₁.runCurrent hv₁ hcur
    obtain ⟨m₂, hrun', hm₂⟩ := hm₁.runCurrent hok₁ hsteps₁ hcur hrun
    have hlength := congrArg List.length hpids
    rw [List.length_map, List.length_map] at hlength
    dsimp only at h
    rw [hrun] at h
    obtain ⟨m', hretire, hm'⟩ := hm₂.retire hok₂ (hpids ▸ Custom.pids_nodup_of_valid hv₁)
      (hlength ▸ hsteps₁) hcur₂ h
    refine ⟨m', ?_, hm'⟩
    show (CustomProgram.runCurrent steps m₁ c.addr).bind _ = _
    rw [hrun']
    exact hretire

/-- **`custom.c` in memory implements `Custom`**, for fewer processes than `steps`. -/
def implements (D : Type) [DoubleArith D] (A : Allocator {a | a < 2}) {bound steps : Nat}
    (hsteps : bound < steps) : Implements (program D A steps) (Custom.books D) bound where
  Rel := Rel
  init := by
    have hempty : allocated (fun _ => none : Heap (ProcessHistory D)) = ∅ :=
      Set.eq_empty_of_forall_notMem fun _ ha => ha rfl
    have hcells : cellsOf (Custom.init : Custom.State D) = fun _ => [] := by
      funext i
      by_cases hi : i = 0
      · rw [cellsOf, if_pos hi]
        rfl
      · rw [cellsOf, if_neg hi]
        rfl
    refine ⟨Custom.init, ⟨?_, ⟨[], .single .nil fun _ ha => absurd rfl ha, .unallocated⟩, rfl, rfl,
      rfl⟩, (Custom.books D).init_ok, rfl, rfl⟩
    show NodeMemory.Holds (.sentinels A sentinel) (behind sentinel (cellsOf Custom.init)) []
      (allocated fun _ => none)
    rw [hempty, hcells]
    exact NodeMemory.sentinels_holds A sentinel
  add m s p := by
    rintro ⟨t, hm, hok, hscored, -⟩ - hv hlength
    have hlength' : s.nodes.length < bound := by simpa [Custom.books] using hlength
    obtain ⟨m', a, hadd, hfresh, hm'⟩ := hm.addToReadyQueue
      (length_eq hscored ▸ hlength'.trans hsteps) p
    obtain ⟨nextAddr, hok'⟩ := ok_addToReadyQueue hok hfresh p
    -- the pid is new, in `t` as well
    have hnew : ∀ {t : Custom.State D}, t.nodes.map (fun p => p.toJob) =
        s.nodes.map (fun p => p.toJob) → ∀ q ∈ t.nodes, q.pid ≠ p.pid := by
      intro t hjobs q hq heq
      have hmem : q.toJob ∈ s.nodes.map fun p => p.toJob := hjobs ▸ List.mem_map_of_mem hq
      exact (List.nodup_cons.mp hv.nodup).1 (List.mem_map.mpr ⟨q.toJob, hmem, heq⟩)
    refine ⟨m', hadd, _, hm'.withNextAddr nextAddr, hok', ?_, rfl⟩
    calc (Custom.addToReadyQueue { t with nextAddr := a } p).scored
        = Scored.addToReadyQueue t.scored p :=
          Custom.addToReadyQueue_scored (hnew (t := { t with nextAddr := a }) (jobs_eq hscored))
      _ = Scored.addToReadyQueue s.scored p := by rw [hscored]
      _ = (Custom.addToReadyQueue s p).scored :=
          (Custom.addToReadyQueue_scored (hnew rfl)).symm
  next m s pid s' := by
    rintro ⟨t, hm, hok, hscored, hsome⟩ hok_s hv hlength hnext
    have hlength' : s.nodes.length ≤ bound := by simpa [Custom.books] using hlength
    have hv' : ValidJobs (t.nodes.map fun p => p.toJob) := jobs_eq hscored ▸ hv
    obtain ⟨t', hnext', -, hok'⟩ := hok.getNextScheduledProcess hv'
    obtain ⟨hpid, hscored'⟩ := Custom.scored_next hok hok_s hv' hv hscored hnext' hnext
    rw [hpid] at hnext'
    obtain ⟨m', hrun, hm'⟩ := hm.getNextScheduledProcess hok hv'
      (length_eq hscored ▸ hlength'.trans_lt hsteps) hnext'
    refine ⟨m', hrun, t', hm', hok', hscored', ?_⟩
    rw [next_isSome hnext', hsome, next_isSome hnext]

end Implementing

end CustomProgram

end Cosc240
