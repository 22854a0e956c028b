import Cosc240.Lib.LinkedList
import Cosc240.Schedulers.Custom

/-!
# `select_best_process_from_smart_queue`, pointer by pointer

In `Custom` the smart queue and the histories are lists. Here they are what `custom.c` has:
nodes in memory, each with a pointer to the next one, behind a sentinel node. The function
on pointers (custom.c:286–326) does what the function on lists does, whenever that has a result.

- `Storage`: the nodes of the queues, the histories, the address of `priority_queues[0]`, which
  `priority_queues[1]` is next to, and `process_histories`.
- `Storage.getProcessHistory`, `Storage.calculateNewScore`, `Storage.scanSmartQueue` and
  `Storage.selectBestProcessFromSmartQueue`: the functions on it, as they are in the source. Scores
  are stored in the histories on the way.
- `Holds`: the memory has the smart queue and the histories of a state.
- `Rescored`, `Refreshed`: nothing but scores has changed.

Main results:

- `scanSmartQueue_eq`: the first loop on pointers does what the loop on lists does. Each of its
  turns is `scanSmartQueue_cons`.
- `Holds.unlink`: the second loop on pointers removes what the loop on lists removes.
- `Holds.selectBestProcessFromSmartQueue`: the function on pointers does what the function on lists
  does, and leaves the best process without a next one.
-/

namespace Cosc240

open Lib LinkedList

namespace Custom

variable {D : Type}

/-! ## The function -/

/-- The memory: the nodes of the queues, the histories, the address of
`priority_queues[0]`, which `priority_queues[1]` is next to, and `process_histories`. -/
structure Storage (D : Type) where
  processes : Heap QuantumProcess
  histories : Heap (ProcessHistory D)
  priorityQueues : Nat
  processHistories : Option Nat

/-- `get_process_history`. -/
def Storage.getProcessHistory (m : Storage D) (steps pid : Nat) : Option (Option Nat) :=
  match m.processHistories with
  | none => none
  | some sentinel =>
    match m.histories sentinel with
    | none => none
    | some c => find m.histories (fun history => history.pid = pid) steps c.next

/-- `calculate_new_score`, for the history and the process at these addresses. -/
def Storage.calculateNewScore [DoubleArith D] (m : Storage D) (history process : Nat) :
    Option (D × Storage D) :=
  match m.histories history with
  | none => none
  | some h =>
    match h.data.totalTimeRun with
    | none => some (DoubleArith.negDblMax, m)
    | some ptr =>
      match m.processes ptr, m.processes process with
      | some run, some p =>
        let score : D := scoreOf h.data.waitTime run.data.processedTime h.data.rescheduleCount
          p.data.processingTime p.data.processedTime
        some (score,
          { m with histories := store m.histories history { h with data.score := score } })
      | _, _ => none

/-- The first loop of `select_best_process_from_smart_queue`, from `node` on. -/
def Storage.scanSmartQueue [DoubleArith D] (steps : Nat) :
    Nat → Option Nat → Option Nat → D → Storage D → Option (Option Nat × Storage D)
  | 0, _, _, _, _ => none
  | _ + 1, none, best, _, m => some (best, m)
  | left + 1, some node, best, bestScore, m =>
    match m.processes node with
    | none => none
    | some process =>
      match m.getProcessHistory steps process.data.pid with
      | none => none
      -- no history for this pid: the message, and `break`
      | some none => some (best, m)
      | some (some history) =>
        match m.calculateNewScore history node with
        | none => none
        | some (score, m) =>
          if DoubleArith.gt score bestScore then
            scanSmartQueue steps left process.next (some node) score m
          else
            scanSmartQueue steps left process.next best bestScore m

/-- `select_best_process_from_smart_queue`. No loop takes more than so many steps. -/
def Storage.selectBestProcessFromSmartQueue [DoubleArith D] (m : Storage D) (steps : Nat) :
    Option (Option Nat × Storage D) :=
  match m.processes (m.priorityQueues + 1) with
  | none => none
  | some sentinel =>
    match m.scanSmartQueue steps steps sentinel.next none DoubleArith.negDblMax with
    | none => none
    | some (none, m) => some (none, m)
    | some (some best, m) =>
      match findPrev m.processes best steps (some (m.priorityQueues + 1)) with
      | none => none
      | some prev =>
        (unlinkNext m.processes prev best).map fun processes =>
          (some best, { m with processes })

/-! ## The lists in memory -/

/-- A node of a queue, with its address. -/
def cell (p : CustomProcess) : Nat × QuantumProcess := (p.addr, p.toQuantumProcess)

/-- A history without the score, and with the pointer to the next one. -/
def unscored (c : Cell (ProcessHistory D)) : Nat × Option Nat × Nat × Nat × Option Nat :=
  (c.data.pid, c.data.totalTimeRun, c.data.waitTime, c.data.rescheduleCount, c.next)

namespace Storage

variable {m m' : Storage D} {histories : Option (List (Nat × ProcessHistory D))}

/-- The histories with their addresses, or `none` while the sentinel is not allocated. -/
def HoldsHistories (m : Storage D) : Option (List (Nat × ProcessHistory D)) → Prop
  | none => m.processHistories = none
  | some cells => ∃ sentinel x, m.processHistories = some sentinel ∧
      Chain m.histories (some sentinel) ((sentinel, x) :: cells)

/-- The smart queue, behind `priority_queues[1]`, and the histories. -/
structure Holds (m : Storage D) (queue : List CustomProcess)
    (histories : Option (List (Nat × ProcessHistory D))) : Prop where
  queue : ∃ x, Chain m.processes (some (m.priorityQueues + 1))
    ((m.priorityQueues + 1, x) :: queue.map cell)
  histories : m.HoldsHistories histories

/-- Nothing but scores may have changed. -/
structure Rescored (m m' : Storage D) : Prop where
  processes : m'.processes = m.processes
  priorityQueues : m'.priorityQueues = m.priorityQueues
  processHistories : m'.processHistories = m.processHistories
  histories : ∀ a, (m'.histories a).map unscored = (m.histories a).map unscored

theorem Rescored.refl (m : Storage D) : m.Rescored m := ⟨rfl, rfl, rfl, fun _ => rfl⟩

theorem Rescored.trans {m'' : Storage D} (h : m.Rescored m') (h' : m'.Rescored m'') :
    m.Rescored m'' where
  processes := h'.processes.trans h.processes
  priorityQueues := h'.priorityQueues.trans h.priorityQueues
  processHistories := h'.processHistories.trans h.processHistories
  histories a := (h'.histories a).trans (h.histories a)

/-- Only scores have changed, and `m'` holds these histories, each where it was. -/
structure Refreshed (m : Storage D) (histories : Option (List (Nat × ProcessHistory D)))
    (m' : Storage D) (histories' : Option (List (Nat × ProcessHistory D))) : Prop where
  rescored : m.Rescored m'
  holds : m'.HoldsHistories histories'
  addresses : histories'.map (List.map Prod.fst) = histories.map (List.map Prod.fst)

theorem Refreshed.refl (hm : m.HoldsHistories histories) : m.Refreshed histories m histories :=
  ⟨.refl m, hm, rfl⟩

theorem Refreshed.trans {m'' : Storage D}
    {histories' histories'' : Option (List (Nat × ProcessHistory D))}
    (h : m.Refreshed histories m' histories') (h' : m'.Refreshed histories' m'' histories'') :
    m.Refreshed histories m'' histories'' :=
  ⟨h.rescored.trans h'.rescored, h'.holds, h'.addresses.trans h.addresses⟩

theorem Refreshed.length_eq {cells cells' : List (Nat × ProcessHistory D)}
    (h : m.Refreshed (some cells) m' (some cells')) : cells'.length = cells.length := by
  have hlength := congrArg List.length (Option.some.inj h.addresses)
  rwa [List.length_map, List.length_map] at hlength

/-! ## The first loop -/

theorem getProcessHistory_eq {cells : List (Nat × ProcessHistory D)} {steps : Nat}
    (hm : m.HoldsHistories (some cells)) (hsteps : cells.length < steps) (pid : Nat) :
    m.getProcessHistory steps pid =
      some ((cells.find? fun c => c.2.pid = pid).map Prod.fst) := by
  obtain ⟨sentinel, x, hsentinel, hchain⟩ := hm
  cases hchain with
  | cons hcell hrest =>
    rw [getProcessHistory, hsentinel]
    dsimp only
    rw [hcell]
    exact find_eq hrest hsteps

theorem modifyHistory_append {pid : Nat} {f : ProcessHistory D → ProcessHistory D}
    {front back : List (ProcessHistory D)} {history : ProcessHistory D}
    (hfront : ∀ other ∈ front, other.pid ≠ pid) (hpid : history.pid = pid) :
    modifyHistory pid f (front ++ history :: back) = front ++ f history :: back := by
  induction front with
  | nil => exact if_pos hpid
  | cons other front ih =>
    obtain ⟨hother, hrest⟩ := List.forall_mem_cons.mp hfront
    rw [List.cons_append, modifyHistory, if_neg hother, ih hrest]
    rfl

/-- A score is stored. -/
theorem HoldsHistories.store_score {front back : List (Nat × ProcessHistory D)} {a : Nat}
    {history : ProcessHistory D} (hm : m.HoldsHistories (some (front ++ (a, history) :: back)))
    (score : D) :
    ∃ next, m.histories a = some ⟨history, next⟩ ∧
      m.Refreshed (some (front ++ (a, history) :: back))
        { m with histories := store m.histories a ⟨{ history with score }, next⟩ }
        (some (front ++ (a, { history with score }) :: back)) := by
  obtain ⟨sentinel, x, hsentinel, hchain⟩ := hm
  rw [← List.cons_append] at hchain
  obtain ⟨next, hcell, hchain'⟩ := hchain.store_data { history with score }
  refine ⟨next, hcell, ⟨rfl, rfl, rfl, fun b => ?_⟩, ⟨sentinel, x, hsentinel, hchain'⟩, ?_⟩
  · by_cases hb : b = a
    · show (store _ _ _ b).map _ = _
      rw [hb, store_self, hcell]
      rfl
    · exact congrArg (Option.map unscored) (store_of_ne hb _ _)
  · rw [Option.map_some, List.map_append, Option.map_some, List.map_append]
    rfl

/-- One score is computed, and stored in the history that has been found. -/
theorem calculateNewScore_eq [DoubleArith D] {read : Nat → Option Nat}
    (hread : ∀ ptr v, read ptr = some v →
      ∃ c, m.processes ptr = some c ∧ c.data.processedTime = v)
    {cells : List (Nat × ProcessHistory D)} (hm : m.HoldsHistories (some cells))
    {p : CustomProcess} {next : Option Nat}
    (hp : m.processes p.addr = some ⟨p.toQuantumProcess, next⟩) {a : Nat}
    {history history' : ProcessHistory D} {score : D}
    (hfind : (cells.find? fun c => c.2.pid = p.pid) = some (a, history))
    (hscore : Custom.calculateNewScore read history p = some (score, history')) :
    ∃ m' cells', m.calculateNewScore a p.addr = some (score, m') ∧
      cells'.map Prod.snd = modifyHistory p.pid (fun _ => history') (cells.map Prod.snd) ∧
      m.Refreshed (some cells) m' (some cells') := by
  obtain ⟨hpid, front, back, rfl, hfront⟩ := List.find?_eq_some_iff_append.mp hfind
  have hmodify : modifyHistory p.pid (fun _ => history')
      ((front ++ (a, history) :: back).map Prod.snd) =
      (front ++ (a, history') :: back).map Prod.snd := by
    rw [List.map_append, List.map_append]
    refine modifyHistory_append (fun other hother => ?_) (of_decide_eq_true hpid)
    obtain ⟨c, hc, rfl⟩ := List.mem_map.mp hother
    simpa using hfront c hc
  obtain ⟨link, hcell, hstored⟩ := hm.store_score score
  rw [Custom.calculateNewScore] at hscore
  cases hptr : history.totalTimeRun with
  | none =>
    rw [hptr] at hscore
    cases hscore
    refine ⟨m, front ++ (a, history) :: back, ?_, hmodify.symm, .refl hm⟩
    rw [calculateNewScore, hcell]
    dsimp only
    rw [hptr]
  | some ptr =>
    rw [hptr] at hscore
    obtain ⟨run, hrun, heq⟩ := Option.map_eq_some_iff.mp hscore
    obtain ⟨c, hc, rfl⟩ := hread ptr run hrun
    rw [← hptr] at heq
    obtain ⟨rfl, rfl⟩ := Prod.mk.inj heq
    refine ⟨_, _, ?_, hmodify.symm, hstored⟩
    rw [calculateNewScore, hcell]
    dsimp only
    rw [hptr]
    dsimp only
    rw [hc, hp]

/-- One turn of the loop on lists: it stops, as there is no history, or it goes on with the
better of two processes. -/
theorem scanSmartQueue_cons_cases [DoubleArith D] {read : Nat → Option Nat} {p : CustomProcess}
    {rest : List CustomProcess} {best b : Option CustomProcess} {bestScore : D}
    {l : List (ProcessHistory D)} {l' : Option (List (ProcessHistory D))}
    (hscan : Custom.scanSmartQueue read (p :: rest) best bestScore (some l) = some (b, l')) :
    (l.find? (fun history => history.pid = p.pid) = none ∧ b = best ∧ l' = some l) ∨
    ∃ history score history', l.find? (fun history => history.pid = p.pid) = some history ∧
      Custom.calculateNewScore read history p = some (score, history') ∧
      (if DoubleArith.gt score bestScore then
          Custom.scanSmartQueue read rest (some p) score
            (some (modifyHistory p.pid (fun _ => history') l))
        else Custom.scanSmartQueue read rest best bestScore
          (some (modifyHistory p.pid (fun _ => history') l))) = some (b, l') := by
  rw [Custom.scanSmartQueue, Custom.getProcessHistory, Option.map_some] at hscan
  cases hfind : l.find? fun history => history.pid = p.pid with
  | none =>
    rw [hfind] at hscan
    cases hscan
    exact .inl ⟨rfl, rfl, rfl⟩
  | some history =>
    rw [hfind] at hscan
    dsimp only at hscan
    cases hcalc : Custom.calculateNewScore read history p with
    | none =>
      rw [hcalc] at hscan
      cases hscan
    | some result =>
      rw [hcalc] at hscan
      exact .inr ⟨history, result.1, result.2, rfl, hcalc, hscan⟩

/-- One turn of the loop on pointers, for a node with a history. -/
theorem scanSmartQueue_cons [DoubleArith D] {steps left a history : Nat} {p : QuantumProcess}
    {next : Option Nat} {score : D} (hcell : m.processes a = some ⟨p, next⟩)
    (hlookup : m.getProcessHistory steps p.pid = some (some history))
    (hnew : m.calculateNewScore history a = some (score, m')) (best : Option Nat) (bestScore : D) :
    m.scanSmartQueue steps (left + 1) (some a) best bestScore =
      if DoubleArith.gt score bestScore then
        m'.scanSmartQueue steps left next (some a) score
      else m'.scanSmartQueue steps left next best bestScore := by
  rw [scanSmartQueue, hcell]
  dsimp only
  rw [hlookup]
  dsimp only
  rw [hnew]

/-- **The first loop** on pointers does what the loop on lists does. -/
theorem scanSmartQueue_eq [DoubleArith D] {read : Nat → Option Nat}
    (hread : ∀ ptr v, read ptr = some v →
      ∃ c, m.processes ptr = some c ∧ c.data.processedTime = v)
    {rest : List CustomProcess} {node : Option Nat} (hrest : Chain m.processes node (rest.map cell))
    (hm : m.HoldsHistories histories) {steps left : Nat}
    (hsteps : (histories.getD []).length < steps) (hleft : rest.length < left)
    {best b : Option CustomProcess} {bestScore : D} {l' : Option (List (ProcessHistory D))}
    (hscan : Custom.scanSmartQueue read rest best bestScore (histories.map (List.map Prod.snd)) =
      some (b, l')) :
    ∃ m' histories', m.scanSmartQueue steps left node (best.map fun p => p.addr) bestScore =
        some (b.map fun p => p.addr, m') ∧
      histories'.map (List.map Prod.snd) = l' ∧ m.Refreshed histories m' histories' := by
  induction rest generalizing m node left histories best bestScore with
  | nil =>
    obtain ⟨left, rfl⟩ := Nat.exists_eq_succ_of_ne_zero (Nat.ne_of_gt hleft)
    cases hrest
    cases hscan
    exact ⟨m, histories, rfl, rfl, .refl hm⟩
  | cons p rest ih =>
    obtain ⟨left, rfl⟩ := Nat.exists_eq_succ_of_ne_zero (Nat.ne_of_gt (Nat.zero_lt_of_lt hleft))
    cases hrest with
    | @cons _ _ next _ hcell hrest =>
      cases histories with
      | none => cases hscan
      | some cells =>
        have hlookup := getProcessHistory_eq hm hsteps p.pid
        obtain ⟨hfind, rfl, rfl⟩ | ⟨history, score, history', hfind, hcalc, hscan⟩ :=
          scanSmartQueue_cons_cases hscan
        · rw [List.find?_map, Option.map_eq_none_iff] at hfind
          refine ⟨m, some cells, ?_, rfl, .refl hm⟩
          rw [scanSmartQueue, hcell]
          dsimp only
          rw [hlookup, show cells.find? (fun c => c.2.pid = p.pid) = none from hfind]
          rfl
        · rw [List.find?_map] at hfind
          obtain ⟨⟨a, history⟩, hfound, rfl⟩ := Option.map_eq_some_iff.mp hfind
          rw [show cells.find? (fun c => c.2.pid = p.pid) = some (a, history) from hfound]
            at hlookup
          obtain ⟨m₁, cells₁, hnew, hsnd, hrefreshed⟩ :=
            calculateNewScore_eq hread hm hcell hfound hcalc
          have hsteps₁ : ((some cells₁).getD []).length < steps :=
            hrefreshed.length_eq ▸ hsteps
          rw [← hsnd] at hscan
          -- the loop goes on in the same way, whichever process is the best one now
          have hnext := fun best bestScore => @ih m₁ (some cells₁)
            (hrefreshed.rescored.processes ▸ hread)
            next (hrefreshed.rescored.processes ▸ hrest) hrefreshed.holds left hsteps₁
            (Nat.lt_of_succ_lt_succ hleft) best bestScore
          rw [scanSmartQueue_cons hcell hlookup hnew]
          by_cases hgt : DoubleArith.gt score bestScore = true
          · rw [if_pos hgt] at hscan ⊢
            obtain ⟨m', histories', hrun, hl', hrefreshed'⟩ := hnext (some p) score hscan
            exact ⟨m', histories', hrun, hl', hrefreshed.trans hrefreshed'⟩
          · rw [if_neg hgt] at hscan ⊢
            obtain ⟨m', histories', hrun, hl', hrefreshed'⟩ := hnext best bestScore hscan
            exact ⟨m', histories', hrun, hl', hrefreshed.trans hrefreshed'⟩

/-! ## The removal -/

/-- Whatever moved, every record still holds what it held, but for the scores. -/
structure SameData (m m' : Storage D) : Prop where
  processes : ∀ a, (m'.processes a).map Cell.data = (m.processes a).map Cell.data
  histories : ∀ a, (m'.histories a).map unscored = (m.histories a).map unscored
  priorityQueues : m'.priorityQueues = m.priorityQueues
  processHistories : m'.processHistories = m.processHistories

theorem Rescored.sameData (h : m.Rescored m') : m.SameData m' where
  processes a := by rw [h.processes]
  histories := h.histories
  priorityQueues := h.priorityQueues
  processHistories := h.processHistories

theorem unlink_eq_some {addr : Nat} {queue queue' : List CustomProcess}
    (h : unlink addr queue = some queue') :
    ∃ before p after, queue = before ++ p :: after ∧ p.addr = addr ∧
      queue' = before ++ after := by
  induction queue generalizing queue' with
  | nil => cases h
  | cons node rest ih =>
    rw [unlink] at h
    split at h
    · next haddr =>
      cases h
      exact ⟨[], node, rest, rfl, haddr, rfl⟩
    · obtain ⟨rest', hrest, rfl⟩ := Option.map_eq_some_iff.mp h
      obtain ⟨before, p, after, rfl, haddr, rfl⟩ := ih hrest
      exact ⟨node :: before, p, after, rfl, haddr, rfl⟩

/-- The second loop finds the node in front of the best process, and the best process is
taken out. -/
theorem Holds.unlinkNext {before after : List CustomProcess} {p : CustomProcess} {steps : Nat}
    (hm : m.Holds (before ++ p :: after) histories) (hsteps : before.length < steps) :
    ∃ prev processes, findPrev m.processes p.addr steps (some (m.priorityQueues + 1)) = some prev ∧
      unlinkNext m.processes prev p.addr = some processes ∧
      Holds { m with processes } (before ++ after) histories ∧
      (processes p.addr).map Cell.next = some none ∧
      ∀ a, (processes a).map Cell.data = (m.processes a).map Cell.data := by
  obtain ⟨x, hchain⟩ := hm.queue
  obtain hnil | ⟨front, ⟨prev, y⟩, hfront⟩ :=
    List.eq_nil_or_concat' ((m.priorityQueues + 1, x) :: before.map cell)
  · cases hnil
  have hlength : front.length = before.length := by
    simpa using (congrArg List.length hfront).symm
  have happend : ∀ l, (m.priorityQueues + 1, x) :: (before.map cell ++ l) =
      front ++ (prev, y) :: l := by
    intro l
    rw [← List.cons_append, hfront, List.append_assoc, List.singleton_append]
  rw [List.map_append, happend, List.map_cons] at hchain
  obtain ⟨processes, hunlink, hchain', hlast, hdata⟩ := unlinkNext_eq hchain
  refine ⟨prev, processes, findPrev_eq hchain (hlength ▸ hsteps), hunlink,
    ⟨⟨x, ?_⟩, hm.histories⟩, ?_, hdata⟩
  · rw [List.map_append, happend]
    exact hchain'
  · rw [hlast]
    rfl

/-- **The second loop** on pointers removes what the loop on lists removes. -/
theorem Holds.unlink {queue queue' : List CustomProcess} {addr steps : Nat}
    (hm : m.Holds queue histories) (hsteps : queue.length < steps)
    (h : Custom.unlink addr queue = some queue') :
    ∃ prev processes, findPrev m.processes addr steps (some (m.priorityQueues + 1)) = some prev ∧
      LinkedList.unlinkNext m.processes prev addr = some processes ∧
      Holds { m with processes } queue' histories ∧
      (processes addr).map Cell.next = some none ∧
      ∀ a, (processes a).map Cell.data = (m.processes a).map Cell.data := by
  obtain ⟨before, p, after, rfl, rfl, rfl⟩ := unlink_eq_some h
  rw [List.length_append] at hsteps
  exact hm.unlinkNext (by omega)

/-- Where the list model reads a `processed_time`, there is one in memory. -/
theorem exists_of_readProcessedTime {s : State D}
    (hnodes : ∀ p ∈ s.nodes, ∃ next, m.processes p.addr = some ⟨p.toQuantumProcess, next⟩)
    {ptr v : Nat} (hv : s.readProcessedTime ptr = some v) :
    ∃ c, m.processes ptr = some c ∧ c.data.processedTime = v := by
  obtain ⟨p, hp, rfl⟩ := Option.map_eq_some_iff.mp hv
  obtain ⟨next, hcell⟩ := hnodes p (List.mem_of_find?_eq_some hp)
  have haddr : p.addr = ptr := by simpa using List.find?_some hp
  exact ⟨_, haddr ▸ hcell, rfl⟩

/-- **The function on pointers** does what the function on lists does, and leaves the best
process without a next one. -/
theorem Holds.selectBestProcessFromSmartQueue [DoubleArith D] {s s' : State D}
    (hm : m.Holds s.smartQueue histories)
    (hs : s.processHistories = histories.map (List.map Prod.snd))
    (hnodes : ∀ p ∈ s.nodes, ∃ next, m.processes p.addr = some ⟨p.toQuantumProcess, next⟩)
    {steps : Nat} (hqueue : s.smartQueue.length < steps)
    (hsteps : (histories.getD []).length < steps) {best : Option CustomProcess}
    (h : Custom.selectBestProcessFromSmartQueue s = some (best, s')) :
    ∃ m' histories', m.selectBestProcessFromSmartQueue steps =
        some (best.map fun p => p.addr, m') ∧
      m'.Holds s'.smartQueue histories' ∧
      s'.processHistories = histories'.map (List.map Prod.snd) ∧
      histories'.map (List.map Prod.fst) = histories.map (List.map Prod.fst) ∧
      (∀ p, best = some p → (m'.processes p.addr).map Cell.next = some none) ∧
      m.SameData m' := by
  obtain ⟨x, hchain⟩ := hm.queue
  cases hchain with
  | @cons _ _ first _ hsentinel hrest =>
    rw [Custom.selectBestProcessFromSmartQueue, hs] at h
    cases hscan : Custom.scanSmartQueue s.readProcessedTime s.smartQueue none
        DoubleArith.negDblMax (histories.map (List.map Prod.snd)) with
    | none =>
      rw [hscan] at h
      cases h
    | some result =>
      obtain ⟨b, l'⟩ := result
      rw [hscan] at h
      obtain ⟨m₁, histories', hrun, hsnd, hrescored, hheld, hfst⟩ :=
        scanSmartQueue_eq (fun _ _ => exists_of_readProcessedTime hnodes) hrest hm.histories
          hsteps hqueue hscan
      have hm₁ : m₁.Holds s.smartQueue histories' := by
        refine ⟨⟨x, ?_⟩, hheld⟩
        rw [hrescored.processes, hrescored.priorityQueues]
        exact .cons hsentinel hrest
      have hloop : m.scanSmartQueue steps steps first none DoubleArith.negDblMax =
          some (b.map fun p => p.addr, m₁) := hrun
      have hsame := hrescored.sameData
      rw [Storage.selectBestProcessFromSmartQueue, hsentinel]
      dsimp only
      rw [hloop]
      cases b with
      | none =>
        cases h
        exact ⟨m₁, histories', rfl, hm₁, hsnd.symm, hfst, nofun, hsame⟩
      | some b =>
        obtain ⟨queue', hunlink, heq⟩ := Option.map_eq_some_iff.mp h
        cases heq
        obtain ⟨prev, processes, hprev, hremoved, hheld', hnext, hdata⟩ :=
          hm₁.unlink hqueue hunlink
        refine ⟨{ m₁ with processes }, histories', ?_, hheld', hsnd.symm, hfst, ?_, ?_⟩
        · dsimp only [Option.map_some]
          rw [hprev]
          dsimp only
          rw [hremoved]
          rfl
        · rintro _ ⟨⟩
          exact hnext
        · exact ⟨fun a => (hdata a).trans (hsame.processes a), hsame.histories,
            hsame.priorityQueues, hsame.processHistories⟩

end Storage

end Custom

end Cosc240
