import Cosc240.Schedulers.Scored
import Cosc240.Simulator.Oblivious

/-!
# `custom.c` refines the two-queue scheduler

The histories of `custom.c` live in a list of their own. The invariant `Ok` says
that they are, up to order, one for each live node: with its pid, and with a
pointer to it. Reading the counters of a node back out of its history
(`attach`) then turns the globals into a `Scored.State`, and every function of
`custom.c` (custom.c:51–144, 195–387) into the corresponding one there, without faults.

- `counters`, `attach`, `State.scored`: the counters in the history of a pid, a node with its
  counters, and the state of the two-queue scheduler that the globals stand for.
- `Ok`: the invariant, with the addresses of the nodes distinct and below the next one.
- `Ok.find_history` and `Ok.read`: the history of a live node is found, and the pointer in it can be
  read.

Main results:

- `addToReadyQueue_scored`, `Ok.selectBestProcessFromSmartQueue`, `Ok.dispatch`,
  `Ok.updateWaitTimes`, `Ok.runCurrent`, `Ok.retire`: function by function, no fault, and the
  two-queue scheduler does the same.
- `Ok.getNextScheduledProcess`: the whole call.
- `books`: the nodes of `custom.c` and its invariant keep the books.
- `oblivious`: what `custom.c` does next depends on its processes and their counters only, so that
  the order of the histories cannot be seen.
-/

namespace Cosc240

namespace Custom

variable {D : Type}

/-! ## Looking up a history -/

/-- The wait time and the reschedule count in the history of `pid`. -/
def counters (histories : List (ProcessHistory D)) (pid : Nat) : Nat × Nat :=
  match histories.find? fun history => history.pid = pid with
  | some history => (history.waitTime, history.rescheduleCount)
  | none => (0, 0)

/-- The pid of a history, and its pointer. -/
def historyLink (history : ProcessHistory D) : Nat × Option Nat :=
  (history.pid, history.totalTimeRun)

/-- What the history of a node should link to. -/
def nodeLink (p : CustomProcess) : Nat × Option Nat := (p.pid, some p.addr)

theorem find?_modifyHistory {f : ProcessHistory D → ProcessHistory D}
    (hf : ∀ history, (f history).pid = history.pid) (pid pid' : Nat)
    (l : List (ProcessHistory D)) :
    (modifyHistory pid f l).find? (fun history => history.pid = pid') =
      if pid' = pid then (l.find? fun history => history.pid = pid').map f
      else l.find? fun history => history.pid = pid' := by
  induction l with
  | nil => simp [modifyHistory]
  | cons history l ih =>
    rw [modifyHistory]
    by_cases h : history.pid = pid
    · rw [if_pos h, List.find?_cons, List.find?_cons, hf, h]
      by_cases h' : pid' = pid
      · simp [h']
      · simp [h', Ne.symm h']
    · rw [if_neg h, List.find?_cons, List.find?_cons, ih]
      by_cases h' : history.pid = pid'
      · have hne : pid' ≠ pid := fun heq => h (h'.trans heq)
        simp [h', hne]
      · simp [h']

theorem map_historyLink_modifyHistory {f : ProcessHistory D → ProcessHistory D}
    (hf : ∀ history, historyLink (f history) = historyLink history) (pid : Nat)
    (l : List (ProcessHistory D)) :
    (modifyHistory pid f l).map historyLink = l.map historyLink := by
  induction l with
  | nil => rfl
  | cons history l ih =>
    rw [modifyHistory]
    split
    · rw [List.map_cons, List.map_cons, hf]
    · rw [List.map_cons, List.map_cons, ih]

/-- Only what `f` does to the history that is found matters. -/
theorem modifyHistory_congr {f g : ProcessHistory D → ProcessHistory D} {pid : Nat}
    {l : List (ProcessHistory D)} {history : ProcessHistory D}
    (hfind : l.find? (fun history => history.pid = pid) = some history)
    (h : f history = g history) : modifyHistory pid f l = modifyHistory pid g l := by
  induction l with
  | nil => rfl
  | cons head l ih =>
    rw [List.find?_cons] at hfind
    rw [modifyHistory, modifyHistory]
    by_cases hpid : head.pid = pid
    · rw [decide_eq_true hpid] at hfind
      cases hfind
      rw [if_pos hpid, if_pos hpid, h]
    · rw [decide_eq_false hpid] at hfind
      rw [if_neg hpid, if_neg hpid, ih hfind]

/-- Freeing a history takes exactly that one out. -/
theorem perm_cons_eraseP {pid : Nat} {l : List (ProcessHistory D)} {history : ProcessHistory D}
    (hfind : l.find? (fun history => history.pid = pid) = some history) :
    l.Perm (history :: l.eraseP fun history => history.pid = pid) := by
  induction l with
  | nil => cases hfind
  | cons head l ih =>
    rw [List.find?_cons] at hfind
    rw [List.eraseP_cons]
    by_cases hpid : head.pid = pid
    · rw [decide_eq_true hpid] at hfind ⊢
      cases hfind
      exact List.Perm.refl _
    · rw [decide_eq_false hpid] at hfind ⊢
      exact ((ih hfind).cons head).trans (List.Perm.swap _ _ _)

theorem find?_eraseP_of_ne {pid pid' : Nat} (h : pid' ≠ pid) (l : List (ProcessHistory D)) :
    (l.eraseP fun history => history.pid = pid).find? (fun history => history.pid = pid') =
      l.find? fun history => history.pid = pid' := by
  induction l with
  | nil => rfl
  | cons history l ih =>
    rw [List.eraseP_cons]
    by_cases heq : history.pid = pid
    · have hne : history.pid ≠ pid' := fun h' => h (h'.symm.trans heq)
      simp [heq, Ne.symm h]
    · rw [decide_eq_false heq, cond_false, List.find?_cons, List.find?_cons, ih]

theorem counters_cons (history : ProcessHistory D) (l : List (ProcessHistory D)) (pid : Nat) :
    counters (history :: l) pid =
      if history.pid = pid then (history.waitTime, history.rescheduleCount)
      else counters l pid := by
  unfold counters
  rw [List.find?_cons]
  by_cases h : history.pid = pid <;> simp [h]

theorem counters_of_find? {l : List (ProcessHistory D)} {pid : Nat}
    {history : ProcessHistory D}
    (h : l.find? (fun history => history.pid = pid) = some history) :
    counters l pid = (history.waitTime, history.rescheduleCount) := by
  rw [counters, h]

/-- A write through a found history changes the counters of its pid only. -/
theorem counters_modifyHistory {f : ProcessHistory D → ProcessHistory D}
    (hf : ∀ history, (f history).pid = history.pid) {pid : Nat} {l : List (ProcessHistory D)}
    {history : ProcessHistory D}
    (hfind : l.find? (fun history => history.pid = pid) = some history) (pid' : Nat) :
    counters (modifyHistory pid f l) pid' =
      if pid' = pid then ((f history).waitTime, (f history).rescheduleCount)
      else counters l pid' := by
  rw [counters, find?_modifyHistory hf]
  by_cases h : pid' = pid
  · rw [if_pos h, if_pos h, h, hfind]
    rfl
  · rw [if_neg h, if_neg h, counters]

theorem counters_eraseP_of_ne {pid pid' : Nat} (h : pid' ≠ pid) (l : List (ProcessHistory D)) :
    counters (l.eraseP fun history => history.pid = pid) pid' = counters l pid' := by
  rw [counters, find?_eraseP_of_ne h, counters]

/-! ## Nodes with their counters -/

/-- A node together with the counters of its history. -/
def attach (histories : List (ProcessHistory D)) (p : CustomProcess) : ScoredProcess :=
  { toQuantumProcess := p.toQuantumProcess
    waitTime := (counters histories p.pid).1
    rescheduleCount := (counters histories p.pid).2 }

theorem attach_congr {l l' : List (ProcessHistory D)} {p : CustomProcess}
    (h : counters l p.pid = counters l' p.pid) : attach l p = attach l' p := by
  rw [attach, attach, h]

/-- The histories behind the sentinel, if it is allocated. -/
def State.histories (s : State D) : List (ProcessHistory D) := s.processHistories.getD []

/-- The state of the two-queue scheduler that the globals stand for. -/
def State.scored (s : State D) : Scored.State :=
  { fastQueue := s.fastQueue.map (attach s.histories)
    smartQueue := s.smartQueue.map (attach s.histories)
    current := s.current.map (attach s.histories)
    priorityLevel := s.priorityLevel }

/-- The histories are those of the live nodes, and addresses are distinct. -/
structure Ok (s : State D) : Prop where
  linked : (s.histories.map historyLink).Perm (s.nodes.map nodeLink)
  addr_nodup : (s.nodes.map fun p => p.addr).Nodup
  addr_lt : ∀ p ∈ s.nodes, p.addr < s.nextAddr

theorem scored_nodes (s : State D) : s.scored.nodes = s.nodes.map (attach s.histories) := by
  rw [Scored.State.nodes, State.nodes, List.map_append, List.map_append]
  cases hc : s.current <;> simp [State.scored, hc]

theorem scored_nodes_toJob (s : State D) :
    s.scored.nodes.map (fun p => p.toJob) = s.nodes.map fun p => p.toJob := by
  rw [scored_nodes, List.map_map]
  rfl

theorem valid_scored {s : State D} (hv : ValidJobs (s.nodes.map fun p => p.toJob)) :
    ValidJobs (s.scored.nodes.map fun p => p.toJob) := by
  rw [scored_nodes_toJob]
  exact hv

theorem pids_nodup_of_valid {s : State D} (hv : ValidJobs (s.nodes.map fun p => p.toJob)) :
    (s.nodes.map fun p => p.pid).Nodup := by
  have h := hv.nodup
  rw [List.map_map] at h
  exact h

/-- The history of a live node is found, and points to the node. -/
theorem Ok.find_history {s : State D} (hok : Ok s)
    (hnd : (s.nodes.map fun p => p.pid).Nodup) {p : CustomProcess} (hp : p ∈ s.nodes)
    {l : List (ProcessHistory D)}
    (hl : l.map historyLink = s.histories.map historyLink) :
    ∃ history, l.find? (fun history => history.pid = p.pid) = some history ∧
      history.pid = p.pid ∧ history.totalTimeRun = some p.addr := by
  have hlinked : (l.map historyLink).Perm (s.nodes.map nodeLink) := hl ▸ hok.linked
  have hmem : nodeLink p ∈ l.map historyLink :=
    hlinked.mem_iff.mpr (List.mem_map_of_mem hp)
  obtain ⟨history₀, hmem₀, hlink₀⟩ := List.mem_map.mp hmem
  cases hfind : l.find? fun history => history.pid = p.pid with
  | none =>
    have hpid₀ : history₀.pid = p.pid := congrArg Prod.fst hlink₀
    exact absurd (decide_eq_true hpid₀) (List.find?_eq_none.mp hfind history₀ hmem₀)
  | some history =>
    have hpid : history.pid = p.pid := by simpa using List.find?_some hfind
    refine ⟨history, rfl, hpid, ?_⟩
    -- the history that is found belongs to some node, and pids are distinct
    have hnode : historyLink history ∈ s.nodes.map nodeLink :=
      hlinked.mem_iff.mp (List.mem_map_of_mem (List.mem_of_find?_eq_some hfind))
    obtain ⟨q, hq, hlink⟩ := List.mem_map.mp hnode
    have hqp : q = p :=
      List.inj_on_of_nodup_map hnd hq hp ((congrArg Prod.fst hlink).trans hpid)
    rw [← hqp]
    exact (congrArg Prod.snd hlink).symm

/-- Reading through the pointer of a live node gives its `processed_time`. -/
theorem Ok.read {s : State D} (hok : Ok s) {p : CustomProcess} (hp : p ∈ s.nodes) :
    s.readProcessedTime p.addr = some p.processedTime := by
  unfold State.readProcessedTime
  cases hfind : s.nodes.find? fun q => q.addr = p.addr with
  | none => exact absurd (decide_eq_true rfl) (List.find?_eq_none.mp hfind p hp)
  | some q =>
    have haddr : q.addr = p.addr := by simpa using List.find?_some hfind
    have hqp : q = p :=
      List.inj_on_of_nodup_map hok.addr_nodup (List.mem_of_find?_eq_some hfind) hp haddr
    rw [hqp]
    rfl

/-- With a live node there is a list of histories. -/
theorem Ok.processHistories {s : State D} (hok : Ok s) {p : CustomProcess} (hp : p ∈ s.nodes) :
    s.processHistories = some s.histories := by
  cases h : s.processHistories with
  | some l => simp [State.histories, h]
  | none =>
    have hlinked := hok.linked
    rw [State.histories, h] at hlinked
    have hnil := hlinked.symm.eq_nil
    rw [List.map_eq_nil_iff.mp hnil] at hp
    cases hp

/-! ## Adding a process -/

theorem addToReadyQueue_nodes [DoubleArith D] (s : State D) (process : ProcessInitial) :
    (addToReadyQueue s process).nodes.Perm
      ({ toQuantumProcess := newQuantumProcess process, addr := s.nextAddr } :: s.nodes) := by
  refine (((Lib.skipInsert_perm _ _).append_right _).append_left _).trans ?_
  exact List.perm_middle

theorem Ok.addToReadyQueue [DoubleArith D] {s : State D} (hok : Ok s) (process : ProcessInitial) :
    Ok (addToReadyQueue s process) where
  linked := by
    refine List.Perm.trans ?_ ((addToReadyQueue_nodes s process).map nodeLink).symm
    exact hok.linked.cons _
  addr_nodup := by
    have hperm := (addToReadyQueue_nodes s process).map fun p => p.addr
    rw [hperm.nodup_iff, List.map_cons, List.nodup_cons]
    refine ⟨fun hmem => ?_, hok.addr_nodup⟩
    obtain ⟨p, hp, haddr⟩ := List.mem_map.mp hmem
    exact absurd haddr (Nat.ne_of_lt (hok.addr_lt p hp))
  addr_lt p hp := by
    show p.addr < s.nextAddr + 1
    rcases List.mem_cons.mp ((addToReadyQueue_nodes s process).mem_iff.mp hp) with rfl | hp
    · exact Nat.lt_succ_self _
    · exact Nat.lt_succ_of_lt (hok.addr_lt p hp)

/-- Adding a process with a new pid is adding it to the two-queue scheduler. -/
theorem addToReadyQueue_scored [DoubleArith D] {s : State D} {process : ProcessInitial}
    (hnew : ∀ p ∈ s.nodes, p.pid ≠ process.pid) :
    (addToReadyQueue s process).scored = Scored.addToReadyQueue s.scored process := by
  have hold : ∀ p ∈ s.nodes,
      attach (addToReadyQueue s process).histories p = attach s.histories p := fun p hp =>
    attach_congr ((counters_cons _ _ _).trans (if_neg (hnew p hp).symm))
  have hself : attach (addToReadyQueue s process).histories
      { toQuantumProcess := newQuantumProcess process, addr := s.nextAddr } =
      ScoredProcess.ofInitial process := by
    have hcounters : counters (addToReadyQueue s process).histories process.pid = (0, 0) :=
      (counters_cons _ _ _).trans (if_pos rfl)
    rw [attach]
    show ScoredProcess.mk _ _ _ = _
    rw [show (newQuantumProcess process).pid = process.pid from rfl, hcounters]
    rfl
  have hfast : (addToReadyQueue s process).fastQueue.map
      (attach (addToReadyQueue s process).histories) =
      Lib.skipInsert (fun p => p.arrivalTime) (fun p => p.pid) (ScoredProcess.ofInitial process)
        (s.fastQueue.map (attach s.histories)) := by
    rw [← hself, ← List.map_congr_left fun p hp => hold p (by simp [State.nodes, hp])]
    exact Lib.map_skipInsert (fun p : CustomProcess => p.arrivalTime) (fun p => p.pid)
      (fun p : ScoredProcess => p.arrivalTime) (fun p => p.pid) _ (fun _ => rfl) (fun _ => rfl) _ _
  have hsmart : s.smartQueue.map (attach (addToReadyQueue s process).histories) =
      s.smartQueue.map (attach s.histories) :=
    List.map_congr_left fun p hp => hold p (by simp [State.nodes, hp])
  have hcurrent : s.current.map (attach (addToReadyQueue s process).histories) =
      s.current.map (attach s.histories) := by
    cases hc : s.current with
    | none => rfl
    | some c => exact congrArg some (hold c (by simp [State.nodes, hc]))
  rw [State.scored, Scored.addToReadyQueue, State.scored, hfast]
  show Scored.State.mk _ (s.smartQueue.map _) (s.current.map _) _ = _
  rw [hsmart, hcurrent]
  rfl

/-! ## Choosing from the smart queue -/

/-- With distinct pids, removal by pid removes the node itself. -/
theorem perm_cons_eraseP_pid {q : List CustomProcess} {b : CustomProcess}
    (hnd : (q.map fun p => p.pid).Nodup) (hb : b ∈ q) :
    q.Perm (b :: q.eraseP fun p => p.pid = b.pid) := by
  obtain ⟨a, l₁, l₂, -, ha, hsplit, herase⟩ :=
    List.exists_of_eraseP (p := fun p => decide (p.pid = b.pid)) hb (by simp)
  have hab : a = b :=
    List.inj_on_of_nodup_map hnd (by rw [hsplit]; simp) hb (of_decide_eq_true ha)
  rw [herase, ← hab]
  exact hsplit ▸ List.perm_middle

/-- The invariant survives what keeps the nodes, the links and the allocator. -/
theorem Ok.of_perm {s s' : State D} (hok : Ok s)
    (hnodes : (s'.nodes.map fun p => (p.pid, p.addr)).Perm (s.nodes.map fun p => (p.pid, p.addr)))
    (hlinks : s'.histories.map historyLink = s.histories.map historyLink)
    (hnext : s'.nextAddr = s.nextAddr) : Ok s' where
  linked := by
    have h := hnodes.map fun q : Nat × Nat => (q.1, some q.2)
    rw [List.map_map, List.map_map] at h
    rw [hlinks]
    exact hok.linked.trans h.symm
  addr_nodup := by
    have h := hnodes.map fun q : Nat × Nat => q.2
    rw [List.map_map, List.map_map] at h
    exact h.nodup_iff.mpr hok.addr_nodup
  addr_lt p hp := by
    have hmem : (p.pid, p.addr) ∈ s.nodes.map fun p => (p.pid, p.addr) :=
      hnodes.mem_iff.mp (List.mem_map_of_mem hp)
    obtain ⟨q, hq, heq⟩ := List.mem_map.mp hmem
    have haddr : q.addr = p.addr := congrArg Prod.snd heq
    rw [hnext, ← haddr]
    exact hok.addr_lt q hq

/-- Storing a score in a history. -/
def setScore (score : D) (history : ProcessHistory D) : ProcessHistory D := { history with score }

/-- With a pointer that can be read, the score is computed and stored. -/
theorem calculateNewScore_eq [DoubleArith D] {read : Nat → Option Nat}
    {history : ProcessHistory D} {ptr totalTimeRun : Nat} (hptr : history.totalTimeRun = some ptr)
    (hread : read ptr = some totalTimeRun) (process : CustomProcess) :
    calculateNewScore read history process =
      some (scoreOf history.waitTime totalTimeRun history.rescheduleCount process.processingTime
          process.processedTime,
        setScore (scoreOf history.waitTime totalTimeRun history.rescheduleCount
          process.processingTime process.processedTime) history) := by
  cases history
  cases hptr
  simp [calculateNewScore, hread, setScore]

theorem map_historyLink_setScore (score : D) (pid : Nat) (l : List (ProcessHistory D)) :
    (modifyHistory pid (setScore score) l).map historyLink = l.map historyLink :=
  map_historyLink_modifyHistory (f := setScore score) (fun _ => rfl) pid l

/-- The new score of a node is stored in its history. -/
def refresh [DoubleArith D] (l : List (ProcessHistory D)) (node : CustomProcess) :
    List (ProcessHistory D) :=
  modifyHistory node.pid (setScore ((attach l node).score D)) l

/-- That leaves all counters alone. -/
theorem counters_refresh [DoubleArith D] {l : List (ProcessHistory D)} {node : CustomProcess}
    {history : ProcessHistory D}
    (hfind : l.find? (fun history => history.pid = node.pid) = some history) (pid : Nat) :
    counters (refresh l node) pid = counters l pid := by
  rw [refresh, counters_modifyHistory (f := setScore _) (fun _ => rfl) hfind]
  split
  next h =>
    rw [h, counters_of_find? hfind]
    rfl
  next => rfl

/-- One turn of the first loop, for a node with a history that points to it. -/
theorem scanSmartQueue_cons [DoubleArith D] {read : Nat → Option Nat} {node : CustomProcess}
    {l : List (ProcessHistory D)} {history : ProcessHistory D}
    (hfind : l.find? (fun history => history.pid = node.pid) = some history)
    (hptr : history.totalTimeRun = some node.addr)
    (hread : read node.addr = some node.processedTime) (rest : List CustomProcess)
    (best : Option CustomProcess) (bestScore : D) :
    scanSmartQueue read (node :: rest) best bestScore (some l) =
      if DoubleArith.gt ((attach l node).score D) bestScore then
        scanSmartQueue read rest (some node) ((attach l node).score D) (some (refresh l node))
      else scanSmartQueue read rest best bestScore (some (refresh l node)) := by
  have hscore : scoreOf history.waitTime node.processedTime history.rescheduleCount
      node.processingTime node.processedTime = (attach l node).score D := by
    rw [ScoredProcess.score, attach, counters_of_find? hfind]
  have hcalc : calculateNewScore read history node =
      some ((attach l node).score D, setScore ((attach l node).score D) history) := by
    rw [calculateNewScore_eq hptr hread, hscore]
  have hmodify : modifyHistory node.pid
      (fun _ => setScore ((attach l node).score D) history) l = refresh l node :=
    modifyHistory_congr hfind rfl
  simp only [scanSmartQueue, getProcessHistory, Option.map_some, hfind, hcalc, hmodify]

/-- The scan finds every history, reads every `processed_time`, and keeps the
process that the two-queue scheduler keeps. It changes scores only. -/
theorem Ok.scanSmartQueue [DoubleArith D] {s : State D} (hok : Ok s)
    (hnd : (s.nodes.map fun p => p.pid).Nodup) (q : List CustomProcess)
    (hq : ∀ p ∈ q, p ∈ s.nodes) (b₀ : Option CustomProcess) (bestScore : D)
    (l : List (ProcessHistory D))
    (hl : l.map historyLink = s.histories.map historyLink)
    (hc : ∀ pid, counters l pid = counters s.histories pid) :
    ∃ b l', scanSmartQueue s.readProcessedTime q b₀ bestScore (some l) = some (b, some l') ∧
      l'.map historyLink = s.histories.map historyLink ∧
      (∀ pid, counters l' pid = counters s.histories pid) ∧
      b.map (attach s.histories) = Scored.scan D (q.map (attach s.histories))
        (b₀.map (attach s.histories)) bestScore ∧
      (b = b₀ ∨ ∃ p ∈ q, b = some p) := by
  induction q generalizing b₀ bestScore l with
  | nil => exact ⟨b₀, l, rfl, hl, hc, rfl, Or.inl rfl⟩
  | cons node rest ih =>
    have hnode : node ∈ s.nodes := hq node (by simp)
    obtain ⟨history, hfind, hpid, hptr⟩ := hok.find_history hnd hnode hl
    have hl' : (refresh l node).map historyLink = s.histories.map historyLink := by
      rw [refresh, map_historyLink_setScore, hl]
    have hc' : ∀ pid, counters (refresh l node) pid = counters s.histories pid :=
      fun pid => (counters_refresh hfind pid).trans (hc pid)
    have hrest : ∀ p ∈ rest, p ∈ s.nodes := fun p hp => hq p (List.mem_cons_of_mem _ hp)
    rw [scanSmartQueue_cons hfind hptr (hok.read hnode), attach_congr (hc node.pid)]
    simp only [List.map_cons, Scored.scan]
    split
    · obtain ⟨b, l', hscan, hlink, hcount, hbest, hmem⟩ := ih hrest (some node) _ _ hl' hc'
      refine ⟨b, l', hscan, hlink, hcount, hbest, Or.inr ?_⟩
      rcases hmem with rfl | ⟨p, hp, rfl⟩
      · exact ⟨node, by simp, rfl⟩
      · exact ⟨p, List.mem_cons_of_mem _ hp, rfl⟩
    · obtain ⟨b, l', hscan, hlink, hcount, hbest, hmem⟩ := ih hrest b₀ _ _ hl' hc'
      refine ⟨b, l', hscan, hlink, hcount, hbest, ?_⟩
      rcases hmem with rfl | ⟨p, hp, rfl⟩
      · exact Or.inl rfl
      · exact Or.inr ⟨p, List.mem_cons_of_mem _ hp, rfl⟩

/-- The removal loop finds its node, and removes it. -/
theorem unlink_eq {b : CustomProcess} {q : List CustomProcess} (hb : b ∈ q)
    (h : ∀ p ∈ q, p.addr = b.addr ↔ p.pid = b.pid) :
    unlink b.addr q = some (q.eraseP fun p => p.pid = b.pid) := by
  induction q with
  | nil => cases hb
  | cons node rest ih =>
    rw [unlink, List.eraseP_cons]
    by_cases hpid : node.pid = b.pid
    · rw [if_pos ((h node (by simp)).mpr hpid), decide_eq_true hpid]
      rfl
    · rw [if_neg fun haddr => hpid ((h node (by simp)).mp haddr), decide_eq_false hpid]
      have hb' : b ∈ rest := by
        rcases List.mem_cons.mp hb with rfl | hb
        · exact absurd rfl hpid
        · exact hb
      rw [ih hb' fun p hp => h p (List.mem_cons_of_mem _ hp)]
      rfl

/-- The two-queue scheduler sees the counters only. -/
theorem map_attach_congr {l l' : List (ProcessHistory D)}
    (h : ∀ pid, counters l pid = counters l' pid)
    (q : List CustomProcess) : q.map (attach l) = q.map (attach l') :=
  List.map_congr_left fun p _ => attach_congr (h p.pid)

/-- In the live nodes an address and a pid name the same node. -/
theorem Ok.addr_eq_iff {s : State D} (hok : Ok s) (hnd : (s.nodes.map fun p => p.pid).Nodup)
    {p q : CustomProcess} (hp : p ∈ s.nodes) (hq : q ∈ s.nodes) :
    p.addr = q.addr ↔ p.pid = q.pid := by
  constructor
  · intro h
    rw [List.inj_on_of_nodup_map hok.addr_nodup hp hq h]
  · intro h
    rw [List.inj_on_of_nodup_map hnd hp hq h]

/-- **`select_best_process_from_smart_queue`** on a queue that is not empty
returns the best process, takes it out, and changes scores only. -/
theorem Ok.selectBestProcessFromSmartQueue [DoubleArith D] {s : State D} (hok : Ok s)
    (hv : ValidJobs (s.nodes.map fun p => p.toJob)) (hne : s.smartQueue ≠ []) :
    ∃ b l', selectBestProcessFromSmartQueue s =
        some (some b, { s with
          smartQueue := s.smartQueue.eraseP fun r => r.pid = b.pid
          processHistories := some l' }) ∧
      b ∈ s.smartQueue ∧
      Scored.best D (s.smartQueue.map (attach s.histories)) = some (attach s.histories b) ∧
      l'.map historyLink = s.histories.map historyLink ∧
      ∀ pid, counters l' pid = counters s.histories pid := by
  have hnd := pids_nodup_of_valid hv
  have hsmart : ∀ r ∈ s.smartQueue, r ∈ s.nodes := fun r hr => by simp [State.nodes, hr]
  obtain ⟨p, rest, hq⟩ := List.exists_cons_of_ne_nil hne
  have hp : p ∈ s.nodes := hsmart p (by simp [hq])
  obtain ⟨b?, l', hscan, hlink, hcount, hbest, hmem⟩ :=
    hok.scanSmartQueue hnd s.smartQueue hsmart none DoubleArith.negDblMax s.histories rfl
      fun _ => rfl
  -- the queue is not empty and its processes are not complete, so one is chosen
  have hjob : p.toJob ∈ s.nodes.map fun p => p.toJob := List.mem_map_of_mem hp
  obtain ⟨b', hb'⟩ : ∃ b', Scored.best D (s.smartQueue.map (attach s.histories)) = some b' := by
    rw [hq, List.map_cons]
    exact Scored.best_cons (hv.lt _ hjob) (hv.lt_uintMax _ hjob)
  obtain ⟨b, rfl, rfl⟩ := Option.map_eq_some_iff.mp (hbest.trans hb')
  have hb : b ∈ s.smartQueue := by
    rcases hmem with h | ⟨r, hr, h⟩
    · cases h
    · cases h
      exact hr
  refine ⟨b, l', ?_, hb, hb', hlink, hcount⟩
  rw [Custom.selectBestProcessFromSmartQueue, hok.processHistories hp, hscan]
  simp only [unlink_eq hb fun r hr => hok.addr_eq_iff hnd (hsmart r hr) (hsmart b hb),
    Option.map_some]

/-- Dispatching from the smart queue. The scan stores scores, which the two-queue scheduler
does not have. -/
theorem Ok.dispatch_smart [DoubleArith D] {s : State D} (hok : Ok s)
    (hv : ValidJobs (s.nodes.map fun p => p.toJob)) (hcur : s.current = none)
    (hf : s.fastQueue = []) (hne : s.smartQueue ≠ []) :
    ∃ s', dispatch s = some s' ∧ s'.scored = Scored.dispatch D s.scored ∧ Ok s' ∧
      s'.nodes.Perm s.nodes := by
  obtain ⟨b, l', hsel, hb, hbest, hlink, hcount⟩ := hok.selectBestProcessFromSmartQueue hv hne
  have hndq : (s.smartQueue.map fun p => p.pid).Nodup :=
    (pids_nodup_of_valid hv).sublist (((List.sublist_append_right _ _).trans
      (List.sublist_append_right _ _)).map _)
  have hnodes : (b :: ([] ++ s.smartQueue.eraseP fun r => r.pid = b.pid)).Perm s.nodes := by
    rw [State.nodes, hcur, hf]
    exact (perm_cons_eraseP_pid hndq hb).symm
  refine ⟨{ s with
      fastQueue := []
      smartQueue := s.smartQueue.eraseP fun r => r.pid = b.pid
      processHistories := some l'
      current := some b
      priorityLevel := 1 }, ?_, ?_, hok.of_perm (hnodes.map _) hlink rfl, hnodes⟩
  · obtain ⟨p, rest, hq⟩ := List.exists_cons_of_ne_nil hne
    simp [Custom.dispatch, hcur, hf, hq, hsel]
  · have herase : (s.smartQueue.eraseP fun r => r.pid = b.pid).map (attach s.histories) =
        (s.smartQueue.map (attach s.histories)).eraseP fun r => r.pid = b.pid := by
      rw [List.eraseP_map]
      rfl
    have hscored : Scored.dispatch D s.scored =
        { s.scored with
          smartQueue := (s.smartQueue.map (attach s.histories)).eraseP fun r =>
            r.pid = (attach s.histories b).pid
          current := some (attach s.histories b)
          priorityLevel := 1 } := by
      have hbest' : Scored.best D s.scored.smartQueue = some (attach s.histories b) := hbest
      simp only [Scored.dispatch, hbest']
      simp [State.scored, hcur, hf]
    rw [hscored]
    show Scored.State.mk [] ((s.smartQueue.eraseP _).map (attach l'))
      (some (attach l' b)) 1 = _
    rw [map_attach_congr hcount, herase, attach_congr (hcount b.pid)]
    simp only [State.scored, hf, List.map_nil]
    rfl

/-- **Dispatching** does not fault, and takes the process that the two-queue
scheduler takes. -/
theorem Ok.dispatch [DoubleArith D] {s : State D} (hok : Ok s)
    (hv : ValidJobs (s.nodes.map fun p => p.toJob)) :
    ∃ s', dispatch s = some s' ∧ s'.scored = Scored.dispatch D s.scored ∧ Ok s' ∧
      s'.nodes.Perm s.nodes := by
  cases hcur : s.current with
  | some c =>
    exact ⟨s, by simp [Custom.dispatch, hcur], by simp [Scored.dispatch, State.scored, hcur],
      hok, List.Perm.refl _⟩
  | none =>
    cases hf : s.fastQueue with
    | cons p rest =>
      have hnodes : State.nodes
          { s with fastQueue := rest, current := some p, priorityLevel := 0 } =
          s.nodes := by
        simp [State.nodes, hcur, hf]
      refine ⟨{ s with fastQueue := rest, current := some p, priorityLevel := 0 },
        by simp [Custom.dispatch, hcur, hf], ?_,
        hok.of_perm (hnodes ▸ List.Perm.refl _) rfl rfl, hnodes ▸ List.Perm.refl _⟩
      simp [Scored.dispatch, State.scored, State.histories, hcur, hf]
    | nil =>
      cases hq : s.smartQueue with
      | nil =>
        exact ⟨s, by simp [Custom.dispatch, hcur, hf, hq],
          by simp [Scored.dispatch, Scored.best, Scored.scan, State.scored, hcur, hf, hq],
          hok, List.Perm.refl _⟩
      | cons p rest => exact hok.dispatch_smart hv hcur hf (hq ▸ List.cons_ne_nil p rest)

/-! ## One unit of time -/

/-- The walk over the queues adds one to the wait time of each queued process,
once, and does nothing else. -/
theorem Ok.updateWaitTimes {s : State D} (hok : Ok s) (hnd : (s.nodes.map fun p => p.pid).Nodup)
    (queued : List CustomProcess) (hq : ∀ p ∈ queued, p ∈ s.nodes)
    (hqnd : (queued.map fun p => p.pid).Nodup) (l : List (ProcessHistory D))
    (hl : l.map historyLink = s.histories.map historyLink) :
    ∃ l', updateWaitTimes (some l) queued = some (some l') ∧
      l'.map historyLink = s.histories.map historyLink ∧
      ∀ pid, counters l' pid =
        if pid ∈ queued.map fun p => p.pid then (incr (counters l pid).1, (counters l pid).2)
        else counters l pid := by
  -- the walk keeps the links, so the next lookup succeeds as well
  induction queued generalizing l with
  | nil => exact ⟨l, rfl, hl, fun _ => by simp⟩
  | cons node rest ih =>
    obtain ⟨hnot, hrest⟩ := List.nodup_cons.mp hqnd
    obtain ⟨history, hfind, hpid, -⟩ := hok.find_history hnd (hq node (by simp)) hl
    let addWait : ProcessHistory D → ProcessHistory D := fun history =>
      { history with waitTime := incr history.waitTime }
    have hl₁ : (modifyHistory node.pid addWait l).map historyLink =
        s.histories.map historyLink :=
      (map_historyLink_modifyHistory (f := addWait) (fun _ => rfl) node.pid l).trans hl
    obtain ⟨l', hwalk, hlink, hcount⟩ :=
      ih (fun p hp => hq p (List.mem_cons_of_mem _ hp)) hrest _ hl₁
    refine ⟨l', ?_, hlink, fun pid => ?_⟩
    · rw [Custom.updateWaitTimes, List.foldlM_cons]
      simp only [getProcessHistory, Option.map_some, hfind]
      exact hwalk
    · rw [hcount, counters_modifyHistory (f := addWait) (fun _ => rfl) hfind]
      by_cases hp : pid = node.pid
      · rw [hp, if_neg hnot, if_pos rfl, if_pos (by simp), counters_of_find? hfind]
      · rw [if_neg hp]
        simp [hp]

/-- After `update_wait_times` and one unit of time for `current`, everybody in a
queue has waited once more and `current` has run once more. -/
theorem Ok.runCurrent {s : State D} (hok : Ok s) (hv : ValidJobs (s.nodes.map fun p => p.toJob))
    {c : CustomProcess} (hc : s.current = some c) :
    ∃ s', Custom.runCurrent s c = some s' ∧
      s'.scored = Scored.runCurrent s.scored (attach s.histories c) ∧ Ok s' ∧
      s'.current = some c.execute ∧
      (s'.nodes.map fun p => p.pid) = s.nodes.map fun p => p.pid := by
  have hnodes := nodes_of_current hc
  have hnd := pids_nodup_of_valid hv
  rw [hnodes, List.map_cons, List.nodup_cons] at hnd
  obtain ⟨hnot, hqnd⟩ := hnd
  have hq : ∀ p ∈ s.fastQueue ++ s.smartQueue, p ∈ s.nodes := fun p hp => by
    rw [hnodes]
    exact List.mem_cons_of_mem _ hp
  obtain ⟨l, hwalk, hlink, hcount⟩ := hok.updateWaitTimes (pids_nodup_of_valid hv)
    (s.fastQueue ++ s.smartQueue) hq hqnd s.histories rfl
  have hwait : ∀ p ∈ s.fastQueue ++ s.smartQueue, attach l p = (attach s.histories p).wait := by
    intro p hp
    rw [attach, attach, hcount, if_pos (List.mem_map_of_mem hp)]
    rfl
  have hself : attach l c.execute = (attach s.histories c).execute :=
    attach_congr (p := c.execute) ((hcount c.pid).trans (if_neg hnot))
  have hqueue : ∀ q : List CustomProcess, (∀ p ∈ q, p ∈ s.fastQueue ++ s.smartQueue) →
      q.map (attach l) = (q.map (attach s.histories)).map ScoredProcess.wait := by
    intro q hq
    rw [List.map_map]
    exact List.map_congr_left fun p hp => hwait p (hq p hp)
  refine ⟨{ s with processHistories := some l, current := some c.execute }, ?_, ?_,
    hok.of_perm ?_ hlink rfl, rfl, ?_⟩
  · rw [Custom.runCurrent, hok.processHistories (hnodes ▸ List.mem_cons_self), hwalk]
    rfl
  · show Scored.State.mk (s.fastQueue.map (attach l)) (s.smartQueue.map (attach l))
      (some (attach l c.execute)) _ = _
    rw [hqueue _ fun p hp => List.mem_append_left _ hp,
      hqueue _ fun p hp => List.mem_append_right _ hp, hself]
    rfl
  · rw [hnodes]
    exact List.Perm.refl _
  · rw [hnodes]
    rfl

/-! ## The end of the time step -/

section Retire

variable {s : State D} {c : CustomProcess}

/-- Writes to the history of `current` are not seen by the queued processes. -/
theorem map_attach_queue (hnd : (s.nodes.map fun p => p.pid).Nodup) (hc : s.current = some c)
    {l : List (ProcessHistory D)}
    (hl : ∀ pid, pid ≠ c.pid → counters l pid = counters s.histories pid)
    {q : List CustomProcess} (hq : ∀ p ∈ q, p ∈ s.fastQueue ++ s.smartQueue) :
    q.map (attach l) = q.map (attach s.histories) := by
  have hnodes := nodes_of_current hc
  rw [hnodes, List.map_cons, List.nodup_cons] at hnd
  refine List.map_congr_left fun p hp => attach_congr (hl p.pid fun heq => hnd.1 ?_)
  rw [← heq]
  exact List.mem_map_of_mem (hq p hp)

/-- A complete process is freed, and its history with it. -/
theorem Ok.retire_done (hok : Ok s) (hnd : (s.nodes.map fun p => p.pid).Nodup)
    (hc : s.current = some c) (hdone : c.processedTime = c.processingTime) :
    ∃ s', retire s c = some ((Scored.retire s.scored (attach s.histories c)).1, s') ∧
      s'.scored = (Scored.retire s.scored (attach s.histories c)).2 ∧ Ok s' := by
  have hnodes := nodes_of_current hc
  have hmem : c ∈ s.nodes := hnodes ▸ List.mem_cons_self
  obtain ⟨history, hfind, hpid, hptr⟩ := hok.find_history hnd hmem rfl
  have hdone' : (attach s.histories c).processedTime = (attach s.histories c).processingTime :=
    hdone
  have hl : ∀ pid, pid ≠ c.pid →
      counters (s.histories.eraseP fun history => history.pid = c.pid) pid =
        counters s.histories pid := fun pid h => counters_eraseP_of_ne h _
  rw [Scored.retire, if_pos hdone']
  refine ⟨{ s with
      current := none
      processHistories := some (s.histories.eraseP fun history => history.pid = c.pid) },
    ?_, ?_, ?_⟩
  · simp only [Custom.retire, getProcessHistory, hok.processHistories hmem, Option.map_some,
      if_pos hdone]
    rfl
  · show Scored.State.mk
      (s.fastQueue.map (attach (s.histories.eraseP fun history => history.pid = c.pid)))
      (s.smartQueue.map (attach (s.histories.eraseP fun history => history.pid = c.pid)))
      none _ = _
    rw [map_attach_queue hnd hc hl fun p hp => List.mem_append_left _ hp,
      map_attach_queue hnd hc hl fun p hp => List.mem_append_right _ hp]
    rfl
  · -- one history and one node go, and they are linked
    have hlinks := ((perm_cons_eraseP hfind).symm.map historyLink).trans hok.linked
    have hhead : historyLink history = nodeLink c := Prod.ext hpid hptr
    rw [hnodes, List.map_cons, List.map_cons, hhead] at hlinks
    have hnodup := hok.addr_nodup
    rw [hnodes, List.map_cons, List.nodup_cons] at hnodup
    exact ⟨hlinks.cons_inv, hnodup.2, fun p hp =>
      hok.addr_lt p (hnodes ▸ List.mem_cons_of_mem _ hp)⟩

/-- `history->reschedule_count++`. -/
def addReschedule (history : ProcessHistory D) : ProcessHistory D :=
  { history with rescheduleCount := incr history.rescheduleCount }

/-- A process on its way back to the smart queue. -/
def requeued (p : CustomProcess) : CustomProcess :=
  { p with toQuantumProcess := { p.toQuantumProcess with quantumUsed := 0 } }

theorem attach_requeued {l : List (ProcessHistory D)} {history : ProcessHistory D}
    (hfind : l.find? (fun history => history.pid = c.pid) = some history) :
    attach (modifyHistory c.pid addReschedule l) (requeued c) = (attach l c).demote := by
  have hself : counters (modifyHistory c.pid addReschedule l) c.pid =
      ((counters l c.pid).1, incr (counters l c.pid).2) := by
    rw [counters_modifyHistory (f := addReschedule) (fun _ => rfl) hfind, if_pos rfl,
      counters_of_find? hfind]
    rfl
  rw [attach]
  show ScoredProcess.mk _ (counters _ c.pid).1 (counters _ c.pid).2 = _
  rw [hself]
  rfl

/-- A process whose slice is over goes to the back of the smart queue, and its
history counts that. -/
theorem Ok.retire_demote (hok : Ok s) (hnd : (s.nodes.map fun p => p.pid).Nodup)
    (hc : s.current = some c) (hdone : c.processedTime ≠ c.processingTime)
    (hquantum : c.quantumUsed ≥ (s.priorityLevel + 1) * 2) :
    ∃ s', retire s c = some ((Scored.retire s.scored (attach s.histories c)).1, s') ∧
      s'.scored = (Scored.retire s.scored (attach s.histories c)).2 ∧ Ok s' := by
  have hnodes := nodes_of_current hc
  have hmem : c ∈ s.nodes := hnodes ▸ List.mem_cons_self
  obtain ⟨history, hfind, -, -⟩ := hok.find_history hnd hmem rfl
  have hl : ∀ pid, pid ≠ c.pid →
      counters (modifyHistory c.pid addReschedule s.histories) pid = counters s.histories pid :=
    fun pid h => (counters_modifyHistory (f := addReschedule) (fun _ => rfl) hfind pid).trans
      (if_neg h)
  have hdone' : (attach s.histories c).processedTime ≠ (attach s.histories c).processingTime :=
    hdone
  have hquantum' : (attach s.histories c).quantumUsed ≥ (s.scored.priorityLevel + 1) * 2 :=
    hquantum
  rw [Scored.retire, if_neg hdone', if_pos hquantum']
  refine ⟨{ s with
      smartQueue := s.smartQueue ++ [requeued c]
      current := none
      processHistories := some (modifyHistory c.pid addReschedule s.histories) }, ?_, ?_, ?_⟩
  · simp only [Custom.retire, getProcessHistory, hok.processHistories hmem, Option.map_some,
      if_neg hdone, if_pos hquantum, hfind]
    rfl
  · show Scored.State.mk
      (s.fastQueue.map (attach (modifyHistory c.pid addReschedule s.histories)))
      ((s.smartQueue ++ [requeued c]).map
        (attach (modifyHistory c.pid addReschedule s.histories))) none _ = _
    rw [List.map_append, map_attach_queue hnd hc hl fun p hp => List.mem_append_left _ hp,
      map_attach_queue hnd hc hl fun p hp => List.mem_append_right _ hp, List.map_singleton,
      attach_requeued hfind]
    rfl
  · refine hok.of_perm ?_ (map_historyLink_modifyHistory (f := addReschedule)
      (fun _ => rfl) c.pid s.histories) rfl
    show ((s.fastQueue ++ (s.smartQueue ++ [requeued c])).map _).Perm _
    rw [hnodes, ← List.append_assoc, List.map_append]
    exact List.perm_append_comm

/-- **The end of the time step** does not fault, and is that of the two-queue
scheduler. -/
theorem Ok.retire (hok : Ok s) (hnd : (s.nodes.map fun p => p.pid).Nodup)
    (hc : s.current = some c) :
    ∃ s', retire s c = some ((Scored.retire s.scored (attach s.histories c)).1, s') ∧
      s'.scored = (Scored.retire s.scored (attach s.histories c)).2 ∧ Ok s' := by
  by_cases hdone : c.processedTime = c.processingTime
  · exact hok.retire_done hnd hc hdone
  by_cases hquantum : c.quantumUsed ≥ (s.priorityLevel + 1) * 2
  · exact hok.retire_demote hnd hc hdone hquantum
  -- the process stays current
  have hnodes := nodes_of_current hc
  have hdone' : (attach s.histories c).processedTime ≠ (attach s.histories c).processingTime :=
    hdone
  have hquantum' : ¬ (attach s.histories c).quantumUsed ≥ (s.scored.priorityLevel + 1) * 2 :=
    hquantum
  rw [Scored.retire, if_neg hdone', if_neg hquantum']
  refine ⟨s, ?_, rfl, hok⟩
  simp only [Custom.retire, getProcessHistory,
    hok.processHistories (hnodes ▸ List.mem_cons_self), Option.map_some, if_neg hdone,
    if_neg hquantum]
  rfl

end Retire

/-- **`get_next_scheduled_process`** does not fault, returns the pid that the
two-queue scheduler returns, and leaves the state that it leaves. -/
theorem Ok.getNextScheduledProcess [DoubleArith D] {s : State D} (hok : Ok s)
    (hv : ValidJobs (s.nodes.map fun p => p.toJob)) :
    ∃ s', Custom.getNextScheduledProcess s =
        some ((Scored.getNextScheduledProcess D s.scored).1, s') ∧
      s'.scored = (Scored.getNextScheduledProcess D s.scored).2 ∧ Ok s' := by
  obtain ⟨s₁, hdisp, hscored, hok₁, hperm⟩ := hok.dispatch hv
  have hv₁ : ValidJobs (s₁.nodes.map fun p => p.toJob) := hv.perm (hperm.symm.map _)
  cases hc : s₁.current with
  | none =>
    have hc' : (Scored.dispatch D s.scored).current = none := by
      rw [← hscored, State.scored, hc]
      rfl
    refine ⟨s₁, ?_, ?_, hok₁⟩
    · simp only [Custom.getNextScheduledProcess, hdisp, hc, Scored.getNextScheduledProcess, hc']
    · simp only [Scored.getNextScheduledProcess, hc', hscored]
  | some c =>
    have hc' : (Scored.dispatch D s.scored).current = some (attach s₁.histories c) := by
      rw [← hscored, State.scored, hc]
      rfl
    obtain ⟨s₂, hrun, hscored₂, hok₂, hc₂, hpids⟩ := hok₁.runCurrent hv₁ hc
    have hnd₂ : (s₂.nodes.map fun p => p.pid).Nodup := hpids ▸ pids_nodup_of_valid hv₁
    obtain ⟨s₃, hretire, hscored₃, hok₃⟩ := hok₂.retire hnd₂ hc₂
    -- the counters of `current` after its unit of time
    have hcur : attach s₂.histories c.execute = (attach s₁.histories c).execute := by
      have h : s₂.scored.current = some (attach s₁.histories c).execute := by
        rw [hscored₂]
        rfl
      rw [State.scored, hc₂] at h
      exact Option.some.inj h
    rw [hscored₂, hscored, hcur] at hretire hscored₃
    rw [Scored.getNextScheduledProcess_of_current hc']
    refine ⟨s₃, ?_, hscored₃, hok₃⟩
    simp only [Custom.getNextScheduledProcess, hdisp, hc, hrun]
    exact hretire

theorem Ok.idle [DoubleArith D] {s : State D} (hok : Ok s)
    (hnil : (s.nodes.map fun p => p.toJob) = []) :
    ∃ s', Custom.getNextScheduledProcess s = some (0, s') ∧ Ok s' ∧
      (s'.nodes.map fun p => p.toJob) = [] := by
  have hnil' : s.scored.nodes = [] := by
    rw [scored_nodes, List.map_eq_nil_iff.mp hnil, List.map_nil]
  have hv : ValidJobs (s.nodes.map fun p => p.toJob) := by
    rw [hnil]
    exact ⟨List.nodup_nil, by simp, by simp⟩
  obtain ⟨s', hnext, hscored, hok'⟩ := hok.getNextScheduledProcess hv
  rw [Scored.getNextScheduledProcess_of_nil D hnil'] at hnext hscored
  refine ⟨s', hnext, hok', ?_⟩
  rw [← scored_nodes_toJob, hscored, hnil', List.map_nil]

theorem Ok.serve [DoubleArith D] {s : State D} (hok : Ok s)
    (hv : ValidJobs (s.nodes.map fun p => p.toJob))
    (hne : (s.nodes.map fun p => p.toJob) ≠ []) :
    ∃ c rest s', (s.nodes.map fun p => p.toJob).Perm (c :: rest) ∧
      Custom.getNextScheduledProcess s = some (c.pid, s') ∧ Ok s' ∧
      (s'.nodes.map fun p => p.toJob).Perm (c.served ++ rest) := by
  obtain ⟨s', hnext, hscored, hok'⟩ := hok.getNextScheduledProcess hv
  rw [← scored_nodes_toJob] at hv hne ⊢
  obtain ⟨c, rest, hperm, hpid, hrest⟩ := Scored.getNextScheduledProcess_serve D hv
    fun h => hne (by rw [h, List.map_nil])
  refine ⟨c, rest, s', hperm, ?_, hok', ?_⟩
  · rw [← hpid]
    exact hnext
  · rw [← scored_nodes_toJob, hscored]
    exact hrest

/-- The nodes of `custom.c`, and its invariant. -/
def books (D : Type) [DoubleArith D] : Books (scheduler D) where
  contents s := (State.nodes s).map fun p => p.toJob
  Ok := Ok
  init_ok := ⟨List.Perm.refl _, List.nodup_nil, fun _ h => nomatch h⟩
  init_contents := rfl
  add_ok _ p hok _ := hok.addToReadyQueue p
  add_contents s p := (addToReadyQueue_nodes s p).map _
  idle _ hok hnil := hok.idle hnil
  serve _ hok hv hne := hok.serve hv hne

/-- What `custom.c` does next depends on its processes and their counters only. -/
theorem scored_next [DoubleArith D] {s t s' t' : State D} {p q : Nat}
    (hs : Ok s) (ht : Ok t) (hvs : ValidJobs (s.nodes.map fun p => p.toJob))
    (hvt : ValidJobs (t.nodes.map fun p => p.toJob)) (hview : s.scored = t.scored)
    (hnext : getNextScheduledProcess s = some (p, s'))
    (hnext' : getNextScheduledProcess t = some (q, t')) : p = q ∧ s'.scored = t'.scored := by
  obtain ⟨s₂, hs₂, hscored, -⟩ := hs.getNextScheduledProcess hvs
  obtain ⟨t₂, ht₂, hscored', -⟩ := ht.getNextScheduledProcess hvt
  rw [hnext, Option.some.injEq, Prod.mk.injEq] at hs₂
  rw [hnext', Option.some.injEq, Prod.mk.injEq] at ht₂
  obtain ⟨rfl, rfl⟩ := hs₂
  obtain ⟨rfl, rfl⟩ := ht₂
  rw [hscored, hscored', hview]
  exact ⟨rfl, rfl⟩

/-- For `custom.c` the counters are in the view, but not the histories. -/
def oblivious (D : Type) [DoubleArith D] : Oblivious (books D) where
  View := Scored.State
  view := State.scored
  add := Scored.addToReadyQueue
  view_add s _ _ hv := addToReadyQueue_scored (s := s) fun q hq heq =>
    (List.nodup_cons.mp hv.nodup).1 (List.mem_map.mpr ⟨q.toJob, List.mem_map_of_mem hq, heq⟩)
  add_comm := Scored.add_comm
  view_next s s' _ _ _ _ hok hok' hv hv' hview hnext hnext' :=
    scored_next (s := s) (t := s') hok hok' hv hv' hview hnext hnext'

end Custom

end Cosc240
