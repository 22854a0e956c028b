import Cosc240.Schedulers.CustomPointers
import Cosc240.Schedulers.CustomRefines
import Mathlib.Data.List.MinMax

/-!
# The best process of the smart queue

`select_best_process_from_smart_queue` (custom.c:286–326) by itself, on any smart queue and any
histories in memory, not only on those that a run leads to. The scores are exact, with the values
that a division by zero gives (`ExactDouble`).

- `newScore`: the score of a process as a rational. It is what `calculate_new_score` computes as
  long as neither denominator has wrapped to 0 (`Defined`, `score_eq_newScore`).
- `Selectable`: what the function is promised: distinct pids, a history for each process, and no
  process that is complete. Of the rest only the process with the largest `processing_time` that has
  not run at all is left out, since both sums of its score wrap, and the quotient is no number.
- `selectBestProcess_selects`: the strict comparison keeps the first of the best processes; the loop
  that removes it has no test for `NULL`, and needs none, as the process has been found in the same
  list.
- `selectBestProcess_wrapped`: with that process alone the function returns `NULL`.
-/

namespace Cosc240

open Lib LinkedList

/-! ## The first maximum -/

/-- `argmax` is the first of the elements with the greatest value. -/
theorem exists_append_of_argmax {α κ : Type*} [DecidableEq α] [LinearOrder κ] {f : α → κ}
    {l : List α} {b : α} (h : l.argmax f = some b) :
    ∃ before after, l = before ++ b :: after ∧ (∀ a ∈ before, f a < f b) ∧
      ∀ a ∈ after, f a ≤ f b := by
  obtain ⟨before, after, rfl, hnot⟩ := List.eq_append_cons_of_mem (List.argmax_mem h)
  refine ⟨before, after, rfl, fun a ha => ?_, fun a ha => List.le_of_mem_argmax (by simp [ha]) h⟩
  by_contra hle
  -- otherwise `a` would have been chosen
  have hindex := List.index_of_argmax h (List.mem_append_left _ ha) (not_lt.mp hle)
  have hlt := List.idxOf_lt_length_of_mem ha
  rw [List.idxOf_append_of_mem ha, List.idxOf_append_of_notMem hnot] at hindex
  omega

namespace Custom

/-- What `calculate_new_score` computes for a process, from the counters in its history. -/
def newScore (histories : List (ProcessHistory ExactDouble)) (p : CustomProcess) : ℚ :=
  scoreOf (counters histories p.pid).1 p.processedTime (counters histories p.pid).2
    p.processingTime p.processedTime

/-- The history that is found for the process points to it. -/
def Linked (histories : List (ProcessHistory ExactDouble)) (p : CustomProcess) : Prop :=
  ∃ history, histories.find? (fun history => history.pid = p.pid) = some history ∧
    history.totalTimeRun = some p.addr

/-- The pids are distinct, each process has its history, and no process is complete. A
`processing_time` is an `unsigned int`, and if it is the largest one, then the process has run. -/
structure Selectable (queue : List CustomProcess) (histories : List (ProcessHistory ExactDouble)) :
    Prop where
  pids_nodup : (queue.map fun p => p.pid).Nodup
  linked : ∀ p ∈ queue, Linked histories p
  processedTime_lt : ∀ p ∈ queue, p.processedTime < p.processingTime
  processingTime_le : ∀ p ∈ queue, p.processingTime ≤ uintMax
  ne_zero : ∀ p ∈ queue, p.processingTime = uintMax → p.processedTime ≠ 0

/-- Neither of the two denominators has wrapped to 0. -/
def Defined (p : CustomProcess) : Prop :=
  toUInt (p.processedTime + 1) ≠ 0 ∧ toUInt (usub p.processingTime p.processedTime + 1) ≠ 0

/-- `p`, between `before` and `after`, is the first of the processes with the greatest score. -/
structure FirstBest (histories : List (ProcessHistory ExactDouble)) (before : List CustomProcess)
    (p : CustomProcess) (after : List CustomProcess) : Prop where
  before_lt : ∀ q ∈ before, newScore histories q < newScore histories p
  after_le : ∀ q ∈ after, newScore histories q ≤ newScore histories p

/-- The histories without their addresses. -/
def records (histories : Option (List (Nat × ProcessHistory ExactDouble))) :
    List (ProcessHistory ExactDouble) :=
  (histories.getD []).map Prod.snd

/-- What the function has done when it returns `best`. -/
structure Selects (m : Storage ExactDouble) (queue : List CustomProcess)
    (histories : Option (List (Nat × ProcessHistory ExactDouble))) (best : Option Nat)
    (m' : Storage ExactDouble)
    (histories' : Option (List (Nat × ProcessHistory ExactDouble))) : Prop where
  none_iff : best = none ↔ queue = []
  unchanged : best = none → m' = m
  /-- The first of the best processes is taken out of the queue. -/
  first : ∀ b, best = some b → ∃ before p after, queue = before ++ p :: after ∧ p.addr = b ∧
    FirstBest (records histories) before p after ∧ m'.Holds (before ++ after) histories' ∧
    (m'.processes b).map Cell.next = some none
  /-- The scores in the histories are the new ones. -/
  refreshed : ∀ p ∈ queue, ∀ history,
    (records histories).find? (fun history => history.pid = p.pid) = some history →
      (records histories').find? (fun history => history.pid = p.pid) =
        some { history with score := .finite (newScore (records histories) p) }
  addresses : histories'.map (List.map Prod.fst) = histories.map (List.map Prod.fst)
  sameData : m.SameData m'

/-! ## The scores -/

section Refresh

variable {l : List (ProcessHistory ExactDouble)} {queue : List CustomProcess}

theorem Selectable.defined (h : Selectable queue l) {p : CustomProcess} (hp : p ∈ queue) :
    Defined p := by
  have hlt := h.processedTime_lt p hp
  have hle := h.processingTime_le p hp
  have hne := h.ne_zero p hp
  constructor
  · rw [toUInt_of_le (by omega)]
    omega
  · rw [usub_of_le hlt.le hle, toUInt_of_le (by omega)]
    omega

/-- **The score is a number**, the same as with rationals only. -/
theorem score_eq_newScore {p : CustomProcess} (hp : Defined p) :
    (attach l p).score ExactDouble = .finite (newScore l p) := by
  obtain ⟨hrunning, hleft⟩ := hp
  show scoreOf (D := ExactDouble) _ p.processedTime _ p.processingTime p.processedTime = _
  rw [scoreOf]
  show ExactDouble.finite _ / .finite _ + .finite _ / .finite _ * .finite _ -
    .finite _ * .finite _ = _
  rw [ExactDouble.finite_div _ (Nat.cast_ne_zero.mpr hrunning),
    ExactDouble.finite_div _ (Nat.cast_ne_zero.mpr hleft), ExactDouble.finite_mul,
    ExactDouble.finite_add, ExactDouble.finite_mul, ExactDouble.finite_sub]
  rfl

/-- Every score beats the initial one. -/
theorem gt_negDblMax_newScore (l : List (ProcessHistory ExactDouble)) (p : CustomProcess) :
    ExactDouble.gt (.finite (newScore l p)) (DoubleArith.negDblMax : ExactDouble) = true := by
  have hle : ∀ n, toUInt n ≤ uintMax := fun n =>
    Nat.le_of_lt_succ (Nat.mod_lt n (Nat.succ_pos uintMax))
  have hlt : -(dblMax : ℚ) < newScore l p :=
    neg_lt_score (Nat.lt_of_le_of_lt (hle _) uintMax_lt_dblMax) _ _ _ _
  exact (ExactDouble.gt_finite _ _).trans (decide_eq_true hlt)

theorem find?_refresh (l : List (ProcessHistory ExactDouble)) (node : CustomProcess) (pid : Nat) :
    (refresh l node).find? (fun history => history.pid = pid) =
      if pid = node.pid then
        (l.find? fun history => history.pid = pid).map
          (setScore ((attach l node).score ExactDouble))
      else l.find? fun history => history.pid = pid :=
  find?_modifyHistory (f := setScore _) (fun _ => rfl) node.pid pid l

theorem newScore_refresh {node : CustomProcess} (hnode : Linked l node) :
    newScore (refresh l node) = newScore l := by
  obtain ⟨history, hfind, -⟩ := hnode
  funext p
  rw [newScore, newScore, counters_refresh hfind]

theorem Linked.refresh {p : CustomProcess} (h : Linked l p) (node : CustomProcess) :
    Linked (refresh l node) p := by
  obtain ⟨history, hfind, hptr⟩ := h
  rw [Linked, find?_refresh, hfind]
  split
  · exact ⟨_, rfl, hptr⟩
  · exact ⟨history, rfl, hptr⟩

/-- A history that belongs to no process of the queue is left alone. -/
theorem find?_foldl_refresh_of_not_mem {pid : Nat} (h : pid ∉ queue.map fun p => p.pid) :
    (queue.foldl refresh l).find? (fun history => history.pid = pid) =
      l.find? fun history => history.pid = pid := by
  induction queue generalizing l with
  | nil => rfl
  | cons node rest ih =>
    obtain ⟨hne, hrest⟩ := not_or.mp fun hmem => h (List.mem_cons.mpr hmem)
    rw [List.foldl_cons, ih hrest, find?_refresh, if_neg hne]

/-- Each process of the queue has its new score in its history. -/
theorem find?_foldl_refresh (hnodup : (queue.map fun p => p.pid).Nodup)
    (hlinked : ∀ p ∈ queue, Linked l p) (hdefined : ∀ p ∈ queue, Defined p)
    {p : CustomProcess} (hp : p ∈ queue)
    {history : ProcessHistory ExactDouble}
    (hfind : l.find? (fun history => history.pid = p.pid) = some history) :
    (queue.foldl refresh l).find? (fun history => history.pid = p.pid) =
      some { history with score := .finite (newScore l p) } := by
  induction queue generalizing l with
  | nil => cases hp
  | cons node rest ih =>
    obtain ⟨hnot, hrest⟩ := List.nodup_cons.mp hnodup
    obtain ⟨hnode, hlinked⟩ := List.forall_mem_cons.mp hlinked
    obtain ⟨hdefined_node, hdefined⟩ := List.forall_mem_cons.mp hdefined
    rw [List.foldl_cons]
    rcases List.mem_cons.mp hp with rfl | hp
    · rw [find?_foldl_refresh_of_not_mem hnot, find?_refresh, if_pos rfl, hfind,
        score_eq_newScore hdefined_node]
      rfl
    · have hne : p.pid ≠ node.pid := fun heq => hnot (List.mem_map.mpr ⟨p, hp, heq⟩)
      rw [← newScore_refresh hnode]
      refine ih hrest (fun q hq => (hlinked q hq).refresh node) hdefined hp ?_
      rw [find?_refresh, if_neg hne, hfind]

end Refresh

/-! ## The function on lists -/

section Lists

variable {read : Nat → Option Nat} {l : List (ProcessHistory ExactDouble)}
  {queue : List CustomProcess}

/-- One turn of the first loop. -/
theorem scanSmartQueue_of_linked {node : CustomProcess} (hnode : Linked l node)
    (hdefined : Defined node) (hread : read node.addr = some node.processedTime)
    (rest : List CustomProcess) (best : Option CustomProcess) (bestScore : ExactDouble) :
    scanSmartQueue read (node :: rest) best bestScore (some l) =
      if ExactDouble.gt (.finite (newScore l node)) bestScore then
        scanSmartQueue read rest (some node) (.finite (newScore l node)) (some (refresh l node))
      else scanSmartQueue read rest best bestScore (some (refresh l node)) := by
  obtain ⟨history, hfind, hptr⟩ := hnode
  rw [scanSmartQueue_cons hfind hptr hread rest best bestScore, score_eq_newScore hdefined]
  rfl

/-- **The first loop**, with a best process so far. -/
theorem scanSmartQueue_some (hlinked : ∀ p ∈ queue, Linked l p) (hdefined : ∀ p ∈ queue, Defined p)
    (hread : ∀ p ∈ queue, read p.addr = some p.processedTime) (b : CustomProcess) :
    scanSmartQueue read queue (some b) (ExactDouble.finite (newScore l b)) (some l) =
      some (queue.foldl (List.argAux fun b c => newScore l c < newScore l b) (some b),
        some (queue.foldl refresh l)) := by
  induction queue generalizing l b with
  | nil => rfl
  | cons node rest ih =>
    obtain ⟨hnode, hlinked⟩ := List.forall_mem_cons.mp hlinked
    obtain ⟨hdefined_node, hdefined⟩ := List.forall_mem_cons.mp hdefined
    obtain ⟨hnode_read, hread⟩ := List.forall_mem_cons.mp hread
    have hrest := ih (fun p hp => (hlinked p hp).refresh node) hdefined hread
    rw [newScore_refresh hnode] at hrest
    rw [scanSmartQueue_of_linked hnode hdefined_node hnode_read]
    show (if decide (newScore l b < newScore l node) = true then
      scanSmartQueue read rest (some node) (ExactDouble.finite (newScore l node)) _ else _) = _
    by_cases hlt : newScore l b < newScore l node
    · rw [if_pos (decide_eq_true hlt), hrest node]
      simp [List.argAux, hlt]
    · rw [if_neg (by simpa using hlt), hrest b]
      simp [List.argAux, hlt]

theorem scanSmartQueue_argmax (hlinked : ∀ p ∈ queue, Linked l p)
    (hdefined : ∀ p ∈ queue, Defined p)
    (hread : ∀ p ∈ queue, read p.addr = some p.processedTime) :
    scanSmartQueue read queue none DoubleArith.negDblMax (some l) =
      some (queue.argmax (newScore l), some (queue.foldl refresh l)) := by
  cases queue with
  | nil => rfl
  | cons node rest =>
    obtain ⟨hnode, hlinked⟩ := List.forall_mem_cons.mp hlinked
    obtain ⟨hdefined_node, hdefined⟩ := List.forall_mem_cons.mp hdefined
    obtain ⟨hnode_read, hread⟩ := List.forall_mem_cons.mp hread
    have hrest :=
      scanSmartQueue_some (fun p hp => (hlinked p hp).refresh node) hdefined hread node
    rw [newScore_refresh hnode] at hrest
    rw [scanSmartQueue_of_linked hnode hdefined_node hnode_read]
    exact (if_pos (gt_negDblMax_newScore l node)).trans hrest

/-- The second loop, up to the best process. -/
theorem unlink_append {before after : List CustomProcess} {p : CustomProcess}
    (h : ∀ q ∈ before, q.addr ≠ p.addr) :
    unlink p.addr (before ++ p :: after) = some (before ++ after) := by
  induction before with
  | nil => exact if_pos rfl
  | cons q before ih =>
    obtain ⟨hq, hbefore⟩ := List.forall_mem_cons.mp h
    rw [List.cons_append, unlink, if_neg hq, ih hbefore]
    rfl

end Lists

/-! ## The function in memory -/

section Memory

variable {m : Storage ExactDouble} {queue : List CustomProcess}
  {histories : Option (List (Nat × ProcessHistory ExactDouble))}

/-- The globals as lists, as far as the function looks at them. -/
def listState (queue : List CustomProcess)
    (histories : Option (List (Nat × ProcessHistory ExactDouble))) : State ExactDouble where
  fastQueue := []
  smartQueue := queue
  current := none
  priorityLevel := 0
  processHistories := histories.map (List.map Prod.snd)
  nextAddr := 0

theorem Storage.Holds.addr_nodup (hm : m.Holds queue histories) :
    (queue.map fun p => p.addr).Nodup := by
  obtain ⟨x, hchain⟩ := hm.queue
  have hnodup := (List.nodup_cons.mp hchain.nodup).2
  rwa [List.map_map] at hnodup

/-- In front of a process there is no other one with its address. -/
theorem Storage.Holds.addr_ne {before after : List CustomProcess} {p : CustomProcess}
    (hm : m.Holds (before ++ p :: after) histories) : ∀ q ∈ before, q.addr ≠ p.addr := by
  intro q hq
  have hnodup := hm.addr_nodup
  rw [List.map_append, List.nodup_append] at hnodup
  exact hnodup.2.2 q.addr (List.mem_map_of_mem hq) p.addr List.mem_cons_self

theorem readProcessedTime_listState (hm : m.Holds queue histories) {p : CustomProcess}
    (hp : p ∈ queue) : (listState queue histories).readProcessedTime p.addr =
      some p.processedTime := by
  obtain ⟨before, after, rfl⟩ := List.append_of_mem hp
  have hfind : (before ++ p :: after).find? (fun q => q.addr = p.addr) = some p :=
    List.find?_eq_some_iff_append.mpr ⟨decide_eq_true rfl, before, after, rfl,
      fun q hq => by simpa using hm.addr_ne q hq⟩
  exact congrArg (Option.map fun p => p.processedTime) hfind

/-- On lists, the first of the best processes is chosen and removed. -/
theorem selectBestProcess_listState (hm : m.Holds queue histories) (hne : queue ≠ [])
    (hqueue : Selectable queue (records histories)) :
    ∃ before p after, queue = before ++ p :: after ∧
      FirstBest (records histories) before p after ∧
      Custom.selectBestProcessFromSmartQueue (listState queue histories) = some (some p,
        { listState queue histories with
          smartQueue := before ++ after
          processHistories := some (queue.foldl refresh (records histories)) }) := by
  -- a process has a history, so the sentinel is allocated
  obtain ⟨cells, rfl⟩ : ∃ cells, histories = some cells := by
    cases histories with
    | some cells => exact ⟨cells, rfl⟩
    | none =>
      obtain ⟨p, hp⟩ := List.exists_mem_of_ne_nil queue hne
      obtain ⟨history, hfind, -⟩ := hqueue.linked p hp
      cases hfind
  obtain ⟨p, hp⟩ : ∃ p, queue.argmax (newScore (records (some cells))) = some p :=
    Option.ne_none_iff_exists'.mp fun hnone => hne (List.argmax_eq_none.mp hnone)
  have hscan := scanSmartQueue_argmax hqueue.linked (fun p hp => hqueue.defined hp)
    fun p hp => readProcessedTime_listState hm hp
  rw [hp] at hscan
  obtain ⟨before, after, rfl, hbefore, hafter⟩ := exists_append_of_argmax hp
  refine ⟨before, p, after, rfl, ⟨hbefore, hafter⟩, ?_⟩
  have hloop : scanSmartQueue (listState (before ++ p :: after) (some cells)).readProcessedTime
      (listState (before ++ p :: after) (some cells)).smartQueue none DoubleArith.negDblMax
      (listState (before ++ p :: after) (some cells)).processHistories =
      some (some p, some ((before ++ p :: after).foldl refresh (records (some cells)))) := hscan
  have hremoved : unlink p.addr (before ++ p :: after) = some (before ++ after) :=
    unlink_append hm.addr_ne
  rw [Custom.selectBestProcessFromSmartQueue, hloop]
  exact congrArg (Option.map _) hremoved

/-- An empty queue is not touched. -/
theorem selectBestProcess_nil (hm : m.Holds [] histories) {steps : Nat} (hsteps : 0 < steps) :
    m.selectBestProcessFromSmartQueue steps = some (none, m) := by
  obtain ⟨x, hchain⟩ := hm.queue
  obtain ⟨steps, rfl⟩ := Nat.exists_eq_succ_of_ne_zero (Nat.ne_of_gt hsteps)
  cases hchain with
  | cons hsentinel hrest =>
    cases hrest
    rw [Storage.selectBestProcessFromSmartQueue, hsentinel]
    rfl

/-- **`select_best_process_from_smart_queue`** on its own. -/
theorem selectBestProcess_selects (m : Storage ExactDouble) (queue : List CustomProcess)
    (histories : Option (List (Nat × ProcessHistory ExactDouble))) (hm : m.Holds queue histories)
    (hqueue : Selectable queue (records histories)) (steps : Nat)
    (hsteps : queue.length < steps) (hsteps' : (histories.getD []).length < steps) :
    ∃ best m' histories', m.selectBestProcessFromSmartQueue steps = some (best, m') ∧
      Selects m queue histories best m' histories' := by
  by_cases hne : queue = []
  · subst hne
    refine ⟨none, m, histories, selectBestProcess_nil hm hsteps, ?_⟩
    exact ⟨iff_of_true rfl rfl, fun _ => rfl, nofun, nofun, rfl,
      (Storage.Rescored.refl m).sameData⟩
  · obtain ⟨before, p, after, hsplit, hbest, hlist⟩ := selectBestProcess_listState hm hne hqueue
    have hnodes : ∀ p ∈ (listState queue histories).nodes,
        ∃ next, m.processes p.addr = some ⟨p.toQuantumProcess, next⟩ := by
      intro p hp
      obtain ⟨x, hchain⟩ := hm.queue
      exact hchain.exists_cell (List.mem_cons_of_mem _ (List.mem_map_of_mem hp))
    obtain ⟨m', histories', hrun, hheld, hrecords, haddresses, hnext, hsame⟩ :=
      Storage.Holds.selectBestProcessFromSmartQueue hm rfl hnodes hsteps hsteps' hlist
    refine ⟨_, m', histories', hrun, iff_of_false nofun hne, nofun, ?_, ?_, haddresses, hsame⟩
    · rintro _ ⟨⟩
      exact ⟨before, p, after, hsplit, rfl, hbest, hheld, hnext p rfl⟩
    · intro q hq history hfind
      have hrefreshed := find?_foldl_refresh hqueue.pids_nodup hqueue.linked
        (fun p hp => hqueue.defined hp) hq hfind
      obtain ⟨cells, rfl, hcells⟩ := Option.map_eq_some_iff.mp hrecords.symm
      rw [← hcells] at hrefreshed
      exact hrefreshed

end Memory

/-- Two processes in the smart queue, with the same score. -/
def twins : List CustomProcess :=
  [{ pid := 4, processingTime := 6, arrivalTime := 0, processedTime := 2, quantumUsed := 0,
     addr := 10 },
   { pid := 3, processingTime := 6, arrivalTime := 0, processedTime := 2, quantumUsed := 0,
     addr := 11 }]

/-- Their histories, each at its address. -/
def twinHistories : List (Nat × ProcessHistory ExactDouble) :=
  [(21, ⟨3, some 11, 5, 1, .finite 0⟩), (22, ⟨4, some 10, 5, 1, .finite 0⟩)]

/-- Both lists in memory. -/
def twinStorage : Storage ExactDouble where
  processes
    | 1 => some ⟨⟨⟨0, 0, 0, 0⟩, 0⟩, some 10⟩
    | 10 => some ⟨⟨⟨4, 6, 0, 2⟩, 0⟩, some 11⟩
    | 11 => some ⟨⟨⟨3, 6, 0, 2⟩, 0⟩, none⟩
    | _ => none
  histories
    | 20 => some ⟨⟨0, none, 0, 0, .finite 0⟩, some 21⟩
    | 21 => some ⟨⟨3, some 11, 5, 1, .finite 0⟩, some 22⟩
    | 22 => some ⟨⟨4, some 10, 5, 1, .finite 0⟩, none⟩
    | _ => none
  priorityQueues := 0
  processHistories := some 20

example : (twinStorage.selectBestProcessFromSmartQueue 3).map Prod.fst = some (some 10) := by
  decide +kernel

/-- The first of the two is chosen. -/
theorem selectBestProcess_selects_twins :
    ∃ best m' histories', twinStorage.selectBestProcessFromSmartQueue 3 = some (best, m') ∧
      Selects twinStorage twins (some twinHistories) best m' histories' := by
  refine selectBestProcess_selects twinStorage twins (some twinHistories)
    ⟨⟨⟨⟨0, 0, 0, 0⟩, 0⟩, .cons rfl (.cons rfl (.cons rfl .nil))⟩,
      20, ⟨0, none, 0, 0, .finite 0⟩, rfl, .cons rfl (.cons rfl (.cons rfl .nil))⟩
    ⟨by decide, ?_, by decide, by decide, by decide⟩ 3 (by decide) (by decide)
  simp only [twins, List.forall_mem_cons]
  exact ⟨⟨_, rfl, rfl⟩, ⟨_, rfl, rfl⟩, nofun⟩

/-- A process with the largest `processing_time`, which has not run. -/
def longest : CustomProcess :=
  { pid := 4, processingTime := uintMax, arrivalTime := 0, processedTime := 0, quantumUsed := 0,
    addr := 10 }

/-- Its history, at its address. -/
def longestHistories : List (Nat × ProcessHistory ExactDouble) :=
  [(21, ⟨4, some 10, 0, 0, .finite 0⟩)]

/-- Both in memory. -/
def longestStorage : Storage ExactDouble where
  processes
    | 1 => some ⟨⟨⟨0, 0, 0, 0⟩, 0⟩, some 10⟩
    | 10 => some ⟨⟨⟨4, uintMax, 0, 0⟩, 0⟩, none⟩
    | _ => none
  histories
    | 20 => some ⟨⟨0, none, 0, 0, .finite 0⟩, some 21⟩
    | 21 => some ⟨⟨4, some 10, 0, 0, .finite 0⟩, none⟩
    | _ => none
  priorityQueues := 0
  processHistories := some 20

/-- **The quotient is no number**, and no comparison with it is true: the queue is not empty, and
the function returns `NULL`. -/
theorem selectBestProcess_wrapped :
    longestStorage.Holds [longest] (some longestHistories) ∧
      ([longest].map fun p => p.pid).Nodup ∧
      (∀ p ∈ [longest], Linked (records (some longestHistories)) p) ∧
      (∀ p ∈ [longest], p.processedTime < p.processingTime) ∧
      (longestStorage.selectBestProcessFromSmartQueue 3).map Prod.fst = some none ∧
      ¬ ∃ best m' histories', longestStorage.selectBestProcessFromSmartQueue 3 = some (best, m') ∧
        Selects longestStorage [longest] (some longestHistories) best m' histories' := by
  have hnull : (longestStorage.selectBestProcessFromSmartQueue 3).map Prod.fst = some none := by
    decide +kernel
  refine ⟨⟨⟨⟨⟨0, 0, 0, 0⟩, 0⟩, .cons rfl (.cons rfl .nil)⟩, 20, ⟨0, none, 0, 0, .finite 0⟩, rfl,
    .cons rfl (.cons rfl .nil)⟩, by decide, ?_, by decide, hnull, ?_⟩
  · simp only [List.forall_mem_singleton]
    exact ⟨_, rfl, rfl⟩
  · rintro ⟨best, m', histories', hrun, hselects⟩
    rw [hrun] at hnull
    exact List.cons_ne_nil _ _ (hselects.none_iff.mp (Option.some.inj hnull))

end Custom

end Cosc240
