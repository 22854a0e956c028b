import Cosc240.Lib.ExactDouble
import Cosc240.Schedulers.Rr
import Mathlib.Algebra.Order.Field.Rat
import Mathlib.Tactic.Linarith
import Mathlib.Tactic.Positivity

/-!
# `custom.c`

Two queues, a fast one (`priority_queues[0]`) and a smart one
(`priority_queues[1]`), and a separate list of histories behind a sentinel that
is allocated with the first process. A history is found by pid, and reaches the
`processed_time` of its process through a raw pointer.

Nodes carry the address they were allocated at, and a pointer is an address.
Reading through a pointer looks for the node among those that have not been
freed, and an access to freed memory or through `NULL` makes the result `none`.

The scores are `double`s. The model is written over any arithmetic that
`custom.c` could be compiled with (`DoubleArith`). The exact rationals are one, and `ExactDouble`,
with the values that a division by zero gives, is another.

- `initProcessHistory`, `getProcessHistory`, `freeProcessHistory` (custom.c:51–118).
- `scoreOf` and `calculateNewScore` (custom.c:124–144), with the weights of the arithmetic.
- `addToReadyQueue` (custom.c:195–242): into the fast queue, by two walks.
- `scanSmartQueue`, `unlink`, `selectBestProcessFromSmartQueue` (custom.c:286–326): the loop that
  looks for the best process, the one that removes it, and the function.
- `updateWaitTimes` (custom.c:266–279).
- `dispatch`, `runCurrent`, `retire`, `getNextScheduledProcess` (custom.c:336–387): the function in
  three parts, with `move_to_smart_queue` (custom.c:247–261) in the last one.

The printing in debug mode and the exits for a `malloc` that fails are left out.
-/

namespace Cosc240

open Lib

/-! ## Arithmetic -/

/-- What `custom.c` uses of `double`. The one law says that a score computed
from counters, with both denominators positive, is above `-DBL_MAX`. -/
class DoubleArith (D : Type) extends Add D, Sub D, Mul D, Div D where
  ofUInt : Nat → D
  gt : D → D → Bool
  negDblMax : D
  remainingTimeWeight : D
  rescheduleWeight : D
  score_gt : ∀ waiting running penalty total left : Nat,
    waiting ≤ uintMax → running ≤ uintMax → penalty ≤ uintMax → total ≤ uintMax →
    left ≤ uintMax → 0 < running → 0 < left →
    gt (ofUInt waiting / ofUInt running + ofUInt total / ofUInt left * remainingTimeWeight -
      ofUInt penalty * rescheduleWeight) negDblMax = true

/-- `DBL_MAX` of the 64-bit `double`. -/
def dblMax : Nat := (2 ^ 53 - 1) * 2 ^ 971

theorem uintMax_lt_dblMax : uintMax < dblMax := by decide +kernel

/-- A rational score is at least minus half its penalty. -/
theorem neg_lt_score {penalty bound : Nat} (h : penalty < bound)
    (waiting running total left : Nat) :
    -(bound : ℚ) < waiting / running + total / left * (6 / 5) - penalty * (1 / 2) := by
  have hlt : (penalty : ℚ) < bound := Nat.cast_lt.mpr h
  have hpenalty : (0 : ℚ) ≤ penalty := Nat.cast_nonneg penalty
  have hwaiting : (0 : ℚ) ≤ (waiting : ℚ) / running := by positivity
  have htotal : (0 : ℚ) ≤ (total : ℚ) / left * (6 / 5) := by positivity
  linarith

/-- Exact rational arithmetic, with the weights 1.2 and 0.5. A quotient by zero counts as 0 here;
no run of the simulator divides by zero. -/
instance : DoubleArith ℚ where
  ofUInt n := n
  gt a b := b < a
  negDblMax := -(dblMax : ℚ)
  remainingTimeWeight := 6 / 5
  rescheduleWeight := 1 / 2
  score_gt _ _ _ _ _ _ _ hpenalty _ _ _ _ :=
    decide_eq_true (neg_lt_score (Nat.lt_of_le_of_lt hpenalty uintMax_lt_dblMax) _ _ _ _)

/-- The same with what a `double` has for a quotient by zero. -/
instance : DoubleArith ExactDouble where
  ofUInt n := .finite n
  gt := ExactDouble.gt
  negDblMax := .finite (-(dblMax : ℚ))
  remainingTimeWeight := .finite (6 / 5)
  rescheduleWeight := .finite (1 / 2)
  score_gt waiting running penalty total left _ _ hpenalty _ _ hrunning hleft := by
    rw [ExactDouble.finite_div _ (Nat.cast_ne_zero.mpr hrunning.ne'),
      ExactDouble.finite_div _ (Nat.cast_ne_zero.mpr hleft.ne'), ExactDouble.finite_mul,
      ExactDouble.finite_add, ExactDouble.finite_mul, ExactDouble.finite_sub,
      ExactDouble.gt_finite]
    exact decide_eq_true
      (neg_lt_score (Nat.lt_of_le_of_lt hpenalty uintMax_lt_dblMax) _ _ _ _)

/-! ## Records -/

/-- `custom_process`, at the address it was allocated at. -/
structure CustomProcess extends QuantumProcess where
  addr : Nat
  deriving DecidableEq, Repr

/-- One unit of time for a node. -/
def CustomProcess.execute (p : CustomProcess) : CustomProcess :=
  { p with toQuantumProcess := p.toQuantumProcess.execute }

/-- `process_history`. `totalTimeRun` is a pointer, with `none` for `NULL`. -/
structure ProcessHistory (D : Type) where
  pid : Nat
  totalTimeRun : Option Nat
  waitTime : Nat
  rescheduleCount : Nat
  score : D

namespace Custom

variable {D : Type}

/-- The globals. `processHistories` is `none` while the sentinel is not
allocated, and the list behind it afterwards. -/
structure State (D : Type) where
  fastQueue : List CustomProcess
  smartQueue : List CustomProcess
  current : Option CustomProcess
  priorityLevel : Nat
  processHistories : Option (List (ProcessHistory D))
  nextAddr : Nat

/-- Their initial values. -/
def init : State D :=
  { fastQueue := [], smartQueue := [], current := none, priorityLevel := 0,
    processHistories := none, nextAddr := 0 }

/-- The nodes that have not been freed: those in a queue, and `current`. -/
def State.nodes (s : State D) : List CustomProcess :=
  s.current.toList ++ (s.fastQueue ++ s.smartQueue)

theorem nodes_of_current {s : State D} {c : CustomProcess} (hc : s.current = some c) :
    s.nodes = c :: (s.fastQueue ++ s.smartQueue) := by
  rw [State.nodes, hc]
  rfl

/-- `*ptr` for a pointer to the `processed_time` of the node at `ptr`. -/
def State.readProcessedTime (s : State D) (ptr : Nat) : Option Nat :=
  (s.nodes.find? fun p => p.addr = ptr).map fun p => p.processedTime

/-! ## Histories -/

/-- Writing through the pointer that `get_process_history` returns for `pid`. -/
def modifyHistory (pid : Nat) (f : ProcessHistory D → ProcessHistory D) :
    List (ProcessHistory D) → List (ProcessHistory D)
  | [] => []
  | history :: rest =>
    if history.pid = pid then f history :: rest else history :: modifyHistory pid f rest

/-- `get_process_history`: it reads `process_histories->next` first. -/
def getProcessHistory (histories : Option (List (ProcessHistory D))) (pid : Nat) :
    Option (Option (ProcessHistory D)) :=
  histories.map fun l => l.find? fun history => history.pid = pid

/-- `free_process_history`. -/
def freeProcessHistory (histories : Option (List (ProcessHistory D))) (pid : Nat) :
    Option (List (ProcessHistory D)) :=
  histories.map fun l => l.eraseP fun history => history.pid = pid

/-- The node `init_process_history` allocates. -/
def newHistory [DoubleArith D] (process : CustomProcess) : ProcessHistory D :=
  { pid := process.pid, totalTimeRun := some process.addr, waitTime := 0, rescheduleCount := 0,
    score := DoubleArith.ofUInt 0 }

/-- `init_process_history`. -/
def initProcessHistory [DoubleArith D] (histories : Option (List (ProcessHistory D)))
    (process : CustomProcess) : Option (List (ProcessHistory D)) :=
  some (newHistory process :: histories.getD [])

/-- The score formula of `calculate_new_score`, on unsigned operands. -/
def scoreOf [DoubleArith D] (waitTime totalTimeRun rescheduleCount processingTime
    processedTime : Nat) : D :=
  let waitingFactor : D := DoubleArith.ofUInt (toUInt (waitTime + 1))
  let runningFactor : D := DoubleArith.ofUInt (toUInt (totalTimeRun + 1))
  let reschedulePenalty : D := DoubleArith.ofUInt (toUInt (rescheduleCount + 1))
  let remainingTimeFactor : D := DoubleArith.ofUInt (toUInt (processingTime + 1)) /
    DoubleArith.ofUInt (toUInt (usub processingTime processedTime + 1))
  waitingFactor / runningFactor + remainingTimeFactor * DoubleArith.remainingTimeWeight -
    reschedulePenalty * DoubleArith.rescheduleWeight

/-- `calculate_new_score`: the score, and the history it has been stored in. -/
def calculateNewScore [DoubleArith D] (read : Nat → Option Nat) (history : ProcessHistory D)
    (process : CustomProcess) : Option (D × ProcessHistory D) :=
  match history.totalTimeRun with
  | none => some (DoubleArith.negDblMax, history)
  | some ptr =>
    (read ptr).map fun totalTimeRun =>
      let score : D := scoreOf history.waitTime totalTimeRun history.rescheduleCount
        process.processingTime process.processedTime
      (score, { history with score })

/-! ## Adding a process -/

/-- `add_to_ready_queue`: into the fast queue. -/
def addToReadyQueue [DoubleArith D] (s : State D) (process : ProcessInitial) : State D :=
  let newProcess : CustomProcess :=
    { toQuantumProcess := newQuantumProcess process, addr := s.nextAddr }
  { s with
    nextAddr := s.nextAddr + 1
    processHistories := initProcessHistory s.processHistories newProcess
    fastQueue := skipInsert (fun p => p.arrivalTime) (fun p => p.pid) newProcess s.fastQueue }

/-! ## Choosing from the smart queue -/

/-- The first loop of `select_best_process_from_smart_queue`, from `node` on:
the best process so far, and the histories with their new scores. -/
def scanSmartQueue [DoubleArith D] (read : Nat → Option Nat) :
    List CustomProcess → Option CustomProcess → D → Option (List (ProcessHistory D)) →
      Option (Option CustomProcess × Option (List (ProcessHistory D)))
  | [], best, _, histories => some (best, histories)
  | node :: rest, best, bestScore, histories =>
    match getProcessHistory histories node.pid with
    | none => none
    -- no history for this pid: the message, and `break`
    | some none => some (best, histories)
    | some (some history) =>
      match calculateNewScore read history node with
      | none => none
      | some (score, history) =>
        let histories := histories.map (modifyHistory node.pid fun _ => history)
        if DoubleArith.gt score bestScore then
          scanSmartQueue read rest (some node) score histories
        else
          scanSmartQueue read rest best bestScore histories

/-- The removal loop: walk until the next node is the one at `addr`. Walking off
the end dereferences `NULL`. -/
def unlink (addr : Nat) : List CustomProcess → Option (List CustomProcess)
  | [] => none
  | node :: rest =>
    if node.addr = addr then some rest else (unlink addr rest).map (node :: ·)

/-- `select_best_process_from_smart_queue`. -/
def selectBestProcessFromSmartQueue [DoubleArith D] (s : State D) :
    Option (Option CustomProcess × State D) :=
  match scanSmartQueue s.readProcessedTime s.smartQueue none DoubleArith.negDblMax
      s.processHistories with
  | none => none
  | some (none, processHistories) => some (none, { s with processHistories })
  | some (some best, processHistories) =>
    (unlink best.addr s.smartQueue).map fun smartQueue =>
      (some best, { s with smartQueue, processHistories })

/-! ## One time step -/

/-- The first block of `get_next_scheduled_process`: with no process current,
take one from the fast queue, or else the best one from the smart queue. -/
def dispatch [DoubleArith D] (s : State D) : Option (State D) :=
  match s.current with
  | some _ => some s
  | none =>
    match s.fastQueue, s.smartQueue with
    | p :: fastQueue, _ => some { s with fastQueue, current := some p, priorityLevel := 0 }
    | [], [] => some s
    | [], _ :: _ =>
      (selectBestProcessFromSmartQueue s).map fun (best, s) =>
        { s with current := best, priorityLevel := 1 }

/-- `update_wait_times`, on the histories: one walk over each queue. -/
def updateWaitTimes (histories : Option (List (ProcessHistory D))) (queued : List CustomProcess) :
    Option (Option (List (ProcessHistory D))) :=
  queued.foldlM (fun histories node =>
    match getProcessHistory histories node.pid with
    | none => none
    | some none => some histories
    | some (some _) =>
      some (histories.map (modifyHistory node.pid fun history =>
        { history with waitTime := incr history.waitTime }))) histories

/-- The middle of it: wait times, then one unit of time for `current`. -/
def runCurrent (s : State D) (current : CustomProcess) : Option (State D) :=
  (updateWaitTimes s.processHistories (s.fastQueue ++ s.smartQueue)).map fun processHistories =>
    { s with processHistories, current := some current.execute }

/-- The end of it: `current` may be complete, or go to the smart queue. -/
def retire (s : State D) (current : CustomProcess) : Option (Nat × State D) :=
  match getProcessHistory s.processHistories current.pid with
  | none => none
  | some history =>
    if current.processedTime = current.processingTime then
      some (current.pid,
        { s with
          current := none
          processHistories := freeProcessHistory s.processHistories current.pid })
    else if current.quantumUsed ≥ (s.priorityLevel + 1) * 2 then
      match history with
      -- `history->reschedule_count++` through `NULL`
      | none => none
      | some _ =>
        some (current.pid,
          { s with
            smartQueue := s.smartQueue ++
              [{ current with toQuantumProcess :=
                  { current.toQuantumProcess with quantumUsed := 0 } }]
            current := none
            processHistories := s.processHistories.map (modifyHistory current.pid fun history =>
              { history with rescheduleCount := incr history.rescheduleCount }) })
    else
      some (current.pid, s)

/-- `get_next_scheduled_process`. -/
def getNextScheduledProcess [DoubleArith D] (s : State D) : Option (Nat × State D) :=
  match dispatch s with
  | none => none
  | some s =>
    match s.current with
    | none => some (0, s)
    | some current =>
      match runCurrent s current with
      | none => none
      | some s => retire s current.execute

/-- `custom.c` as a scheduler. -/
def scheduler (D : Type) [DoubleArith D] : Scheduler where
  State := State D
  init := init
  addToReadyQueue := addToReadyQueue
  getNextScheduledProcess := getNextScheduledProcess

end Custom

end Cosc240
