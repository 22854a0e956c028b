import Cosc240.Schedulers.CustomRefines
import Cosc240.Simulator.Calls

/-!
# One history for each live process of `custom.c`

Some lookups of `custom.c` are guarded against a missing history, with a message
or a `break`, and one is not (custom.c:126–130, 266–303, 336–387). `Strict` is
`get_next_scheduled_process` with each of these guards turned into a fault. In a run it computes the
same, so the guards never act: the histories are exactly those of the live processes, at
every call boundary and at every lookup in between.

- `Strict.getNextScheduledProcess` and the functions it calls: those of `Custom`, with `none` where
  a guard would act.
- `Ok.strict_scanSmartQueue`, `Ok.strict_updateWaitTimes`, `Ok.strict_runCurrent` and the like: part
  by part, the strict function has a result, and it is that of the function in `Custom`.
- `OneHistoryEach`: the histories are one for each process in a queue or current, with its pid and a
  pointer to its `processed_time`.

Main results:

- `Ok.strict_getNextScheduledProcess`: no guard acts.
- `one_history_each`: there is one history for each live process at every call boundary of a run,
  and each call of `get_next_scheduled_process` finds every history it looks for, and reads
  `processed_time` of live processes only.
-/

namespace Cosc240

namespace Custom

variable {D : Type}

/-! ## Lookups that must succeed -/

namespace Strict

/-- `get_process_history`, with `NULL` as a fault. -/
def getProcessHistory (histories : Option (List (ProcessHistory D))) (pid : Nat) :
    Option (ProcessHistory D) :=
  (Custom.getProcessHistory histories pid).join

/-- `calculate_new_score`, with the message for a `NULL` pointer as a fault. -/
def calculateNewScore [DoubleArith D] (read : Nat → Option Nat) (history : ProcessHistory D)
    (process : CustomProcess) : Option (D × ProcessHistory D) :=
  match history.totalTimeRun with
  | none => none
  | some _ => Custom.calculateNewScore read history process

/-- The scan of the smart queue. -/
def scanSmartQueue [DoubleArith D] (read : Nat → Option Nat) :
    List CustomProcess → Option CustomProcess → D → Option (List (ProcessHistory D)) →
      Option (Option CustomProcess × Option (List (ProcessHistory D)))
  | [], best, _, histories => some (best, histories)
  | node :: rest, best, bestScore, histories =>
    match getProcessHistory histories node.pid with
    | none => none
    | some history =>
      match calculateNewScore read history node with
      | none => none
      | some (score, history) =>
        let histories := histories.map (modifyHistory node.pid fun _ => history)
        if DoubleArith.gt score bestScore then
          scanSmartQueue read rest (some node) score histories
        else
          scanSmartQueue read rest best bestScore histories

/-- `select_best_process_from_smart_queue`. -/
def selectBestProcessFromSmartQueue [DoubleArith D] (s : State D) :
    Option (Option CustomProcess × State D) :=
  match scanSmartQueue s.readProcessedTime s.smartQueue none DoubleArith.negDblMax
      s.processHistories with
  | none => none
  | some (none, processHistories) => some (none, { s with processHistories })
  | some (some best, processHistories) =>
    (unlink best.addr s.smartQueue).map fun smartQueue =>
      (some best, { s with smartQueue, processHistories })

/-- The first block of `get_next_scheduled_process`. -/
def dispatch [DoubleArith D] (s : State D) : Option (State D) :=
  match s.current with
  | some _ => some s
  | none =>
    match s.fastQueue, s.smartQueue with
    | p :: fastQueue, _ => some { s with fastQueue, current := some p, priorityLevel := 0 }
    | [], [] => some s
    | [], _ :: _ =>
      (selectBestProcessFromSmartQueue s).map fun (best, s) =>
        { s with current := best, priorityLevel := 1 }

/-- `update_wait_times`. -/
def updateWaitTimes (histories : Option (List (ProcessHistory D))) (queued : List CustomProcess) :
    Option (Option (List (ProcessHistory D))) :=
  queued.foldlM (fun histories node =>
    (getProcessHistory histories node.pid).map fun _ =>
      histories.map (modifyHistory node.pid fun history =>
        { history with waitTime := incr history.waitTime })) histories

/-- The middle of `get_next_scheduled_process`. -/
def runCurrent (s : State D) (current : CustomProcess) : Option (State D) :=
  (updateWaitTimes s.processHistories (s.fastQueue ++ s.smartQueue)).map fun processHistories =>
    { s with processHistories, current := some current.execute }

/-- The end of it. -/
def retire (s : State D) (current : CustomProcess) : Option (Nat × State D) :=
  (getProcessHistory s.processHistories current.pid).bind fun _ => Custom.retire s current

/-- `get_next_scheduled_process`. -/
def getNextScheduledProcess [DoubleArith D] (s : State D) : Option (Nat × State D) :=
  match dispatch s with
  | none => none
  | some s =>
    match s.current with
    | none => some (0, s)
    | some current =>
      match runCurrent s current with
      | none => none
      | some s => retire s current.execute

end Strict

/-! ## They do succeed -/

/-- The lookup for a live node, in any list with the links of the histories. -/
theorem Ok.strict_getProcessHistory {s : State D} (hok : Ok s)
    (hnd : (s.nodes.map fun p => p.pid).Nodup) {p : CustomProcess} (hp : p ∈ s.nodes)
    {l : List (ProcessHistory D)} (hl : l.map historyLink = s.histories.map historyLink) :
    ∃ history, Strict.getProcessHistory (some l) p.pid = some history ∧
      Custom.getProcessHistory (some l) p.pid = some (some history) ∧
      history.totalTimeRun = some p.addr := by
  obtain ⟨history, hfind, -, hptr⟩ := hok.find_history hnd hp hl
  have hget : Custom.getProcessHistory (some l) p.pid = some (some history) :=
    congrArg some hfind
  exact ⟨history, congrArg Option.join hget, hget, hptr⟩

theorem Ok.strict_scanSmartQueue [DoubleArith D] {s : State D} (hok : Ok s)
    (hnd : (s.nodes.map fun p => p.pid).Nodup) (q : List CustomProcess)
    (hq : ∀ p ∈ q, p ∈ s.nodes) (best : Option CustomProcess) (bestScore : D)
    (l : List (ProcessHistory D)) (hl : l.map historyLink = s.histories.map historyLink) :
    Strict.scanSmartQueue s.readProcessedTime q best bestScore (some l) =
      Custom.scanSmartQueue s.readProcessedTime q best bestScore (some l) := by
  induction q generalizing best bestScore l with
  | nil => rfl
  | cons node rest ih =>
    have hnode : node ∈ s.nodes := hq node List.mem_cons_self
    have hrest : ∀ p ∈ rest, p ∈ s.nodes := fun p hp => hq p (List.mem_cons_of_mem _ hp)
    obtain ⟨history, hstrict, hget, hptr⟩ := hok.strict_getProcessHistory hnd hnode hl
    have hcalc := calculateNewScore_eq hptr (hok.read hnode) node
    rw [Strict.scanSmartQueue, Custom.scanSmartQueue, hstrict, hget]
    simp only [Strict.calculateNewScore, hptr, hcalc, Option.map_some]
    -- storing the score keeps the links
    have hlinks : ∀ score : D, (modifyHistory node.pid (fun _ => setScore score history) l).map
        historyLink = s.histories.map historyLink := by
      intro score
      have hfind : l.find? (fun history => history.pid = node.pid) = some history :=
        Option.some.inj hget
      have hmodify : modifyHistory node.pid (fun _ => setScore score history) l =
          modifyHistory node.pid (setScore score) l := modifyHistory_congr hfind rfl
      rw [hmodify, map_historyLink_setScore, hl]
    rw [ih hrest _ _ _ (hlinks _), ih hrest _ _ _ (hlinks _)]

theorem Ok.strict_selectBestProcessFromSmartQueue [DoubleArith D] {s : State D} (hok : Ok s)
    (hv : ValidJobs (s.nodes.map fun p => p.toJob)) (hne : s.smartQueue ≠ []) :
    Strict.selectBestProcessFromSmartQueue s = Custom.selectBestProcessFromSmartQueue s := by
  have hmem : ∀ r ∈ s.smartQueue, r ∈ s.nodes := fun r hr => by simp [State.nodes, hr]
  obtain ⟨p, hp⟩ := List.exists_mem_of_ne_nil _ hne
  have hscan := hok.strict_scanSmartQueue (pids_nodup_of_valid hv) s.smartQueue hmem none
    DoubleArith.negDblMax s.histories rfl
  unfold Strict.selectBestProcessFromSmartQueue Custom.selectBestProcessFromSmartQueue
  rw [hok.processHistories (hmem p hp)]
  generalize Strict.scanSmartQueue s.readProcessedTime s.smartQueue none DoubleArith.negDblMax
    (some s.histories) = scanned at hscan ⊢
  subst hscan
  rfl

theorem Ok.strict_dispatch [DoubleArith D] {s : State D} (hok : Ok s)
    (hv : ValidJobs (s.nodes.map fun p => p.toJob)) :
    Strict.dispatch s = Custom.dispatch s := by
  unfold Strict.dispatch Custom.dispatch
  cases hcur : s.current with
  | some c => rfl
  | none =>
    cases hf : s.fastQueue with
    | cons p rest => rfl
    | nil =>
      cases hq : s.smartQueue with
      | nil => rfl
      | cons p rest =>
        have hselect := hok.strict_selectBestProcessFromSmartQueue hv (by simp [hq])
        exact congrArg (Option.map _) hselect

theorem Ok.strict_updateWaitTimes {s : State D} (hok : Ok s)
    (hnd : (s.nodes.map fun p => p.pid).Nodup) (queued : List CustomProcess)
    (hq : ∀ p ∈ queued, p ∈ s.nodes) (l : List (ProcessHistory D))
    (hl : l.map historyLink = s.histories.map historyLink) :
    Strict.updateWaitTimes (some l) queued = Custom.updateWaitTimes (some l) queued := by
  induction queued generalizing l with
  | nil => rfl
  | cons node rest ih =>
    obtain ⟨history, hstrict, hget, -⟩ :=
      hok.strict_getProcessHistory hnd (hq node List.mem_cons_self) hl
    rw [Strict.updateWaitTimes, Custom.updateWaitTimes, List.foldlM_cons, List.foldlM_cons,
      hstrict, hget]
    let addWait : ProcessHistory D → ProcessHistory D := fun history =>
      { history with waitTime := incr history.waitTime }
    -- counting the wait keeps the links
    refine ih (fun p hp => hq p (List.mem_cons_of_mem _ hp)) _ ?_
    exact (map_historyLink_modifyHistory (f := addWait) (fun _ => rfl) node.pid l).trans hl

theorem Ok.strict_runCurrent {s : State D} (hok : Ok s)
    (hv : ValidJobs (s.nodes.map fun p => p.toJob)) {c : CustomProcess} (hc : s.current = some c) :
    Strict.runCurrent s c = Custom.runCurrent s c := by
  have hnodes := nodes_of_current hc
  have hmem : ∀ p ∈ s.fastQueue ++ s.smartQueue, p ∈ s.nodes := by
    intro p hp
    rw [hnodes]
    exact List.mem_cons_of_mem _ hp
  rw [Strict.runCurrent, Custom.runCurrent, hok.processHistories (hnodes ▸ List.mem_cons_self),
    hok.strict_updateWaitTimes (pids_nodup_of_valid hv) _ hmem _ rfl]

/-- **No guard acts.** -/
theorem Ok.strict_getNextScheduledProcess [DoubleArith D] {s : State D} (hok : Ok s)
    (hv : ValidJobs (s.nodes.map fun p => p.toJob)) :
    Strict.getNextScheduledProcess s = Custom.getNextScheduledProcess s := by
  obtain ⟨s₁, hdisp, -, hok₁, hperm⟩ := hok.dispatch hv
  have hv₁ : ValidJobs (s₁.nodes.map fun p => p.toJob) := hv.perm (hperm.symm.map _)
  rw [Strict.getNextScheduledProcess, Custom.getNextScheduledProcess, hok.strict_dispatch hv,
    hdisp]
  cases hc : s₁.current with
  | none => simp only [hc]
  | some c =>
    obtain ⟨s₂, hrun, -, hok₂, hc₂, hpids⟩ := hok₁.runCurrent hv₁ hc
    have hnd₂ : (s₂.nodes.map fun p => p.pid).Nodup := hpids ▸ pids_nodup_of_valid hv₁
    -- the unguarded lookup is for the process that has just run
    have hmem : c.execute ∈ s₂.nodes := by simp [State.nodes, hc₂]
    obtain ⟨history, hstrict, -, -⟩ := hok₂.strict_getProcessHistory hnd₂ hmem rfl
    rw [← hok₂.processHistories hmem] at hstrict
    simp only [hc, hok₁.strict_runCurrent hv₁ hc, hrun, Strict.retire, hstrict, Option.bind_some]

/-! ## Histories and nodes -/

/-- One history for each live process. -/
structure OneHistoryEach (s : State D) : Prop where
  distinct : (s.histories.map fun history => history.pid).Nodup
  /-- The pids are those of the processes in the two queues and of `current`. -/
  pids : (s.histories.map fun history => history.pid).Perm (s.nodes.map fun p => p.pid)
  /-- `total_time_run` is the address of the `processed_time` of that process,
  which can be read. -/
  denotes : ∀ history ∈ s.histories, ∃ p ∈ s.nodes, p.pid = history.pid ∧
    history.totalTimeRun = some p.addr ∧ s.readProcessedTime p.addr = some p.processedTime

theorem Ok.oneHistoryEach {s : State D} (hok : Ok s)
    (hv : ValidJobs (s.nodes.map fun p => p.toJob)) : OneHistoryEach s where
  distinct := by
    have hpids := hok.linked.map Prod.fst
    rw [List.map_map, List.map_map] at hpids
    exact hpids.nodup_iff.mpr (pids_nodup_of_valid hv)
  pids := by
    have hpids := hok.linked.map Prod.fst
    rw [List.map_map, List.map_map] at hpids
    exact hpids
  denotes history hmem := by
    obtain ⟨p, hp, hlink⟩ := List.mem_map.mp (hok.linked.mem_iff.mp (List.mem_map_of_mem hmem))
    exact ⟨p, hp, congrArg Prod.fst hlink, (congrArg Prod.snd hlink).symm, hok.read hp⟩

/-- Nothing more has to be kept than the books. -/
theorem keeps_true (D : Type) [DoubleArith D] : (books D).Keeps fun _ => True where
  init := trivial
  add _ _ _ _ _ := trivial
  next _ _ _ _ _ _ _ := trivial

/-- **One history for each live process**, at every call boundary of a run. Each
call of `get_next_scheduled_process` finds every history it looks for, and reads
`processed_time` of live processes only. -/
theorem one_history_each (D : Type) [DoubleArith D] (T : Table) (timeBound : UInt32) :
    (∀ s, CallState (scheduler D) T timeBound s → OneHistoryEach (D := D) s) ∧
    ∀ t s, Enters (scheduler D) T timeBound t s →
      ∃ pid s', s.answer t = some (pid, s') ∧
        Strict.getNextScheduledProcess (addArrivals (scheduler D) s.processes t s.sched) =
          some (pid, s') := by
  constructor
  · intro s hs
    obtain ⟨-, hok, hv⟩ := (keeps_true D).callState hs
    exact Ok.oneHistoryEach hok hv
  · intro t s hs
    obtain ⟨-, hok, hv⟩ := (keeps_true D).callState (.arrived hs)
    have hstrict := Ok.strict_getNextScheduledProcess hok hv
    obtain ⟨pid, s', hnext, -⟩ := (books D).tick_agree ((books D).agree_reached hs.reached)
      hs.running
    exact ⟨pid, s', hnext, hstrict.trans hnext⟩

end Custom

end Cosc240
