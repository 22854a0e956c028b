import Cosc240.Schedulers.Algorithms
import Cosc240.Simulator.Calls

/-!
# Levels and progress

In the three schedulers with several queues a process is where the service it
has received puts it. For `constant.c` and `exponential.c` an `Entitlement` says
which amounts belong to a level: none at the top, and one whole slice more at
the next level down. For `custom.c` the number of times a process has been
rescheduled is part of it.

- `Mlfq.Entitlement`, `Mlfq.Entitled`: the amounts that belong to a level, and the invariant that
  every process is at the level that its progress entitles it to.
- `Constant.Earned` and `Exponential.Earned`: the amounts of the two files. A level can be read off
  them (`Constant.level_of_earned`, `Exponential.level_of_earned`).
- `Scored.Earned`, `Custom.Earned`: the same for the two queues of `custom.c`, with the reschedule
  count in the history of the process.
- `Custom.scoreDenominator`: the denominator in custom.c:135–137.

Main results:

- `Mlfq.Entitled.execute` and `Scored.Entitled.execute`: one unit of time for a process that has not
  used up its slice keeps the invariant.
- `progress_shows_level`: at every call boundary of a run of the three files the levels show the
  progress, and no denominator of a score is below 2.
-/

namespace Cosc240

open Lib

namespace Mlfq

/-! ## `constant.c` and `exponential.c` -/

/-- `Earned k n`: a process that waits at level `k` may have received `n`. -/
structure Entitlement (sliceLength : Level → Nat) (Earned : Level → Nat → Prop) : Prop where
  pos : ∀ k, 0 < sliceLength k
  top : Earned topLevel 0
  next : ∀ k n, Earned k n → Earned (nextLevel k) (n + sliceLength k)
  /-- An amount belongs to one level only. -/
  unique : ∀ k k' n, Earned k n → Earned k' n → k = k'

/-- Every process is at the level that its progress entitles it to. -/
structure Entitled (sliceLength : Level → Nat) (Earned : Level → Nat → Prop) (s : State) :
    Prop where
  queued : ∀ k, ∀ p ∈ s.priorityQueues k, p.quantumUsed = 0 ∧ Earned k p.processedTime
  current : ∀ c, s.current = some c →
    0 < c.quantumUsed ∧ c.quantumUsed < sliceLength s.priorityLevel ∧
      ∃ n, Earned s.priorityLevel n ∧ c.processedTime = n + c.quantumUsed

section Step

variable {sliceLength : Level → Nat} {Earned : Level → Nat → Prop} {s : State}

theorem mem_update_append {q : Level → List QuantumProcess} {k k' : Level}
    {p new : QuantumProcess} (h : p ∈ Function.update q k (q k ++ [new]) k') :
    p ∈ q k' ∨ k' = k ∧ p = new := by
  by_cases hk : k' = k
  · subst hk
    rw [Function.update_self, List.mem_append, List.mem_singleton] at h
    exact h.imp_right fun h => ⟨rfl, h⟩
  · rw [Function.update_of_ne hk] at h
    exact Or.inl h

theorem Entitled.addToReadyQueue (he : Entitlement sliceLength Earned)
    (hs : Entitled sliceLength Earned s) (process : ProcessInitial) :
    Entitled sliceLength Earned (addToReadyQueue s process) where
  queued k p hp := by
    unfold Mlfq.addToReadyQueue at hp
    dsimp only at hp
    by_cases hk : k = 0
    · subst hk
      rw [Function.update_self] at hp
      rcases List.mem_cons.mp ((skipInsert_perm _ _).mem_iff.mp hp) with rfl | hp
      · exact ⟨rfl, he.top⟩
      · exact hs.queued 0 p hp
    · rw [Function.update_of_ne hk] at hp
      exact hs.queued k p hp
  current := hs.current

/-- **One unit of time** for a process that has not used up its slice. -/
theorem Entitled.execute (he : Entitlement sliceLength Earned)
    (hqueued : ∀ k, ∀ p ∈ s.priorityQueues k, p.quantumUsed = 0 ∧ Earned k p.processedTime)
    {c : QuantumProcess} (hlt : c.processedTime < c.processingTime)
    (hle : c.processingTime ≤ uintMax) {n : Nat} (hn : Earned s.priorityLevel n)
    (hprogress : c.processedTime = n + c.quantumUsed)
    (hquantum : c.quantumUsed < sliceLength s.priorityLevel) :
    Entitled sliceLength Earned (execute sliceLength s c).2 := by
  have hprocessed : c.execute.processedTime = c.processedTime + 1 := incr_of_lt hlt hle
  have hused : c.execute.quantumUsed = c.quantumUsed + 1 :=
    incr_of_lt (m := c.processingTime) (by omega) hle
  unfold Mlfq.execute
  dsimp only
  by_cases hdone : c.execute.processedTime = c.execute.processingTime
  · rw [if_pos hdone]
    exact ⟨hqueued, fun _ h => nomatch h⟩
  rw [if_neg hdone]
  by_cases hover : c.execute.quantumUsed = sliceLength s.priorityLevel
  · -- the whole slice is used up, and counts for the next level
    rw [if_pos hover]
    refine ⟨?_, fun _ h => nomatch h⟩
    intro k p hp
    rcases mem_update_append hp with hp | ⟨rfl, rfl⟩
    · exact hqueued k p hp
    · refine ⟨rfl, ?_⟩
      have hearned := he.next _ _ hn
      rw [← hover, hused] at hearned
      show Earned _ c.execute.processedTime
      rwa [hprocessed, hprogress]
  · rw [if_neg hover]
    refine ⟨hqueued, ?_⟩
    rintro _ ⟨⟩
    have hbelow : c.execute.quantumUsed < sliceLength s.priorityLevel := by omega
    have hsum : c.execute.processedTime = n + c.execute.quantumUsed := by omega
    exact ⟨hused ▸ Nat.succ_pos _, hbelow, n, hn, hsum⟩

/-- **One time step.** -/
theorem Entitled.getNextScheduledProcess (he : Entitlement sliceLength Earned)
    (hs : Entitled sliceLength Earned s) (hv : ValidJobs (s.nodes.map QuantumProcess.toJob)) :
    Entitled sliceLength Earned (getNextScheduledProcess sliceLength s).2 := by
  have hnode : ∀ c ∈ s.nodes, c.processedTime < c.processingTime ∧
      c.processingTime ≤ uintMax := by
    intro c hc
    have hjob := List.mem_map_of_mem (f := QuantumProcess.toJob) hc
    exact ⟨hv.lt _ hjob, (hv.lt_uintMax _ hjob).le⟩
  rcases dispatch_cases s with ⟨c, hc, hd⟩ | ⟨i, p, rest, hc, hq, -, hd⟩ | ⟨hc, -, hd⟩
  · -- the slice in progress goes on
    rw [getNextScheduledProcess_of_current sliceLength (by rw [hd, hc]), hd]
    obtain ⟨hlt, hle⟩ := hnode c (by simp [State.nodes, hc])
    obtain ⟨-, hquantum, n, hn, hprogress⟩ := hs.current c hc
    exact .execute he hs.queued hlt hle hn hprogress hquantum
  · -- a slice starts at level `i`, with a fresh quantum
    rw [getNextScheduledProcess_of_current sliceLength (by rw [hd]), hd]
    obtain ⟨hlt, hle⟩ := hnode p (List.mem_append_right _
      (mem_allQueues.mpr ⟨i, hq ▸ List.mem_cons_self⟩))
    obtain ⟨hzero, hearned⟩ := hs.queued i p (hq ▸ List.mem_cons_self)
    refine .execute he ?_ hlt hle hearned (by omega) (hzero ▸ he.pos i)
    intro k r hr
    dsimp only at hr
    by_cases hk : k = i
    · subst hk
      rw [Function.update_self] at hr
      exact hs.queued k r (hq ▸ List.mem_cons_of_mem _ hr)
    · rw [Function.update_of_ne hk] at hr
      exact hs.queued k r hr
  · have hnext : Mlfq.getNextScheduledProcess sliceLength s = (0, s) := by
      simp [Mlfq.getNextScheduledProcess, hd, hc]
    rw [hnext]
    exact hs

/-- Levels show progress in every run. -/
theorem keeps_entitled (he : Entitlement sliceLength Earned) :
    (books sliceLength).Keeps (Entitled sliceLength Earned) where
  init := ⟨(fun _ _ h => nomatch h), (fun _ h => nomatch h)⟩
  add _ process _ _ hs := Entitled.addToReadyQueue he hs process
  next s pid s' _ hv hs hnext := by
    have hstep := Entitled.getNextScheduledProcess he hs hv
    have hs' : (Mlfq.getNextScheduledProcess sliceLength s).2 = s' :=
      congrArg Prod.snd (Option.some.inj hnext)
    rwa [hs'] at hstep

theorem Entitled.callState (he : Entitlement sliceLength Earned) {T : Table}
    {timeBound : UInt32} (h : CallState (scheduler sliceLength) T timeBound s) :
    Entitled sliceLength Earned s ∧ ∀ p ∈ s.nodes, p.processedTime < p.processingTime := by
  obtain ⟨hs, -, hv⟩ := (keeps_entitled he).callState h
  exact ⟨hs, fun p hp => hv.lt p.toJob (List.mem_map_of_mem hp)⟩

end Step

end Mlfq

/-- What a process in a queue of `constant.c` has received. -/
def Constant.Earned (k : Mlfq.Level) (n : Nat) : Prop :=
  match k.val with
  | 0 => n = 0
  | 1 => n = 3
  | 2 => n = 9
  | _ => ∃ m, n = 18 + 12 * m

/-- What a process in a queue of `exponential.c` has received. -/
def Exponential.Earned (k : Mlfq.Level) (n : Nat) : Prop :=
  match k.val with
  | 0 => n = 0
  | 1 => n = 2
  | 2 => n = 10
  | _ => ∃ m, n = 28 + 32 * m

/-- The level can be read off the amount. -/
theorem Constant.level_of_earned {k : Mlfq.Level} {n : Nat} (h : Constant.Earned k n) :
    k.val = if n < 3 then 0 else if n < 9 then 1 else if n < 18 then 2 else 3 := by
  unfold Constant.Earned at h
  match k, h with
  | ⟨0, _⟩, h =>
    obtain rfl : n = 0 := h
    rfl
  | ⟨1, _⟩, h =>
    obtain rfl : n = 3 := h
    rfl
  | ⟨2, _⟩, h =>
    obtain rfl : n = 9 := h
    rfl
  | ⟨3, _⟩, h =>
    obtain ⟨m, hm⟩ : ∃ m, n = 18 + 12 * m := h
    rw [if_neg (by omega), if_neg (by omega), if_neg (by omega)]

theorem Constant.entitlement : Mlfq.Entitlement Constant.sliceLength Constant.Earned where
  pos := by decide
  top := rfl
  next k n hn := by
    unfold Constant.Earned at hn
    match k, hn with
    | ⟨0, _⟩, hn => exact congrArg (· + 3) hn
    | ⟨1, _⟩, hn => exact congrArg (· + 6) hn
    | ⟨2, _⟩, hn => exact ⟨0, congrArg (· + 9) hn⟩
    | ⟨3, _⟩, hn =>
      obtain ⟨m, rfl⟩ := hn
      exact ⟨m + 1, rfl⟩
  unique k k' n hn hn' := Fin.ext ((Constant.level_of_earned hn).trans
    (Constant.level_of_earned hn').symm)

/-- The level can be read off the amount. -/
theorem Exponential.level_of_earned {k : Mlfq.Level} {n : Nat} (h : Exponential.Earned k n) :
    k.val = if n < 2 then 0 else if n < 10 then 1 else if n < 28 then 2 else 3 := by
  unfold Exponential.Earned at h
  match k, h with
  | ⟨0, _⟩, h =>
    obtain rfl : n = 0 := h
    rfl
  | ⟨1, _⟩, h =>
    obtain rfl : n = 2 := h
    rfl
  | ⟨2, _⟩, h =>
    obtain rfl : n = 10 := h
    rfl
  | ⟨3, _⟩, h =>
    obtain ⟨m, hm⟩ : ∃ m, n = 28 + 32 * m := h
    rw [if_neg (by omega), if_neg (by omega), if_neg (by omega)]

theorem Exponential.entitlement :
    Mlfq.Entitlement Exponential.sliceLength Exponential.Earned where
  pos := by decide
  top := rfl
  next k n hn := by
    unfold Exponential.Earned at hn
    match k, hn with
    | ⟨0, _⟩, hn => exact congrArg (· + 2) hn
    | ⟨1, _⟩, hn => exact congrArg (· + 8) hn
    | ⟨2, _⟩, hn => exact ⟨0, congrArg (· + 18) hn⟩
    | ⟨3, _⟩, hn =>
      obtain ⟨m, rfl⟩ := hn
      exact ⟨m + 1, rfl⟩
  unique k k' n hn hn' := Fin.ext ((Exponential.level_of_earned hn).trans
    (Exponential.level_of_earned hn').symm)

/-! ## `custom.c` -/

namespace Scored

/-- What a process that waits at a level has received, given the number of
times it has been rescheduled. -/
def Earned (level count n : Nat) : Prop :=
  level = 0 ∧ count = 0 ∧ n = 0 ∨ level = 1 ∧ 1 ≤ count ∧ n = 4 * count - 2

/-- A whole slice, and being rescheduled once more, lead to the smart queue. -/
theorem Earned.demote {level count n : Nat} (h : Earned level count n) :
    Earned 1 (count + 1) (n + (level + 1) * 2) := by
  rcases h with ⟨rfl, rfl, rfl⟩ | ⟨rfl, hcount, rfl⟩
  · exact Or.inr ⟨rfl, Nat.le_refl 1, rfl⟩
  · exact Or.inr ⟨rfl, by omega, by omega⟩

/-- A process is not rescheduled more often than it has received time. -/
theorem Earned.count_le {level count n : Nat} (h : Earned level count n) : count ≤ n := by
  rcases h with ⟨rfl, rfl, rfl⟩ | ⟨rfl, hcount, rfl⟩
  · exact Nat.le_refl 0
  · omega

/-- Every process is in the queue that its progress entitles it to. -/
structure Entitled (s : State) : Prop where
  fast : ∀ p ∈ s.fastQueue, p.quantumUsed = 0 ∧ Earned 0 p.rescheduleCount p.processedTime
  smart : ∀ p ∈ s.smartQueue, p.quantumUsed = 0 ∧ Earned 1 p.rescheduleCount p.processedTime
  current : ∀ c, s.current = some c →
    0 < c.quantumUsed ∧ c.quantumUsed < (s.priorityLevel + 1) * 2 ∧
      ∃ n, Earned s.priorityLevel c.rescheduleCount n ∧ c.processedTime = n + c.quantumUsed

variable {s : State}

theorem Entitled.addToReadyQueue (hs : Entitled s) (process : ProcessInitial) :
    Entitled (addToReadyQueue s process) where
  fast p hp := by
    unfold Scored.addToReadyQueue at hp
    rcases List.mem_cons.mp ((skipInsert_perm _ _).mem_iff.mp hp) with rfl | hp
    · exact ⟨rfl, Or.inl ⟨rfl, rfl, rfl⟩⟩
    · exact hs.fast p hp
  smart := hs.smart
  current := hs.current

/-- **One unit of time** for a process that has not used up its slice. -/
theorem Entitled.execute
    (hfast : ∀ p ∈ s.fastQueue, p.quantumUsed = 0 ∧ Earned 0 p.rescheduleCount p.processedTime)
    (hsmart : ∀ p ∈ s.smartQueue, p.quantumUsed = 0 ∧ Earned 1 p.rescheduleCount p.processedTime)
    {c : ScoredProcess} (hlt : c.processedTime < c.processingTime)
    (hle : c.processingTime ≤ uintMax) {n : Nat} (hn : Earned s.priorityLevel c.rescheduleCount n)
    (hprogress : c.processedTime = n + c.quantumUsed)
    (hquantum : c.quantumUsed < (s.priorityLevel + 1) * 2) :
    Entitled (execute s c).2 := by
  have hprocessed : c.execute.processedTime = c.processedTime + 1 := incr_of_lt hlt hle
  have hused : c.execute.quantumUsed = c.quantumUsed + 1 :=
    incr_of_lt (m := c.processingTime) (by omega) hle
  have hcount : incr c.rescheduleCount = c.rescheduleCount + 1 :=
    incr_of_lt (m := c.processingTime) (by have := hn.count_le; omega) hle
  -- waiting changes neither the quantum nor what has been earned
  have hwait : ∀ {level : Nat} {l : List ScoredProcess},
      (∀ p ∈ l, p.quantumUsed = 0 ∧ Earned level p.rescheduleCount p.processedTime) →
      ∀ p ∈ l.map ScoredProcess.wait,
        p.quantumUsed = 0 ∧ Earned level p.rescheduleCount p.processedTime := by
    intro level l hl p hp
    obtain ⟨q, hq, rfl⟩ := List.mem_map.mp hp
    exact hl q hq
  unfold Scored.execute Scored.retire Scored.runCurrent
  dsimp only
  by_cases hdone : c.execute.processedTime = c.execute.processingTime
  · rw [if_pos hdone]
    exact ⟨hwait hfast, hwait hsmart, fun _ h => nomatch h⟩
  rw [if_neg hdone]
  by_cases hover : c.execute.quantumUsed ≥ (s.priorityLevel + 1) * 2
  · -- the slice is used up, which counts as one more reschedule
    rw [if_pos hover]
    refine ⟨hwait hfast, ?_, fun _ h => nomatch h⟩
    intro p hp
    rcases List.mem_append.mp hp with hp | hp
    · exact hwait hsmart p hp
    · rw [List.mem_singleton.mp hp]
      refine ⟨rfl, ?_⟩
      have hearned := hn.demote
      rw [← hcount, show n + (s.priorityLevel + 1) * 2 = c.execute.processedTime by omega]
        at hearned
      exact hearned
  · rw [if_neg hover]
    refine ⟨hwait hfast, hwait hsmart, ?_⟩
    rintro _ ⟨⟩
    have hbelow : c.execute.quantumUsed < (s.priorityLevel + 1) * 2 := Nat.lt_of_not_le hover
    have hsum : c.execute.processedTime = n + c.execute.quantumUsed := by omega
    exact ⟨hused ▸ Nat.succ_pos _, hbelow, n, hn, hsum⟩

/-- **One time step.** -/
theorem Entitled.getNextScheduledProcess (D : Type) [DoubleArith D] (hs : Entitled s)
    (hv : ValidJobs (s.nodes.map fun p => p.toJob)) :
    Entitled (getNextScheduledProcess D s).2 := by
  have hnode : ∀ c ∈ s.nodes, c.processedTime < c.processingTime ∧
      c.processingTime ≤ uintMax := by
    intro c hc
    have hjob := List.mem_map_of_mem (f := fun p : ScoredProcess => p.toJob) hc
    exact ⟨hv.lt _ hjob, (hv.lt_uintMax _ hjob).le⟩
  rcases dispatch_cases D s with ⟨c, hc, hd⟩ | ⟨p, rest, hc, hf, hd⟩ | ⟨b, hc, hf, hbest, hd⟩ |
    ⟨hc, -, -, hd⟩
  · -- the slice in progress goes on
    rw [getNextScheduledProcess_of_current (by rw [hd, hc]), hd]
    obtain ⟨hlt, hle⟩ := hnode c (by simp [State.nodes, hc])
    obtain ⟨-, hquantum, n, hn, hprogress⟩ := hs.current c hc
    exact .execute hs.fast hs.smart hlt hle hn hprogress hquantum
  · rw [getNextScheduledProcess_of_current (by rw [hd]), hd]
    obtain ⟨hlt, hle⟩ := hnode p (by simp [State.nodes, hf])
    obtain ⟨hzero, hearned⟩ := hs.fast p (hf ▸ List.mem_cons_self)
    refine .execute (s := { s with fastQueue := rest, current := some p, priorityLevel := 0 })
      ?_ hs.smart hlt hle hearned (by omega) (by omega)
    intro r hr
    exact hs.fast r (hf ▸ List.mem_cons_of_mem _ hr)
  · rw [getNextScheduledProcess_of_current (by rw [hd]), hd]
    obtain ⟨hlt, hle⟩ := hnode b (by simp [State.nodes, best_mem hbest])
    obtain ⟨hzero, hearned⟩ := hs.smart b (best_mem hbest)
    refine .execute (s := { s with
        smartQueue := s.smartQueue.eraseP fun p => p.pid = b.pid
        current := some b
        priorityLevel := 1 }) hs.fast ?_ hlt hle hearned (by omega) (by omega)
    intro r hr
    exact hs.smart r (List.mem_of_mem_eraseP hr)
  · have hnext : Scored.getNextScheduledProcess D s = (0, s) := by
      simp [Scored.getNextScheduledProcess, hd, hc]
    rw [hnext]
    exact hs

end Scored

namespace Custom

variable {D : Type}

/-- What a process of `custom.c` that waits at a level has received: nothing in
the fast queue, and in the smart queue what the reschedule count in its history
says. -/
def Earned (s : State D) (level pid n : Nat) : Prop :=
  level = 0 ∧ n = 0 ∨
    level = 1 ∧ ∃ history, getProcessHistory s.processHistories pid = some (some history) ∧
      1 ≤ history.rescheduleCount ∧ n = 4 * history.rescheduleCount - 2

/-- Every process is in the queue that its progress entitles it to. -/
structure Entitled (s : State D) : Prop where
  fast : ∀ p ∈ s.fastQueue, p.quantumUsed = 0 ∧ Earned s 0 p.pid p.processedTime
  smart : ∀ p ∈ s.smartQueue, p.quantumUsed = 0 ∧ Earned s 1 p.pid p.processedTime
  current : ∀ c, s.current = some c →
    0 < c.quantumUsed ∧ c.quantumUsed < (s.priorityLevel + 1) * 2 ∧
      ∃ n, Earned s s.priorityLevel c.pid n ∧ c.processedTime = n + c.quantumUsed

/-- A process waits in the queue that the two-queue scheduler has it in. -/
theorem Ok.earned {s : State D} (hok : Ok s) (hv : ValidJobs (s.nodes.map fun p => p.toJob))
    {p : CustomProcess} (hp : p ∈ s.nodes) {level n : Nat}
    (h : Scored.Earned level (attach s.histories p).rescheduleCount n) :
    Earned s level p.pid n := by
  obtain ⟨history, hfind, -, -⟩ := hok.find_history (pids_nodup_of_valid hv) hp rfl
  have hcount : (attach s.histories p).rescheduleCount = history.rescheduleCount := by
    rw [attach, counters_of_find? hfind]
  rw [hcount] at h
  refine h.imp (fun h => ⟨h.1, h.2.2⟩) fun h => ⟨h.1, history, ?_, h.2⟩
  rw [hok.processHistories hp]
  exact congrArg some hfind

theorem Ok.entitled {s : State D} (hok : Ok s) (hv : ValidJobs (s.nodes.map fun p => p.toJob))
    (h : Scored.Entitled s.scored) : Entitled s where
  fast p hp := by
    obtain ⟨hzero, hearned⟩ := h.fast _ (List.mem_map_of_mem hp)
    exact ⟨hzero, hok.earned hv (by simp [State.nodes, hp]) hearned⟩
  smart p hp := by
    obtain ⟨hzero, hearned⟩ := h.smart _ (List.mem_map_of_mem hp)
    exact ⟨hzero, hok.earned hv (by simp [State.nodes, hp]) hearned⟩
  current c hc := by
    obtain ⟨hpos, hlt, n, hearned, hsum⟩ :=
      h.current (attach s.histories c) (congrArg (Option.map (attach s.histories)) hc)
    exact ⟨hpos, hlt, n, hok.earned hv (by simp [State.nodes, hc]) hearned, hsum⟩

/-- Levels show progress in every run of `custom.c`. -/
theorem keeps_entitled (D : Type) [DoubleArith D] :
    (books D).Keeps fun s => Scored.Entitled (State.scored s) where
  init := ⟨(fun _ h => nomatch h), (fun _ h => nomatch h), (fun _ h => nomatch h)⟩
  add s p _ hv hs := by
    have hnew : ∀ q ∈ State.nodes s, q.pid ≠ p.pid := fun q hq heq =>
      (List.nodup_cons.mp hv.nodup).1 (List.mem_map.mpr ⟨q.toJob, List.mem_map_of_mem hq, heq⟩)
    show Scored.Entitled (State.scored (addToReadyQueue s p))
    rw [addToReadyQueue_scored hnew]
    exact hs.addToReadyQueue p
  next s pid s' hok hv hs hnext := by
    obtain ⟨s₁, hs₁, hscored, -⟩ := Ok.getNextScheduledProcess (s := s) hok hv
    cases hnext.symm.trans hs₁
    show Scored.Entitled (State.scored s')
    rw [hscored]
    exact hs.getNextScheduledProcess D (valid_scored hv)

end Custom

/-- The denominator of the remaining time factor of `calculate_new_score`, as
an `unsigned int`. -/
def Custom.scoreDenominator (p : CustomProcess) : Nat :=
  toUInt (usub p.processingTime p.processedTime + 1)

theorem Custom.two_le_scoreDenominator {p : CustomProcess}
    (hlt : p.processedTime < p.processingTime) (hle : p.processingTime < uintMax) :
    2 ≤ scoreDenominator p := by
  rw [scoreDenominator, usub_of_le hlt.le hle.le, toUInt_of_le (by omega)]
  omega

/-- **Levels show progress**, at every call boundary of a run of `constant.c`,
`exponential.c` and `custom.c`. -/
theorem progress_shows_level (D : Type) [DoubleArith D] (T : Table) (timeBound : UInt32) :
    (∀ s, CallState Constant.scheduler T timeBound s →
      Mlfq.Entitled Constant.sliceLength Constant.Earned s ∧
      (∀ p ∈ Mlfq.State.nodes s, p.processedTime < p.processingTime) ∧
      ∀ k k' n, Constant.Earned k n → Constant.Earned k' n → k = k') ∧
    (∀ s, CallState Exponential.scheduler T timeBound s →
      Mlfq.Entitled Exponential.sliceLength Exponential.Earned s ∧
      (∀ p ∈ Mlfq.State.nodes s, p.processedTime < p.processingTime) ∧
      ∀ k k' n, Exponential.Earned k n → Exponential.Earned k' n → k = k') ∧
    ∀ s, CallState (Custom.scheduler D) T timeBound s →
      Custom.Entitled (D := D) s ∧
      ∀ p ∈ Custom.State.nodes s, p.processedTime < p.processingTime ∧
        2 ≤ Custom.scoreDenominator p := by
  refine ⟨?_, ?_, ?_⟩
  · intro s hs
    obtain ⟨hentitled, hlt⟩ := Mlfq.Entitled.callState Constant.entitlement hs
    exact ⟨hentitled, hlt, Constant.entitlement.unique⟩
  · intro s hs
    obtain ⟨hentitled, hlt⟩ := Mlfq.Entitled.callState Exponential.entitlement hs
    exact ⟨hentitled, hlt, Exponential.entitlement.unique⟩
  · intro s hs
    obtain ⟨hscored, hok, hv⟩ := (Custom.keeps_entitled D).callState hs
    refine ⟨Custom.Ok.entitled hok hv hscored, ?_⟩
    intro p hp
    have hlt := hv.lt p.toJob (List.mem_map_of_mem hp)
    have hle := hv.lt_uintMax p.toJob (List.mem_map_of_mem hp)
    exact ⟨hlt, Custom.two_le_scoreDenominator hlt hle⟩

end Cosc240
