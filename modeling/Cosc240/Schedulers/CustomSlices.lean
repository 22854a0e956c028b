import Cosc240.Schedulers.CustomRefines
import Cosc240.Schedulers.Slices
import Mathlib.Data.List.MinMax
import Mathlib.Tactic.Ring

/-!
# `custom.c`, slice by slice

The scheduler that `custom.c` (custom.c:195–387) implements, in terms of whole slices and without
counters: the score of a process is a function of the time and of the time the
process has received. The counters of the two-queue scheduler are those closed
formulas at every tick boundary, so it schedules the same.

- `closedScore`: the score (custom.c:124–144) at time `t` of a process that has received `r` time
  steps, waited for `w` and been rescheduled `k` times, over the rationals.
- `reference`: the two queues as a `SliceMachine`. Arrivals go to the fast queue in pid order. Its
  head is dispatched, or else the first of the processes with the highest score in the smart queue.
  After the slice a process that is not complete goes to the back of the smart queue.
- `Queues.Good`: processes in the fast queue have not run. Those in the smart queue have had one
  fast slice, and some smart ones. This is what makes the formulas closed.
- `Follows`: the queues of the reference, and its slice in progress, with the counters.

Main results:

- `score_waiting` and `best_map`: the score that `custom.c` computes is the closed one, and what it
  takes from the smart queue is the first process of highest score.
- `getNextScheduledProcess_follows` and `arrivals_follows`: one call is one time step of the
  reference.
- `custom_refines`: the trace of every run is that of the reference.
-/

namespace Cosc240

open Lib SliceMachine

namespace Custom

/-! ## The reference -/

/-- The two queues. -/
inductive Queue where
  | fast
  | smart
  deriving DecidableEq, Repr

/-- Their slice lengths. -/
def sliceLength : Queue → Nat
  | .fast => 2
  | .smart => 4

/-- What is in the two queues. -/
structure Queues where
  fast : List Job
  smart : List Job

/-- The score at time `t` of a process that has received `r` time steps, waited
for `w` and been rescheduled `k` times. -/
def closedScore (t : Nat) (p : Job) : ℚ :=
  let P : ℚ := p.processingTime
  let r : ℚ := p.processedTime
  let w : ℚ := t - p.arrivalTime - r
  let k : ℚ := (r + 2) / 4
  (w + 1) / (r + 1) + 6 / 5 * (P + 1) / (P - r + 1) - 1 / 2 * (k + 1)

/-- Arrivals go to the fast queue. Its head is dispatched, or else the first of
the processes with the highest score in the smart queue. After the slice a
process that is not complete goes to the back of the smart queue. -/
def reference (T : Table) : SliceMachine Queues (Slice Queue) where
  arrive t q := { q with fast := q.fast ++ (T.arrivals t).map ProcessInitial.job }
  pick t q :=
    match q.fast with
    | p :: fast => some (⟨.fast, p⟩, { q with fast })
    | [] =>
      (q.smart.argmax (closedScore t)).map fun b =>
        (⟨.smart, b⟩, { q with smart := q.smart.eraseP fun p => p.pid = b.pid })
  length i := i.length sliceLength
  finish i q :=
    if (i.processAfter sliceLength).processedTime = i.process.processingTime then q
    else { q with smart := q.smart ++ [i.processAfter sliceLength] }
  label i := i.process.pid

/-- The trace of the reference for the first `n` time steps. -/
def referenceTrace (T : Table) (n : Nat) : List (Nat × Nat) :=
  ((reference T).reference ⟨[], []⟩ n).mapIdx fun t pid => (t, pid)

/-- Processes in the fast queue have not run. Those in the smart queue have had
one fast slice, and some smart ones. -/
structure Queues.Good (q : Queues) : Prop where
  fast : ∀ p ∈ q.fast, p.Unfinished ∧ p.processedTime = 0
  smart : ∀ p ∈ q.smart, p.Unfinished ∧ p.processedTime % 4 = 2

/-- The same for a slice. -/
structure GoodSlice (i : Slice Queue) : Prop where
  unfinished : i.process.Unfinished
  fast : i.level = .fast → i.process.processedTime = 0
  smart : i.level = .smart → i.process.processedTime % 4 = 2

theorem sliceLength_pos (k : Queue) : 0 < sliceLength k := by
  cases k <;> decide

/-- A process that leaves the processor has had its whole slice. -/
theorem GoodSlice.processAfter_mod {i : Slice Queue} (h : GoodSlice i)
    (hne : (i.processAfter sliceLength).processedTime ≠ i.process.processingTime) :
    (i.processAfter sliceLength).processedTime % 4 = 2 := by
  have hlt := h.unfinished.1
  have hne' : i.process.processedTime + i.length sliceLength ≠ i.process.processingTime := hne
  show (i.process.processedTime + i.length sliceLength) % 4 = 2
  rw [Slice.length] at hne' ⊢
  cases hl : i.level with
  | fast =>
    have hzero := h.fast hl
    rw [hl] at hne'
    simp only [sliceLength] at hne' ⊢
    omega
  | smart =>
    have htwo := h.smart hl
    rw [hl] at hne'
    simp only [sliceLength] at hne' ⊢
    omega

theorem reference_lawful (T : Table) : (reference T).Lawful Queues.Good GoodSlice where
  arrive t q hq := by
    refine ⟨fun p hp => ?_, hq.smart⟩
    rcases List.mem_append.mp hp with hp | hp
    · exact hq.fast p hp
    · obtain ⟨p', hp', rfl⟩ := List.mem_map.mp hp
      exact ⟨T.unfinished_job (Table.mem_arrivals.mp hp').1, rfl⟩
  pick t q i q' hq h := by
    simp only [reference] at h
    split at h
    next p fast hfast =>
      cases h
      obtain ⟨hp, hzero⟩ := hq.fast p (by simp [hfast])
      refine ⟨⟨hp, fun _ => hzero, (fun h => by cases h)⟩, fun p' hp' => ?_, hq.smart⟩
      exact hq.fast p' (by simp [hfast, hp'])
    next hfast =>
      obtain ⟨b, hb, hpair⟩ := Option.map_eq_some_iff.mp h
      cases hpair
      obtain ⟨hunf, hmod⟩ := hq.smart b (List.argmax_mem hb)
      refine ⟨⟨hunf, (fun h => by cases h), fun _ => hmod⟩, hq.fast, fun p hp => ?_⟩
      exact hq.smart p (List.mem_of_mem_eraseP hp)
  length_pos i hi := Slice.length_pos sliceLength_pos hi.unfinished
  finish i q hi hq := by
    simp only [reference]
    split
    · exact hq
    next hne =>
      refine ⟨hq.fast, fun p hp => ?_⟩
      rcases List.mem_append.mp hp with hp | hp
      · exact hq.smart p hp
      · rw [List.mem_singleton.mp hp]
        exact ⟨Slice.unfinished_processAfter hi.unfinished hne, hi.processAfter_mod hne⟩

/-! ## The counters are closed formulas -/

/-- A process in a queue at the tick boundary before `t`. -/
def waiting (t : Nat) (p : Job) : ScoredProcess :=
  { toQuantumProcess := { toJob := p, quantumUsed := 0 }
    waitTime := t - p.arrivalTime - p.processedTime
    rescheduleCount := (p.processedTime + 2) / 4 }

/-- The process of a slice that has had `j` time steps, at the same time. -/
def runningAt (t : Nat) (i : Slice Queue) (j : Nat) : ScoredProcess :=
  { toQuantumProcess := i.running j
    waitTime := t - i.process.arrivalTime - (i.process.processedTime + j)
    rescheduleCount := (i.process.processedTime + 2) / 4 }

theorem wait_waiting {t : Nat} {p : Job} (ht : t < uintMax)
    (hle : p.arrivalTime + p.processedTime ≤ t) : (waiting t p).wait = waiting (t + 1) p := by
  have hincr : incr (t - p.arrivalTime - p.processedTime) =
      t + 1 - p.arrivalTime - p.processedTime := by
    rw [incr_of_lt (show t - p.arrivalTime - p.processedTime < uintMax by omega) (Nat.le_refl _)]
    omega
  rw [ScoredProcess.wait]
  simp only [waiting, hincr]

theorem map_wait_waiting {t : Nat} {l : List Job} (ht : t < uintMax)
    (hle : ∀ p ∈ l, p.arrivalTime + p.processedTime ≤ t) :
    (l.map (waiting t)).map ScoredProcess.wait = l.map (waiting (t + 1)) := by
  rw [List.map_map]
  exact List.map_congr_left fun p hp => wait_waiting ht (hle p hp)

theorem execute_runningAt {t : Nat} {i : Slice Queue} {j : Nat} (hi : i.process.Unfinished)
    (hj : j < i.length sliceLength)
    (hle : i.process.arrivalTime + (i.process.processedTime + j) ≤ t) :
    (runningAt t i j).execute = runningAt (t + 1) i (j + 1) := by
  have hexec : (i.running j).execute = i.running (j + 1) := Slice.execute_running hi hj
  have hwait : t + 1 - i.process.arrivalTime - (i.process.processedTime + (j + 1)) =
      t - i.process.arrivalTime - (i.process.processedTime + j) := by omega
  rw [ScoredProcess.execute]
  simp only [runningAt, hexec, hwait]

/-- A process that goes to the smart queue has been rescheduled once more. -/
theorem demote_runningAt {t : Nat} {i : Slice Queue} {j : Nat} (hi : GoodSlice i)
    (hlast : j + 1 = i.length sliceLength)
    (hne : (i.processAfter sliceLength).processedTime ≠ i.process.processingTime) :
    (runningAt t i (j + 1)).demote = waiting t (i.processAfter sliceLength) := by
  have hproc : (i.processAfter sliceLength).processedTime = i.process.processedTime + (j + 1) := by
    rw [hlast]
    rfl
  have hcount : incr ((i.process.processedTime + 2) / 4) =
      ((i.processAfter sliceLength).processedTime + 2) / 4 := by
    obtain ⟨hlt, hmax⟩ := hi.unfinished
    have hmod := hi.processAfter_mod hne
    have hlen : i.length sliceLength ≤ sliceLength i.level := Nat.min_le_left _ _
    rw [incr_of_lt (show (i.process.processedTime + 2) / 4 < uintMax by omega) (Nat.le_refl _)]
    rw [hproc] at hmod ⊢
    cases hl : i.level with
    | fast =>
      have hzero := hi.fast hl
      rw [hl] at hlen
      simp only [sliceLength] at hlen
      omega
    | smart =>
      have htwo := hi.smart hl
      rw [hl] at hlen
      simp only [sliceLength] at hlen
      omega
  have hmoved := Slice.running_eq_processAfter hlast
  rw [ScoredProcess.demote]
  simp only [runningAt, waiting, hcount, hproc]
  rw [hmoved]
  rfl

/-- The score that `custom.c` computes from the counters. -/
theorem score_waiting {t : Nat} {p : Job} (ht : t < uintMax) (hp : p.Unfinished)
    (hmod : p.processedTime % 4 = 2) (hle : p.arrivalTime + p.processedTime ≤ t) :
    (waiting t p).score ℚ = closedScore t p := by
  obtain ⟨hlt, hmax⟩ := hp
  have hleft : usub p.processingTime p.processedTime = p.processingTime - p.processedTime :=
    usub_of_le hlt.le hmax.le
  obtain ⟨k, hk⟩ : ∃ k, p.processedTime + 2 = 4 * k := ⟨(p.processedTime + 2) / 4, by omega⟩
  have hcount : (p.processedTime + 2) / 4 = k := by omega
  obtain ⟨w, hw⟩ : ∃ w, t = p.arrivalTime + p.processedTime + w :=
    ⟨t - p.arrivalTime - p.processedTime, by omega⟩
  have hwait : t - p.arrivalTime - p.processedTime = w := by omega
  obtain ⟨l, hl⟩ : ∃ l, p.processingTime = p.processedTime + l :=
    ⟨p.processingTime - p.processedTime, by omega⟩
  have hrest : p.processingTime - p.processedTime = l := by omega
  show scoreOf (t - p.arrivalTime - p.processedTime) p.processedTime
    ((p.processedTime + 2) / 4) p.processingTime p.processedTime = _
  rw [scoreOf, hleft, hcount, hwait, hrest, toUInt_of_le (by omega), toUInt_of_le (by omega),
    toUInt_of_le (by omega), toUInt_of_le (by omega), toUInt_of_le (by omega)]
  have hkq : ((p.processedTime : ℚ) + 2) / 4 = k := by
    rw [div_eq_iff (by norm_num)]
    exact_mod_cast hk.trans (Nat.mul_comm 4 k)
  have hwq : (t : ℚ) - p.arrivalTime - p.processedTime = w := by
    rw [hw]
    push_cast
    ring
  have hlq : (p.processingTime : ℚ) - p.processedTime = l := by
    rw [hl]
    push_cast
    ring
  rw [closedScore]
  simp only [hkq, hwq, hlq]
  show ((w + 1 : ℕ) : ℚ) / ((p.processedTime + 1 : ℕ) : ℚ) +
      ((p.processingTime + 1 : ℕ) : ℚ) / ((l + 1 : ℕ) : ℚ) * (6 / 5) -
      ((k + 1 : ℕ) : ℚ) * (1 / 2) = _
  push_cast
  ring

/-! ## The best process -/

/-- The scan is the fold of `argmax`. -/
theorem scan_map {f : Job → ℚ} {g : Job → ScoredProcess} (l : List Job) (b : Job)
    (h : ∀ p ∈ l, (g p).score ℚ = f p) :
    Scored.scan ℚ (l.map g) (some (g b)) (f b) =
      (l.foldl (List.argAux fun b c => f c < f b) (some b)).map g := by
  induction l generalizing b with
  | nil => rfl
  | cons p l ih =>
    have hp := h p (by simp)
    have hl : ∀ p ∈ l, (g p).score ℚ = f p := fun q hq => h q (List.mem_cons_of_mem _ hq)
    rw [List.map_cons, Scored.scan, List.foldl_cons, hp]
    show (if decide (f b < f p) = true then _ else _) = _
    by_cases hlt : f b < f p
    · rw [if_pos (decide_eq_true hlt), ih p hl]
      simp [List.argAux, hlt]
    · rw [if_neg (by simpa using hlt), ih b hl]
      simp [List.argAux, hlt]

/-- What `custom.c` takes from the smart queue is the first process of highest
score. -/
theorem best_map {f : Job → ℚ} {g : Job → ScoredProcess} {l : List Job}
    (hjob : ∀ p, (g p).toJob = p) (hl : ∀ p ∈ l, p.Unfinished)
    (h : ∀ p ∈ l, (g p).score ℚ = f p) : Scored.best ℚ (l.map g) = (l.argmax f).map g := by
  cases l with
  | nil => rfl
  | cons p l =>
    obtain ⟨hlt, hmax⟩ := hl p (by simp)
    rw [← hjob p] at hlt hmax
    have hgt := ScoredProcess.gt_negDblMax ℚ hlt hmax
    rw [List.map_cons, Scored.best, Scored.scan, if_pos hgt, h p (by simp)]
    exact scan_map l p fun q hq => h q (List.mem_cons_of_mem _ hq)

/-! ## One time step -/

/-- The queues of the reference, and its slice in progress, with the counters. -/
structure Follows (t : Nat) (s : Scored.State) (r : Running Queues (Slice Queue)) : Prop where
  fast : s.fastQueue = r.queues.fast.map (waiting t)
  smart : s.smartQueue = r.queues.smart.map (waiting t)
  current : s.current = r.current.map fun ij => runningAt t ij.1 ij.2
  level : ∀ i j, r.current = some (i, j) → (s.priorityLevel + 1) * 2 = sliceLength i.level
  /-- Nobody has received more time than has passed since the arrival. -/
  queued_le : ∀ p ∈ r.queues.fast ++ r.queues.smart, p.arrivalTime + p.processedTime ≤ t
  current_le : ∀ i j, r.current = some (i, j) →
    i.process.arrivalTime + (i.process.processedTime + j) ≤ t

section Step

variable {T : Table} {t : Nat} {s : Scored.State}

/-- **One unit of time for a slice.** -/
theorem execute_follows (ht : t < uintMax) {q : Queues} {i : Slice Queue} {j : Nat}
    (hfast : s.fastQueue = q.fast.map (waiting t))
    (hsmart : s.smartQueue = q.smart.map (waiting t))
    (hlevel : (s.priorityLevel + 1) * 2 = sliceLength i.level)
    (hqueued : ∀ p ∈ q.fast ++ q.smart, p.arrivalTime + p.processedTime ≤ t)
    (hi : GoodSlice i) (hj : j < i.length sliceLength)
    (hcurrent : i.process.arrivalTime + (i.process.processedTime + j) ≤ t) :
    (Scored.execute s (runningAt t i j)).1 = i.process.pid ∧
      Follows (t + 1) (Scored.execute s (runningAt t i j)).2 ((reference T).advance i j q) := by
  have hfast' : s.fastQueue.map ScoredProcess.wait = q.fast.map (waiting (t + 1)) := by
    rw [hfast]
    exact map_wait_waiting ht fun p hp => hqueued p (List.mem_append_left _ hp)
  have hsmart' : s.smartQueue.map ScoredProcess.wait = q.smart.map (waiting (t + 1)) := by
    rw [hsmart]
    exact map_wait_waiting ht fun p hp => hqueued p (List.mem_append_right _ hp)
  have hqueued' : ∀ p ∈ q.fast ++ q.smart, p.arrivalTime + p.processedTime ≤ t + 1 :=
    fun p hp => Nat.le_succ_of_le (hqueued p hp)
  have hexec := execute_runningAt hi.unfinished hj hcurrent
  rw [Scored.execute, hexec, Scored.retire]
  cases Slice.ends hi.unfinished hj with
  | complete hdone hlast hafter =>
    rw [if_pos (show (runningAt (t + 1) i (j + 1)).processedTime =
        (runningAt (t + 1) i (j + 1)).processingTime from hdone), advance,
      if_pos (show j + 1 = (reference T).length i from hlast)]
    simp only [reference, if_pos hafter]
    exact ⟨rfl, hfast', hsmart', rfl, (fun _ _ h => by cases h), hqueued',
      fun _ _ h => by cases h⟩
  | usedUp hdone hlast hafter hquantum =>
    have hquantum' : (runningAt (t + 1) i (j + 1)).quantumUsed ≥
        ((Scored.runCurrent s (runningAt t i j)).priorityLevel + 1) * 2 :=
      hlevel.le.trans hquantum.ge
    rw [if_neg (show ¬ (runningAt (t + 1) i (j + 1)).processedTime =
        (runningAt (t + 1) i (j + 1)).processingTime from hdone), if_pos hquantum', advance,
      if_pos (show j + 1 = (reference T).length i from hlast)]
    simp only [reference, if_neg hafter]
    refine ⟨rfl, hfast', ?_, rfl, (fun _ _ h => by cases h), fun p hp => ?_,
      fun _ _ h => by cases h⟩
    · show s.smartQueue.map ScoredProcess.wait ++ _ = _
      rw [hsmart', List.map_append, List.map_singleton, demote_runningAt hi hlast hafter]
    · rw [← List.append_assoc] at hp
      rcases List.mem_append.mp hp with hp | hp
      · exact hqueued' p hp
      · rw [List.mem_singleton.mp hp]
        show i.process.arrivalTime + (i.process.processedTime + i.length sliceLength) ≤ t + 1
        omega
  | goesOn hdone hlast hquantum =>
    have hquantum' : ¬ (runningAt (t + 1) i (j + 1)).quantumUsed ≥
        ((Scored.runCurrent s (runningAt t i j)).priorityLevel + 1) * 2 :=
      (hquantum.trans_eq hlevel.symm).not_ge
    rw [if_neg (show ¬ (runningAt (t + 1) i (j + 1)).processedTime =
        (runningAt (t + 1) i (j + 1)).processingTime from hdone), if_neg hquantum', advance,
      if_neg (show j + 1 ≠ (reference T).length i from hlast)]
    refine ⟨rfl, hfast', hsmart', congrArg some hexec, fun i' j' h => ?_, hqueued',
      fun i' j' h => ?_⟩
    · cases h
      exact hlevel
    · cases h
      omega

theorem runningAt_zero (t : Nat) (l : Queue) (p : Job) : runningAt t ⟨l, p⟩ 0 = waiting t p := rfl

/-- The process that `custom.c` finds best is the one with the highest closed
score. -/
theorem best_follows (ht : t < uintMax) {q : Queues} {current : Option (Slice Queue × Nat)}
    (hgood : q.Good) (hs : Follows t s ⟨q, current⟩) :
    Scored.best ℚ s.smartQueue = (q.smart.argmax (closedScore t)).map (waiting t) := by
  rw [hs.smart]
  refine best_map (fun _ => rfl) (fun p hp => (hgood.smart p hp).1) fun p hp => ?_
  exact score_waiting ht (hgood.smart p hp).1 (hgood.smart p hp).2
    (hs.queued_le p (List.mem_append_right _ hp))

/-- No slice in progress: the head of the fast queue is dispatched. -/
theorem fast_follows (ht : t < uintMax) {q : Queues} {p : Job} {fast : List Job}
    (hgood : q.Good) (hfast : q.fast = p :: fast) (hs : Follows t s ⟨q, none⟩) :
    (Scored.getNextScheduledProcess ℚ s).1 = p.pid ∧
      Follows (t + 1) (Scored.getNextScheduledProcess ℚ s).2
        ((reference T).advance ⟨.fast, p⟩ 0 { q with fast }) := by
  obtain ⟨hp, hzero⟩ := hgood.fast p (by simp [hfast])
  have hi : GoodSlice ⟨.fast, p⟩ := ⟨hp, fun _ => hzero, fun h => by cases h⟩
  have hdisp : Scored.dispatch ℚ s =
      { s with
        fastQueue := fast.map (waiting t)
        current := some (waiting t p)
        priorityLevel := 0 } := by
    simp [Scored.dispatch, hs.current, hs.fast, hfast]
  rw [Scored.getNextScheduledProcess_of_current (by rw [hdisp]), hdisp, ← runningAt_zero t .fast p]
  refine execute_follows ht rfl hs.smart rfl (fun p' hp' => hs.queued_le p' ?_) hi
    (Slice.length_pos sliceLength_pos hp) (hs.queued_le p (by simp [hfast]))
  rcases List.mem_append.mp hp' with hp' | hp'
  · exact List.mem_append_left _ (by simp only [hfast]; exact List.mem_cons_of_mem _ hp')
  · exact List.mem_append_right _ hp'

/-- No slice in progress and the fast queue empty: the best process of the smart
queue is dispatched. -/
theorem smart_follows (ht : t < uintMax) {q : Queues} {b : Job} (hgood : q.Good)
    (hfast : q.fast = []) (hmax : q.smart.argmax (closedScore t) = some b)
    (hs : Follows t s ⟨q, none⟩) :
    (Scored.getNextScheduledProcess ℚ s).1 = b.pid ∧
      Follows (t + 1) (Scored.getNextScheduledProcess ℚ s).2
        ((reference T).advance ⟨.smart, b⟩ 0
          { q with smart := q.smart.eraseP fun p => p.pid = b.pid }) := by
  have hbest := best_follows ht hgood hs
  have hb : b ∈ q.smart := List.argmax_mem hmax
  obtain ⟨hunf, hmod⟩ := hgood.smart b hb
  have hi : GoodSlice ⟨.smart, b⟩ := ⟨hunf, (fun h => by cases h), fun _ => hmod⟩
  rw [hmax, Option.map_some] at hbest
  have herase : s.smartQueue.eraseP (fun p => p.pid = (waiting t b).pid) =
      (q.smart.eraseP fun p => p.pid = b.pid).map (waiting t) := by
    rw [hs.smart, List.eraseP_map]
    rfl
  have hdisp : Scored.dispatch ℚ s =
      { s with
        smartQueue := (q.smart.eraseP fun p => p.pid = b.pid).map (waiting t)
        current := some (waiting t b)
        priorityLevel := 1 } := by
    rw [← herase]
    simp [Scored.dispatch, hs.current, hs.fast, hfast, hbest]
  rw [Scored.getNextScheduledProcess_of_current (by rw [hdisp]), hdisp, ← runningAt_zero t .smart b]
  refine execute_follows ht hs.fast rfl rfl (fun p hp => hs.queued_le p ?_) hi
    (Slice.length_pos sliceLength_pos hunf) (hs.queued_le b (List.mem_append_right _ hb))
  rcases List.mem_append.mp hp with hp | hp
  · exact List.mem_append_left _ hp
  · exact List.mem_append_right _ (List.mem_of_mem_eraseP hp)

/-- No slice in progress and both queues empty: nothing happens. -/
theorem empty_follows (ht : t < uintMax) {q : Queues} (hgood : q.Good) (hfast : q.fast = [])
    (hmax : q.smart.argmax (closedScore t) = none) (hs : Follows t s ⟨q, none⟩) :
    (Scored.getNextScheduledProcess ℚ s).1 = 0 ∧
      Follows (t + 1) (Scored.getNextScheduledProcess ℚ s).2 ⟨q, none⟩ := by
  have hbest := best_follows ht hgood hs
  rw [hmax, Option.map_none] at hbest
  have hdisp : Scored.dispatch ℚ s = s := by
    simp [Scored.dispatch, hs.current, hs.fast, hfast, hbest]
  have hnext : Scored.getNextScheduledProcess ℚ s = (0, s) := by
    simp [Scored.getNextScheduledProcess, hdisp, hs.current]
  have hsmart : q.smart = [] := List.argmax_eq_none.mp hmax
  rw [hnext]
  refine ⟨rfl, ?_, ?_, hs.current, (fun _ _ h => by cases h), fun p hp => ?_,
    fun _ _ h => by cases h⟩
  · simp only [hs.fast, hfast, List.map_nil]
  · simp only [hs.smart, hsmart, List.map_nil]
  · simp [hfast, hsmart] at hp

/-- With the arrivals in the queues, one call is one time step of the
reference. -/
theorem getNextScheduledProcess_follows (ht : t < uintMax) {r : Running Queues (Slice Queue)}
    (hr : r.Ok (reference T) Queues.Good GoodSlice)
    (hs : Follows t s ⟨(reference T).arrive t r.queues, r.current⟩) :
    (Scored.getNextScheduledProcess ℚ s).1 = ((reference T).tick t r).1 ∧
      Follows (t + 1) (Scored.getNextScheduledProcess ℚ s).2 ((reference T).tick t r).2 := by
  have hgood := (reference_lawful T).arrive t _ hr.queues
  rw [tick]
  generalize hq : (reference T).arrive t r.queues = q at hs hgood
  cases hc : r.current with
  | some ij =>
    -- a slice is in progress, and goes on
    obtain ⟨i, j⟩ := ij
    obtain ⟨hi, -, hj⟩ := hr.current i j hc
    have hcur : s.current = some (runningAt t i j) := by rw [hs.current, hc]; rfl
    have hdisp : Scored.dispatch ℚ s = s := by simp [Scored.dispatch, hcur]
    rw [Scored.getNextScheduledProcess_of_current (by rw [hdisp, hcur]), hdisp]
    exact execute_follows ht hs.fast hs.smart (hs.level i j hc) hs.queued_le hi hj
      (hs.current_le i j hc)
  | none =>
    rw [hc] at hs
    cases hfast : q.fast with
    | cons p fast =>
      have hpick : (reference T).pick t q = some (⟨.fast, p⟩, { q with fast }) := by
        simp only [reference, hfast]
      rw [hpick]
      exact fast_follows ht hgood hfast hs
    | nil =>
      cases hmax : q.smart.argmax (closedScore t) with
      | none =>
        have hpick : (reference T).pick t q = none := by
          simp only [reference, hfast, hmax, Option.map_none]
        rw [hpick]
        exact empty_follows ht hgood hfast hmax hs
      | some b =>
        have hpick : (reference T).pick t q = some (⟨.smart, b⟩,
            { q with smart := q.smart.eraseP fun p => p.pid = b.pid }) := by
          simp only [reference, hfast, hmax, Option.map_some]
        rw [hpick]
        exact smart_follows ht hgood hfast hmax hs

/-! ## Arrivals -/

theorem foldl_addToReadyQueue (ps : List ProcessInitial) (s : Scored.State) :
    ps.foldl Scored.addToReadyQueue s =
      { s with
        fastQueue := ps.foldl (fun l p => skipInsert (fun p => p.arrivalTime) (fun p => p.pid)
          (ScoredProcess.ofInitial p) l) s.fastQueue } := by
  induction ps generalizing s with
  | nil => rfl
  | cons p ps ih =>
    rw [List.foldl_cons, ih, List.foldl_cons]
    rfl

/-- The arrivals of a time step end up at the back of the fast queue in pid
order. -/
theorem foldl_arrivals {processes : List ProcessStats}
    (hi : processes.map ProcessStats.initial = T.processes)
    (hold : ∀ p ∈ s.fastQueue, p.arrivalTime < t) :
    (arrivalsAt processes t).foldl Scored.addToReadyQueue s =
      { s with fastQueue := s.fastQueue ++ (T.arrivals t).map ScoredProcess.ofInitial } := by
  rw [foldl_addToReadyQueue, foldl_skipInsert_arrivals (fun p : ScoredProcess => p.arrivalTime)
    (fun p => p.pid) ScoredProcess.ofInitial hi (fun _ => rfl) (fun _ => rfl) hold]

/-- The reference does the same with its fast queue. -/
theorem arrivals_follows {processes : List ProcessStats}
    (hi : processes.map ProcessStats.initial = T.processes)
    (hold : ∀ p ∈ s.fastQueue, p.arrivalTime < t) {r : Running Queues (Slice Queue)}
    (hs : Follows t s r) :
    Follows t ((arrivalsAt processes t).foldl Scored.addToReadyQueue s)
      ⟨(reference T).arrive t r.queues, r.current⟩ := by
  have harr : ∀ p ∈ (T.arrivals t).map ProcessInitial.job,
      p.arrivalTime = t ∧ p.processedTime = 0 := by
    intro p hp
    obtain ⟨p', hp', rfl⟩ := List.mem_map.mp hp
    exact ⟨(Table.mem_arrivals.mp hp').2, rfl⟩
  have hnew : (T.arrivals t).map ScoredProcess.ofInitial =
      ((T.arrivals t).map ProcessInitial.job).map (waiting t) := by
    rw [List.map_map]
    refine List.map_congr_left fun p hp => ?_
    have hzero : t - p.arrivalTime - 0 = 0 := by
      rw [(Table.mem_arrivals.mp hp).2]
      omega
    simp [ScoredProcess.ofInitial, newQuantumProcess, waiting, ProcessInitial.job, hzero]
  rw [foldl_arrivals hi hold]
  refine ⟨?_, hs.smart, hs.current, hs.level, fun p hp => ?_, hs.current_le⟩
  · show s.fastQueue ++ _ = (r.queues.fast ++ _).map (waiting t)
    rw [hs.fast, List.map_append, hnew]
  · rcases List.mem_append.mp hp with hp | hp
    · rcases List.mem_append.mp hp with hp | hp
      · exact hs.queued_le p (List.mem_append_left _ hp)
      · obtain ⟨harrival, hzero⟩ := harr p hp
        omega
    · exact hs.queued_le p (List.mem_append_right _ hp)

end Step

/-! ## Runs -/

theorem mem_nodes_of_fastQueue {D : Type} {s : State D} {p : ScoredProcess}
    (hp : p ∈ s.scored.fastQueue) : p.toJob ∈ s.nodes.map fun p => p.toJob := by
  rw [← scored_nodes_toJob]
  exact List.mem_map_of_mem (List.mem_append_right _ (List.mem_append_left _ hp))

/-- What the arrivals of a time step do to the two queues of `custom.c`. -/
theorem scored_addArrivals {D : Type} [DoubleArith D] {T : Table} {t : Nat}
    {s : Sim (scheduler D)} (h : Agree (books D) T t s) :
    State.scored (addArrivals (scheduler D) s.processes t s.sched) =
      { State.scored s.sched with
        fastQueue := (State.scored s.sched).fastQueue ++
          (T.arrivals t).map ScoredProcess.ofInitial } := by
  obtain ⟨σ, -, hσ, -⟩ := h.schedule
  have hview := (oblivious D).view_foldl _ _ h.ok ((books D).valid_arrivals h)
  rw [addArrivals_eq_foldl]
  exact hview.trans (foldl_arrivals hσ.initial fun p hp =>
    h.arrivalTime_lt (mem_nodes_of_fastQueue hp))

theorem follows_init : Follows 0 (init (D := ℚ)).scored ⟨⟨[], []⟩, none⟩ :=
  ⟨rfl, rfl, rfl, (fun _ _ h => by cases h), (fun _ h => by cases h), fun _ _ h => by cases h⟩

/-- **The trace of `custom.c` is that of the reference**, and its processes and
their counters are those of the reference. -/
theorem trace_eq_reference {T : Table} {timeBound : UInt32} {t : Nat} {s : Sim (scheduler ℚ)}
    (h : Reached (scheduler ℚ) T.start timeBound t s) :
    s.trace = referenceTrace T t ∧
      Follows t (State.scored s.sched) ((reference T).after t 0 ⟨⟨[], []⟩, none⟩) := by
  have hgood : Queues.Good ⟨[], []⟩ := ⟨(fun _ h => by cases h), fun _ h => by cases h⟩
  refine (books ℚ).trace_eq_reference (reference_lawful T) hgood
    (fun t s r => Follows t (State.scored s) r) follows_init
    (fun t s r hbound hagree hs hr => ?_) h
  have ht : t < uintMax := Nat.lt_of_lt_of_le hbound
    (Nat.le_of_lt_succ (UInt32.toNat_lt timeBound))
  obtain ⟨σ, -, hσ, -⟩ := hagree.schedule
  have hold : ∀ p ∈ (State.scored s.sched).fastQueue, p.arrivalTime < t := fun p hp =>
    hagree.arrivalTime_lt (mem_nodes_of_fastQueue hp)
  have hfollows := arrivals_follows hσ.initial hold hs
  rw [foldl_arrivals hσ.initial hold, ← scored_addArrivals hagree] at hfollows
  obtain ⟨hpid, hfollows'⟩ := getNextScheduledProcess_follows ht hr hfollows
  obtain ⟨s', hnext, hscored, -⟩ := Ok.getNextScheduledProcess ((books ℚ).agree_arrivals hagree).1
    ((books ℚ).valid_addArrivals hagree)
  refine ⟨s', ?_, ?_⟩
  · rw [← hpid]
    exact hnext
  · rw [hscored]
    exact hfollows'

end Custom

/-- **`custom.c` refines its slice-level description**, with the score as a
closed formula over the rationals. -/
theorem custom_refines (T : Table) (timeBound : UInt32) :
    ∀ t s, Reached (Custom.scheduler ℚ) T.start timeBound t s →
      s.trace = Custom.referenceTrace T t :=
  fun _ _ h => (Custom.trace_eq_reference h).1

/-- On the crowded table process 2 is chosen over process 1, ahead of it in the
smart queue, in time step 6, and process 4 goes to the fast queue while the
others wait. -/
theorem custom_refines_crowded :
    ∃ s, Reached (Custom.scheduler ℚ) crowdedTable.start 30 18 s ∧
      s.trace.map Prod.snd = [1, 1, 2, 2, 3, 3, 2, 2, 1, 1, 1, 1, 4, 4, 3, 3, 3, 3] ∧
      s.trace = Custom.referenceTrace crowdedTable 18 := by
  obtain ⟨s, h, htest⟩ := exists_reached (Custom.scheduler ℚ) crowdedTable.start 30 18
    (p := fun s => s.trace.map Prod.snd =
      [1, 1, 2, 2, 3, 3, 2, 2, 1, 1, 1, 1, 4, 4, 3, 3, 3, 3]) (by decide +kernel)
  exact ⟨s, h, of_decide_eq_true htest, custom_refines crowdedTable 30 18 s h⟩

end Cosc240
