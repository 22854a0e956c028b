import Cosc240.Schedulers.Rr
import Cosc240.Simulator.Calls
import Cosc240.Simulator.Slices

/-!
# The quantum of `rr.c`

`rr.c` moves a process to the back of `process_list` when its `quantum_used` is
equal to `QUANTUM` (rr.c:147). It never resets the counter, so that this happens once for
each process: from its second turn on, the head of the list runs to completion,
however many others wait. The comment in front of the function speaks of a modulo operation
(rr.c:108–109), which would not have this effect.

- `processList` and `queue`: the list at a tick boundary, and the list with the arrivals in it.
- `QuantumLaw`: nobody is returned by four consecutive calls while others are in the list.
- `SecondTurn`: before a call the head of the list has used up a quantum already, others wait behind
  it, it needs four more units of time, and the time bound leaves them.
- `NeverReset`: the invariant. `quantum_used` is `processed_time` (`keeps_neverReset`).

Main results:

- `holds_four_iff`: four calls in a row go to one process, with others in the list, exactly if it is
  on its second turn and needs that long.
- `quantumLaw_iff`: the law fails on second turns, and only there.
- `not_quantumLaw_twoTurns`: it fails for two processes that arrive together and need 7 and 4 units.
-/

namespace Cosc240

open Lib

namespace Rr

variable {T : Table} {timeBound : UInt32} {t : Nat} {s : Sim scheduler}

/-! ## The statement -/

/-- `process_list` at a tick boundary. -/
def processList (s : Sim scheduler) : List RrProcess := s.sched

/-- `process_list` when `get_next_scheduled_process` is called in time step `t`. -/
def queue (s : Sim scheduler) (t : Nat) : List RrProcess :=
  addArrivals scheduler s.processes t s.sched

/-- In time step `t` of the run `pid` is returned while some other process is in
`process_list`. -/
def Holds (T : Table) (timeBound : UInt32) (t pid : Nat) : Prop :=
  ∃ s, Enters scheduler T timeBound t s ∧ (getNextScheduledProcess (queue s t)).1 = pid ∧
    ∃ q ∈ queue s t, q.pid ≠ pid

/-- The quantum law: nobody is returned by four consecutive calls while others
are in the list. -/
def QuantumLaw (T : Table) (timeBound : UInt32) : Prop :=
  ∀ t pid, ¬ ∀ i < 4, Holds T timeBound (t + i) pid

/-- Before the call of time step `t` the head of the list has used up a quantum
already, others wait behind it, it needs four more units of time, and the time
bound leaves them. -/
def SecondTurn (T : Table) (timeBound : UInt32) (t : Nat) : Prop :=
  ∃ s p rest, Enters scheduler T timeBound t s ∧ queue s t = p :: rest ∧ rest ≠ [] ∧
    quantum ≤ p.quantumUsed ∧ p.processedTime + 4 ≤ p.processingTime ∧ t + 3 < timeBound.toNat

/-! ## One call -/

/-- The counter is never reset: it is the time received. -/
def NeverReset (processList : List RrProcess) : Prop :=
  ∀ p ∈ processList, p.quantumUsed = p.processedTime

/-- The head completes, uses up its first quantum, or stays. -/
theorem next_cases {p : RrProcess} (rest : List RrProcess)
    (hlt : p.processedTime < p.processingTime) (hle : p.processingTime ≤ uintMax)
    (heq : p.quantumUsed = p.processedTime) :
    (p.processedTime + 1 = p.processingTime ∧
      getNextScheduledProcess (p :: rest) = (p.pid, rest)) ∨
    (p.processedTime + 1 < p.processingTime ∧ p.quantumUsed + 1 = quantum ∧
      getNextScheduledProcess (p :: rest) = (p.pid, rest ++ [p.execute])) ∨
    (p.processedTime + 1 < p.processingTime ∧ p.quantumUsed + 1 ≠ quantum ∧
      getNextScheduledProcess (p :: rest) = (p.pid, p.execute :: rest)) := by
  have hprocessed : p.execute.processedTime = p.processedTime + 1 := incr_of_lt hlt hle
  have hused : p.execute.quantumUsed = p.quantumUsed + 1 := incr_of_lt (heq ▸ hlt) hle
  unfold getNextScheduledProcess
  dsimp only
  rw [hprocessed, hused, QuantumProcess.execute_processingTime]
  by_cases hdone : p.processedTime + 1 = p.processingTime
  · exact Or.inl ⟨hdone, if_pos hdone⟩
  · have hlt' : p.processedTime + 1 < p.processingTime := Nat.lt_of_le_of_ne hlt hdone
    rw [if_neg hdone]
    by_cases hquantum : p.quantumUsed + 1 = quantum
    · exact Or.inr (Or.inl ⟨hlt', hquantum, if_pos hquantum⟩)
    · exact Or.inr (Or.inr ⟨hlt', hquantum, if_neg hquantum⟩)

theorem keeps_neverReset : books.Keeps NeverReset where
  init := fun _ h => nomatch h
  add processList process _ _ h := by
    intro p hp
    rcases mem_skipInsert.mp hp with rfl | hp
    · rfl
    · exact h p hp
  next processList pid processList' _ hv h hnext := by
    cases processList with
    | nil =>
      cases hnext
      exact h
    | cons p rest =>
      have hp := h p List.mem_cons_self
      have hlt := hv.lt p.toJob List.mem_cons_self
      have hle := (hv.lt_uintMax p.toJob List.mem_cons_self).le
      -- both counters go up together, and nothing sets either back
      have hexecute : p.execute.quantumUsed = p.execute.processedTime := congrArg incr hp
      have hrest : NeverReset rest := fun q hq => h q (List.mem_cons_of_mem _ hq)
      have hlist : (getNextScheduledProcess (p :: rest)).2 = processList' :=
        congrArg Prod.snd (Option.some.inj hnext)
      rw [← hlist]
      rcases next_cases rest hlt hle hp with ⟨-, hcall⟩ | ⟨-, -, hcall⟩ | ⟨-, -, hcall⟩
      · rw [hcall]
        exact hrest
      · rw [hcall]
        intro q hq
        rcases List.mem_append.mp hq with hq | hq
        · exact hrest q hq
        · rw [List.mem_singleton.mp hq]
          exact hexecute
      · rw [hcall]
        intro q hq
        rcases List.mem_cons.mp hq with rfl | hq
        · exact hexecute
        · exact hrest q hq

/-! ## One time step -/

/-- What is known of the list at the call. -/
theorem queue_ok (h : Enters scheduler T timeBound t s) :
    NeverReset (queue s t) ∧ ValidJobs ((queue s t).map QuantumProcess.toJob) := by
  obtain ⟨hreset, -, hv⟩ := keeps_neverReset.callState (.arrived h)
  exact ⟨hreset, hv⟩

/-- What is in the list at a tick boundary is older than the arrivals that follow. -/
theorem arrivalTime_lt (h : Reached scheduler T.start timeBound t s) :
    ∀ p ∈ processList s, p.arrivalTime < t := fun p hp =>
  (books.agree_reached h).arrivalTime_lt (j := p.toJob)
    (List.mem_map_of_mem (f := QuantumProcess.toJob) hp)

/-- The arrivals go behind everything else. -/
theorem queue_eq (h : Reached scheduler T.start timeBound t s) :
    queue s t = processList s ++ (T.arrivals t).map newQuantumProcess := by
  rw [queue, addArrivals_eq_foldl]
  exact foldl_skipInsert_arrivals _ _ newQuantumProcess h.initial (fun _ => rfl) (fun _ => rfl)
    (arrivalTime_lt h)

/-- The call of the next time step finds what this one leaves, and the arrivals
behind it. -/
theorem queue_succ (h : Enters scheduler T timeBound t s) :
    ∃ s', Reached scheduler T.start timeBound (t + 1) s' ∧
      s'.sched = (getNextScheduledProcess (queue s t)).2 ∧
      queue s' (t + 1) = (getNextScheduledProcess (queue s t)).2 ++
        (T.arrivals (t + 1)).map newQuantumProcess := by
  obtain ⟨pid, sched, hnext, -, htick, -⟩ :=
    books.tick_agree (books.agree_reached h.reached) h.running
  have hsched : (getNextScheduledProcess (queue s t)).2 = sched :=
    congrArg Prod.snd (Option.some.inj hnext)
  have hreached := Reached.tick h.reached h.bound h.running htick
  refine ⟨_, hreached, hsched.symm, ?_⟩
  rw [hsched]
  exact queue_eq hreached

/-- A head that may go on is at the head of the next call. -/
theorem enters_succ (h : Enters scheduler T timeBound t s) (hbound : t + 1 < timeBound.toNat)
    {p : RrProcess} {rest : List RrProcess}
    (hcall : getNextScheduledProcess (queue s t) = (p.pid, p :: rest)) :
    ∃ s', Enters scheduler T timeBound (t + 1) s' ∧
      queue s' (t + 1) = p :: (rest ++ (T.arrivals (t + 1)).map newQuantumProcess) := by
  obtain ⟨s', hreached, hsched, hqueue⟩ := queue_succ h
  rw [hcall] at hsched hqueue
  refine ⟨s', ⟨hreached, hbound, ?_⟩, hqueue⟩
  refine (books.agree_reached hreached).stillRunning_of_mem (j := p.toJob) ?_
  exact List.mem_map_of_mem (f := QuantumProcess.toJob) (hsched ▸ List.mem_cons_self)

/-- What is known of the head of the list. -/
theorem head_ok (h : Enters scheduler T timeBound t s) {p : RrProcess} {rest : List RrProcess}
    (hqueue : queue s t = p :: rest) :
    p.processedTime < p.processingTime ∧ p.processingTime ≤ uintMax ∧
      p.quantumUsed = p.processedTime ∧ ∀ q ∈ rest, q.pid ≠ p.pid := by
  obtain ⟨hreset, hv⟩ := queue_ok h
  rw [hqueue] at hreset hv
  have hnodup := hv.nodup
  rw [List.map_map, List.map_cons, List.nodup_cons] at hnodup
  refine ⟨hv.lt p.toJob List.mem_cons_self, (hv.lt_uintMax p.toJob List.mem_cons_self).le,
    hreset p List.mem_cons_self, ?_⟩
  intro q hq heq
  exact hnodup.1 (List.mem_map.mpr ⟨q, hq, heq⟩)

/-! ## When the law fails -/

theorem getNextScheduledProcess_fst (p : RrProcess) (rest : List RrProcess) :
    (getNextScheduledProcess (p :: rest)).1 = p.pid := by
  unfold getNextScheduledProcess
  dsimp only
  split
  · rfl
  · split <;> rfl

theorem holds_iff {pid : Nat} : Holds T timeBound t pid ↔
    ∃ s p rest, Enters scheduler T timeBound t s ∧ queue s t = p :: rest ∧ p.pid = pid ∧
      rest ≠ [] := by
  constructor
  · rintro ⟨s, hs, hpid, q, hq, hne⟩
    cases hqueue : queue s t with
    | nil => rw [hqueue] at hq; cases hq
    | cons p rest =>
      rw [hqueue, getNextScheduledProcess_fst] at hpid
      refine ⟨s, p, rest, hs, hqueue, hpid, ?_⟩
      rintro rfl
      rw [hqueue, List.mem_singleton] at hq
      exact hne (hq ▸ hpid)
  · rintro ⟨s, p, rest, hs, hqueue, rfl, hne⟩
    obtain ⟨q, hq⟩ := List.exists_mem_of_ne_nil rest hne
    refine ⟨s, hs, ?_, q, ?_, (head_ok hs hqueue).2.2.2 q hq⟩
    · rw [hqueue, getNextScheduledProcess_fst]
    · rw [hqueue]
      exact List.mem_cons_of_mem _ hq

/-- A head that is returned again, with others behind it, has not completed and
has not just used up its first quantum. -/
theorem stays_of_holds (hs : Enters scheduler T timeBound t s) {p : RrProcess}
    {rest : List RrProcess} (hqueue : queue s t = p :: rest) (hne : rest ≠ [])
    (h : Holds T timeBound (t + 1) p.pid) :
    p.processedTime + 1 < p.processingTime ∧ p.quantumUsed + 1 ≠ quantum ∧
      ∃ s' rest', Enters scheduler T timeBound (t + 1) s' ∧
        queue s' (t + 1) = p.execute :: rest' ∧ rest' ≠ [] := by
  obtain ⟨hlt, hle, hreset, hother⟩ := head_ok hs hqueue
  obtain ⟨s₁, p', rest', hs₁, hqueue₁, hpid, -⟩ := holds_iff.mp h
  obtain ⟨s', hreached, -, hqueue'⟩ := queue_succ hs
  obtain rfl := hreached.unique hs₁.reached
  obtain ⟨r, rest'', rfl⟩ := List.exists_cons_of_ne_nil hne
  -- somebody else is at the head if this process leaves it
  have hleaves : ∀ l, getNextScheduledProcess (p :: r :: rest'') ≠ (p.pid, r :: l) := by
    intro l hcall
    rw [hqueue, hcall, hqueue₁] at hqueue'
    have hhead : p' = r := (List.cons.inj hqueue').1
    exact hother r List.mem_cons_self (hhead ▸ hpid)
  rcases next_cases (r :: rest'') hlt hle hreset with ⟨-, hcall⟩ | ⟨-, -, hcall⟩ |
    ⟨hlt', hquantum, hcall⟩
  · exact absurd hcall (hleaves _)
  · exact absurd hcall (hleaves _)
  · rw [hqueue, hcall] at hqueue'
    exact ⟨hlt', hquantum, s', _, hs₁, hqueue', List.cons_ne_nil _ _⟩

/-- After its first quantum the head stays until it completes. -/
theorem stays_of_quantum_le (hs : Enters scheduler T timeBound t s) {p : RrProcess}
    {rest : List RrProcess} (hqueue : queue s t = p :: rest) (hne : rest ≠ [])
    (hquantum : quantum ≤ p.quantumUsed) (n : Nat) (hn : p.processedTime + n < p.processingTime)
    (hbound : t + n < timeBound.toNat) : Holds T timeBound (t + n) p.pid := by
  induction n generalizing t s p rest with
  | zero => exact holds_iff.mpr ⟨s, p, rest, hs, hqueue, rfl, hne⟩
  | succ n ih =>
    obtain ⟨hlt, hle, hreset, -⟩ := head_ok hs hqueue
    have hprocessed : p.execute.processedTime = p.processedTime + 1 := incr_of_lt hlt hle
    have hused : p.execute.quantumUsed = p.quantumUsed + 1 := incr_of_lt (hreset ▸ hlt) hle
    rcases next_cases rest hlt hle hreset with ⟨hdone, -⟩ | ⟨-, hfirst, -⟩ | ⟨-, -, hcall⟩
    · omega
    · omega
    · -- `quantum_used` is past `QUANTUM` for good, so the head goes on
      rw [← hqueue] at hcall
      obtain ⟨s', hs', hqueue'⟩ := enters_succ (p := p.execute) hs (by omega) hcall
      have hnext : p.execute.processedTime + n < p.execute.processingTime := by
        rw [hprocessed, QuantumProcess.execute_processingTime]
        omega
      have hholds := ih hs' hqueue' (List.append_ne_nil_of_left_ne_nil hne _)
        (by rw [hused]; omega) hnext (by omega)
      rwa [show t + 1 + n = t + (n + 1) by omega] at hholds

/-- **Four calls in a row** go to one process, with others in the list, exactly
if it is on its second turn and needs that long. -/
theorem holds_four_iff : (∃ pid, ∀ i < 4, Holds T timeBound (t + i) pid) ↔
    SecondTurn T timeBound t := by
  constructor
  · rintro ⟨pid, h⟩
    obtain ⟨s, p, rest, hs, hqueue, rfl, hne⟩ := holds_iff.mp (h 0 (by decide))
    obtain ⟨hlt, hle, hreset, -⟩ := head_ok hs hqueue
    obtain ⟨-, h₁, s₁, rest₁, hs₁, hqueue₁, hne₁⟩ :=
      stays_of_holds hs hqueue hne (h 1 (by decide))
    obtain ⟨hlt₁, hle₁, hreset₁, -⟩ := head_ok hs₁ hqueue₁
    obtain ⟨-, h₂, s₂, rest₂, hs₂, hqueue₂, hne₂⟩ :=
      stays_of_holds hs₁ hqueue₁ hne₁ (h 2 (by decide))
    obtain ⟨hlt₂, hle₂, hreset₂, -⟩ := head_ok hs₂ hqueue₂
    obtain ⟨hlt₃, h₃, s₃, rest₃, hs₃, hqueue₃, hne₃⟩ :=
      stays_of_holds hs₂ hqueue₂ hne₂ (h 3 (by decide))
    have hused₁ : p.execute.quantumUsed = p.quantumUsed + 1 := incr_of_lt (hreset ▸ hlt) hle
    have hused₂ : p.execute.execute.quantumUsed = p.execute.quantumUsed + 1 :=
      incr_of_lt (hreset₁ ▸ hlt₁) hle₁
    simp only [QuantumProcess.execute_processingTime] at hlt₃
    refine ⟨s, p, rest, hs, hqueue, hne, ?_, ?_, hs₃.bound⟩
    · -- a first turn would have ended with one of the first three calls
      unfold quantum at h₁ h₂ h₃ ⊢
      omega
    · omega
  · rintro ⟨s, p, rest, hs, hqueue, hne, hquantum, hneeds, hbound⟩
    refine ⟨p.pid, ?_⟩
    intro i hi
    exact stays_of_quantum_le hs hqueue hne hquantum i (by omega) (by omega)

/-- **The quantum law fails on second turns, and only there.** -/
theorem quantumLaw_iff (T : Table) (timeBound : UInt32) :
    QuantumLaw T timeBound ↔ ∀ t, ¬ SecondTurn T timeBound t := by
  constructor
  · intro hlaw t hturn
    obtain ⟨pid, h⟩ := holds_four_iff.mpr hturn
    exact hlaw t pid h
  · intro hnever t pid h
    exact hnever t (holds_four_iff.mp ⟨pid, h⟩)

/-- Two processes that arrive together. -/
def twoTurns : Table where
  processes := [⟨1, 7, 0⟩, ⟨2, 4, 0⟩]
  nonempty := by decide
  pids_nodup := by decide
  pid_pos := by decide
  pid_lt := by decide
  arrivalTime_lt := by decide
  processingTime_pos := by decide
  processingTime_lt := by decide

/-- Process 1 has its first quantum in time steps 0 to 2, process 2 in 3 to 5.
Then process 1 holds the processor for four time steps, while process 2 waits for
its last one. -/
theorem not_quantumLaw_twoTurns : ¬ QuantumLaw twoTurns 20 := by
  have h : Reached scheduler twoTurns.start 20 6 _ :=
    .tick (.tick (.tick (.tick (.tick (.tick .start (by decide) rfl rfl) (by decide) rfl rfl)
      (by decide) rfl rfl) (by decide) rfl rfl) (by decide) rfl rfl) (by decide) rfl rfl
  have hturn : SecondTurn twoTurns 20 6 :=
    ⟨_, ⟨⟨1, 7, 0, 3⟩, 3⟩, [⟨⟨2, 4, 0, 3⟩, 3⟩], ⟨h, by decide, rfl⟩, rfl, by decide, by decide,
      by decide, by decide⟩
  intro hlaw
  obtain ⟨pid, hholds⟩ := holds_four_iff.mpr hturn
  exact hlaw 6 pid hholds

end Rr

end Cosc240
