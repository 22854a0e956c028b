import Cosc240.Schedulers.RrFifo
import Cosc240.Simulator.Returned

/-!
# The turns of `rr.c`

`quantum_used` is not reset (rr.c:147–154), so that a process has a turn of at most `QUANTUM` time
steps and, behind everybody who was in the list by then, a second turn for all the rest. The list
is a plan: one turn after the other, whatever arrives meanwhile.

- `turn`: the time steps that are left of the turn of a node. `plan`: the pids of the turns of a
  list, one after the other.
- `turn_cases` and `plan_next`: a call has one of the time steps of the first turn, and what it
  leaves of the list is the rest of the plan, and perhaps a second turn behind it.

Main results:

- `returned_plan`: at any time the list of `rr.c` determines who is returned until the turns of all
  its nodes are over. In the witness `returned_plan_crowded` these are second turns, and a process
  arrives during the first of them.
- `exists_first` and `exists_second`: the first turn of a process and all that is before it, and the
  second one and all between the two.
- `two_turns`: in every run, of any length, a process is returned in one stretch of at most
  `QUANTUM` time steps and in another one with all the rest, and in no other time step.
-/

namespace Cosc240

open Lib

namespace Rr

variable {T : Table} {timeBound : UInt32} {t : Nat} {s : Sim scheduler}

/-! ## Turns -/

/-- The time steps that are left of the turn of a node. -/
def turn (p : RrProcess) : Nat :=
  if p.quantumUsed < quantum then
    min (p.processingTime - p.processedTime) (quantum - p.quantumUsed)
  else p.processingTime - p.processedTime

/-- The pids of the turns, one after the other. -/
def plan (l : List RrProcess) : List Nat := l.flatMap fun p => List.replicate (turn p) p.pid

theorem plan_cons (p : RrProcess) (l : List RrProcess) :
    plan (p :: l) = List.replicate (turn p) p.pid ++ plan l := rfl

theorem plan_append (l l' : List RrProcess) : plan (l ++ l') = plan l ++ plan l' :=
  List.flatMap_append

theorem mem_of_mem_plan {l : List RrProcess} {pid : Nat} (h : pid ∈ plan l) :
    ∃ p ∈ l, p.pid = pid := by
  obtain ⟨p, hp, hpid⟩ := List.mem_flatMap.mp h
  exact ⟨p, hp, (List.eq_of_mem_replicate hpid).symm⟩

/-- The head of the list has one of the time steps of its turn; at the end of the turn it
leaves the list, or goes behind the others. -/
theorem turn_cases {p : RrProcess} (rest : List RrProcess)
    (hlt : p.processedTime < p.processingTime) (hle : p.processingTime ≤ uintMax)
    (heq : p.quantumUsed = p.processedTime) :
    (turn p = 1 ∧ p.processedTime + 1 = p.processingTime ∧
      getNextScheduledProcess (p :: rest) = (p.pid, rest)) ∨
    (turn p = 1 ∧ p.processedTime + 1 < p.processingTime ∧ p.processedTime + 1 = quantum ∧
      getNextScheduledProcess (p :: rest) = (p.pid, rest ++ [p.execute])) ∨
    (turn p = turn p.execute + 1 ∧ p.processedTime + 1 < p.processingTime ∧
      getNextScheduledProcess (p :: rest) = (p.pid, p.execute :: rest)) := by
  have hprocessed : p.execute.processedTime = p.processedTime + 1 := incr_of_lt hlt hle
  have hused : p.execute.quantumUsed = p.processedTime + 1 := heq ▸ incr_of_lt (heq ▸ hlt) hle
  rcases next_cases rest hlt hle heq with ⟨hdone, hcall⟩ | ⟨hlt', hquantum, hcall⟩ |
    ⟨hlt', hquantum, hcall⟩
  · refine .inl ⟨?_, hdone, hcall⟩
    unfold turn quantum
    split <;> omega
  · refine .inr (.inl ⟨?_, hlt', heq ▸ hquantum, hcall⟩)
    unfold turn
    rw [if_pos (by omega)]
    omega
  · refine .inr (.inr ⟨?_, hlt', hcall⟩)
    unfold turn
    rw [hprocessed, hused, QuantumProcess.execute_processingTime, heq]
    rw [heq] at hquantum
    split
    · rw [if_pos (by omega)]
      omega
    · rw [if_neg (by omega)]
      omega

/-! ## The list is a plan -/

/-- A call does what is next in the plan, and leaves the rest of it. -/
theorem plan_next (h : Enters scheduler T timeBound t s) {p : RrProcess} {rest : List RrProcess}
    (hqueue : queue s t = p :: rest) :
    ∃ later, p.pid :: plan (getNextScheduledProcess (queue s t)).2 = plan (queue s t) ++ later := by
  obtain ⟨hlt, hle, heq, -⟩ := head_ok h hqueue
  rw [hqueue]
  rcases turn_cases rest hlt hle heq with ⟨hturn, -, hcall⟩ | ⟨hturn, -, -, hcall⟩ |
    ⟨hturn, -, hcall⟩
  · refine ⟨[], ?_⟩
    rw [hcall, plan_cons, hturn, List.append_nil]
    rfl
  · refine ⟨plan [p.execute], ?_⟩
    rw [hcall, plan_cons, hturn, plan_append]
    rfl
  · refine ⟨[], ?_⟩
    rw [hcall, plan_cons, plan_cons, hturn, List.replicate_succ, List.append_nil]
    rfl

/-- Somebody is in the list after a call, so there is another one. -/
theorem enters_of_next_ne_nil (h : Enters scheduler T timeBound t s)
    (hbound : t + 1 < timeBound.toNat) (hne : (getNextScheduledProcess (queue s t)).2 ≠ []) :
    ∃ s', Enters scheduler T timeBound (t + 1) s' ∧
      queue s' (t + 1) = (getNextScheduledProcess (queue s t)).2 ++
        (T.arrivals (t + 1)).map newQuantumProcess := by
  obtain ⟨s', hreached, hsched, hqueue⟩ := queue_succ h
  obtain ⟨p, hp⟩ := List.exists_mem_of_ne_nil _ hne
  refine ⟨s', ⟨hreached, hbound, ?_⟩, hqueue⟩
  refine (books.agree_reached hreached).stillRunning_of_mem (j := p.toJob) ?_
  exact List.mem_map_of_mem (f := QuantumProcess.toJob) (hsched ▸ hp)

theorem returned_head (h : Enters scheduler T timeBound t s) {p : RrProcess}
    {rest : List RrProcess} (hqueue : queue s t = p :: rest) :
    (returned scheduler T.start timeBound)[t]? = some p.pid := by
  obtain ⟨pid, sched, hanswer, hget, -⟩ := books.returned_enters h
  have hcall : getNextScheduledProcess (queue s t) = (pid, sched) := Option.some.inj hanswer
  rw [hget, ← getNextScheduledProcess_fst p rest, ← hqueue, hcall]

/-- **The plan is carried out**: at any time the list of `rr.c` determines who is returned
until the turns of all its nodes are over. -/
theorem returned_plan (T : Table) (timeBound : UInt32) (t : Nat) (s : Sim scheduler)
    (h : Enters scheduler T timeBound t s) (i : Nat) (hi : i < (plan (queue s t)).length)
    (hbound : t + i < timeBound.toNat) :
    (returned scheduler T.start timeBound)[t + i]? = (plan (queue s t))[i]? := by
  induction i generalizing t s with
  | zero =>
    cases hqueue : queue s t with
    | nil => rw [hqueue] at hi; cases hi
    | cons p rest =>
      obtain ⟨later, hplan⟩ := plan_next h hqueue
      have hhead : some p.pid = (plan (queue s t) ++ later)[0]? := by
        rw [← hplan]
        rfl
      rw [List.getElem?_append_left hi] at hhead
      rw [← hqueue, ← hhead]
      exact returned_head h hqueue
  | succ i ih =>
    cases hqueue : queue s t with
    | nil => rw [hqueue] at hi; cases hi
    | cons p rest =>
      obtain ⟨later, hplan⟩ := plan_next h hqueue
      -- what is next in the plan after this call
      have hnext : (plan (getNextScheduledProcess (queue s t)).2)[i]? =
          (plan (queue s t) ++ later)[i + 1]? := by
        rw [← hplan]
        rfl
      rw [List.getElem?_append_left hi] at hnext
      have hlt : i < (plan (getNextScheduledProcess (queue s t)).2).length := by
        rw [List.getElem?_eq_getElem hi] at hnext
        exact (List.getElem?_eq_some_iff.mp hnext).1
      have hne : (getNextScheduledProcess (queue s t)).2 ≠ [] := by
        intro hnil
        rw [hnil] at hlt
        cases hlt
      obtain ⟨s', hs', hqueue'⟩ := enters_of_next_ne_nil h (by omega) hne
      have hplan' : plan (queue s' (t + 1)) = plan (getNextScheduledProcess (queue s t)).2 ++
          plan ((T.arrivals (t + 1)).map newQuantumProcess) := by
        rw [hqueue', plan_append]
      have hlt' : i < (plan (queue s' (t + 1))).length := by
        rw [hplan', List.length_append]
        omega
      rw [← hqueue, show t + (i + 1) = t + 1 + i by omega, ih (t + 1) s' hs' hlt' (by omega),
        hplan', List.getElem?_append_left hlt, hnext]

/-- The crowded table, at the start of time step 9: the second turn of process 1 goes on for
the six units it has left, although process 4 arrives during it, and that of process 2 follows
at time step 15. -/
theorem returned_plan_crowded :
    ∃ s, Enters scheduler crowdedTable 30 9 s ∧
      plan (queue s 9) = [1, 1, 1, 1, 1, 1, 2, 3, 3, 3, 3] ∧
      (returned scheduler crowdedTable.start 30)[9 + 6]? = some 2 := by
  obtain ⟨s, h, htest⟩ := exists_reached scheduler crowdedTable.start 30 9
    (p := fun s => stillRunning s.processes = true ∧
      plan (queue s 9) = [1, 1, 1, 1, 1, 1, 2, 3, 3, 3, 3]) (by decide +kernel)
  obtain ⟨hrun, hplan⟩ := of_decide_eq_true htest
  have henters : Enters scheduler crowdedTable 30 9 s := ⟨h, by decide, hrun⟩
  refine ⟨s, henters, hplan, ?_⟩
  rw [returned_plan crowdedTable 30 9 s henters 6 (by rw [hplan]; decide) (by decide), hplan]
  rfl

/-! ## One turn -/

variable {p : RrProcess} {front back rest : List RrProcess}

theorem pid_ne_of_mem_front (h : Enters scheduler T timeBound t s)
    (hqueue : queue s t = front ++ p :: back) : ∀ q ∈ front, q.pid ≠ p.pid := by
  obtain ⟨-, hv⟩ := queue_ok h
  have hnodup := hv.nodup
  rw [hqueue, List.map_map, List.map_append, List.nodup_append] at hnodup
  intro q hq
  exact hnodup.2.2 q.pid (List.mem_map_of_mem hq) p.pid (List.mem_map_of_mem List.mem_cons_self)

/-- The time steps up to the end of the turn of a process: only the last of them are its
own. -/
theorem returned_iff_of_turn (h : Enters scheduler T timeBound t s)
    (hqueue : queue s t = front ++ p :: back) {i : Nat}
    (hi : i < (plan front).length + turn p) (hbound : t + i < timeBound.toNat) :
    (returned scheduler T.start timeBound)[t + i]? = some p.pid ↔ (plan front).length ≤ i := by
  have hplan : plan (queue s t) =
      (plan front ++ List.replicate (turn p) p.pid) ++ plan back := by
    rw [hqueue, plan_append, plan_cons, List.append_assoc]
  have hlt : i < (plan front ++ List.replicate (turn p) p.pid).length := by
    rw [List.length_append, List.length_replicate]
    exact hi
  rw [returned_plan T timeBound t s h i (by rw [hplan, List.length_append]; omega) hbound, hplan,
    List.getElem?_append_left hlt]
  constructor
  · intro hpid
    by_contra hfront
    rw [List.getElem?_append_left (Nat.lt_of_not_le hfront)] at hpid
    obtain ⟨q, hq, hq'⟩ := mem_of_mem_plan (List.mem_of_getElem? hpid)
    exact pid_ne_of_mem_front h hqueue q hq hq'
  · intro hle
    rw [List.getElem?_append_right hle, List.getElem?_replicate, if_pos (by omega)]

/-- After the turns of those in front, a node is at the head. -/
theorem enters_head (h : Enters scheduler T timeBound t s)
    (hqueue : queue s t = front ++ p :: back)
    (hbound : t + (plan front).length < timeBound.toNat) :
    ∃ s' rest, Enters scheduler T timeBound (t + (plan front).length) s' ∧
      queue s' (t + (plan front).length) = p :: rest := by
  -- the induction is on the time steps of those in front
  obtain ⟨n, hn⟩ : ∃ n, (plan front).length = n := ⟨_, rfl⟩
  rw [hn] at hbound ⊢
  induction n generalizing t s front back with
  | zero =>
    cases front with
    | nil => exact ⟨s, back, h, hqueue⟩
    | cons q front =>
      have hone := returned_head h hqueue
      obtain ⟨hlt, hle, heq, -⟩ := head_ok h hqueue
      rw [plan_cons, List.length_append, List.length_replicate] at hn
      rcases turn_cases (front ++ p :: back) hlt hle heq with ⟨hturn, -⟩ | ⟨hturn, -⟩ | ⟨hturn, -⟩
      all_goals omega
  | succ n ih =>
    cases front with
    | nil => cases hn
    | cons q front =>
      obtain ⟨hlt, hle, heq, -⟩ := head_ok h hqueue
      rw [plan_cons, List.length_append, List.length_replicate] at hn
      -- whatever becomes of the head, the node is behind fewer time steps
      have hgoOn : ∀ front' back', getNextScheduledProcess (queue s t) =
          (q.pid, front' ++ p :: back') → (plan front').length = n →
          ∃ s' rest, Enters scheduler T timeBound (t + (n + 1)) s' ∧
            queue s' (t + (n + 1)) = p :: rest := by
        intro front' back' hcall hlength
        obtain ⟨s', hs', hqueue'⟩ := enters_of_next_ne_nil h (by omega)
          (by rw [hcall]; exact List.append_ne_nil_of_right_ne_nil _ (List.cons_ne_nil _ _))
        rw [hcall, List.append_assoc, List.cons_append] at hqueue'
        rw [show t + (n + 1) = t + 1 + n by omega]
        exact ih hs' hqueue' (by omega) hlength
      rcases turn_cases (front ++ p :: back) hlt hle heq with ⟨hturn, -, hcall⟩ |
        ⟨hturn, -, -, hcall⟩ | ⟨hturn, -, hcall⟩
      · exact hgoOn front back (hqueue ▸ hcall) (by omega)
      · refine hgoOn front (back ++ [q.execute]) ?_ (by omega)
        rw [hqueue, List.cons_append, hcall, List.append_assoc, List.cons_append]
      · refine hgoOn (q.execute :: front) back (hqueue ▸ hcall) ?_
        rw [plan_cons, List.length_append, List.length_replicate]
        show turn q.execute + _ = n
        omega

/-- At the end of a turn that is not the last one, a process is in the list for its second
turn. -/
theorem enters_second_turn (h : Enters scheduler T timeBound t s) (hqueue : queue s t = p :: rest)
    (hmore : p.processedTime + turn p < p.processingTime)
    (hbound : t + turn p < timeBound.toNat) :
    ∃ s' front p' back, Enters scheduler T timeBound (t + turn p) s' ∧
      queue s' (t + turn p) = front ++ p' :: back ∧ p'.pid = p.pid ∧
      turn p' = p.processingTime - (p.processedTime + turn p) := by
  obtain ⟨n, hn⟩ : ∃ n, turn p = n := ⟨_, rfl⟩
  rw [hn] at hmore hbound ⊢
  induction n generalizing t s p rest with
  | zero =>
    obtain ⟨hlt, hle, heq, -⟩ := head_ok h hqueue
    rcases turn_cases rest hlt hle heq with ⟨hturn, -⟩ | ⟨hturn, -⟩ | ⟨hturn, -⟩
    all_goals omega
  | succ n ih =>
    obtain ⟨hlt, hle, heq, -⟩ := head_ok h hqueue
    have hprocessed : p.execute.processedTime = p.processedTime + 1 := incr_of_lt hlt hle
    have hused : p.execute.quantumUsed = p.processedTime + 1 := heq ▸ incr_of_lt (heq ▸ hlt) hle
    rcases turn_cases rest hlt hle heq with ⟨hturn, hdone, -⟩ |
      ⟨hturn, -, hquantum, hcall⟩ | ⟨hturn, hlt', hcall⟩
    · omega
    · -- the turn ends here
      obtain rfl : n = 0 := by omega
      rw [← hqueue] at hcall
      obtain ⟨s', hs', hqueue'⟩ := enters_of_next_ne_nil h hbound
        (by rw [hcall]; exact List.append_ne_nil_of_right_ne_nil _ (List.cons_ne_nil _ _))
      rw [hcall, List.append_assoc, List.singleton_append] at hqueue'
      refine ⟨s', rest, p.execute, _, hs', hqueue', rfl, ?_⟩
      unfold turn
      rw [if_neg (by omega), hprocessed, QuantumProcess.execute_processingTime]
    · rw [← hqueue] at hcall
      obtain ⟨s', hs', hqueue'⟩ := enters_succ (p := p.execute) h (by omega) hcall
      have hmore' : p.execute.processedTime + n < p.execute.processingTime := by
        rw [hprocessed, QuantumProcess.execute_processingTime]
        omega
      rw [show t + (n + 1) = t + 1 + n by omega,
        show p.processedTime + (n + 1) = p.execute.processedTime + n by omega]
      exact ih hs' hqueue' (by omega) hmore' (by omega)

/-! ## Two turns each -/

theorem turn_newQuantumProcess (process : ProcessInitial) :
    turn (newQuantumProcess process) = min process.processingTime quantum := rfl

/-- Where a process stands in the list when it arrives. -/
theorem exists_arrival {process : ProcessInitial} (hp : process ∈ T.processes)
    (ht : process.arrivalTime < timeBound.toNat) :
    ∃ s front back, Enters scheduler T timeBound process.arrivalTime s ∧
      queue s process.arrivalTime = front ++ newQuantumProcess process :: back := by
  obtain ⟨s, hs⟩ := books.enters_of_le hp (Nat.le_refl _) ht
  have hmem : newQuantumProcess process ∈ queue s process.arrivalTime := by
    rw [queue_eq hs.reached]
    exact List.mem_append_right _ (List.mem_map_of_mem (Table.mem_arrivals.mpr ⟨hp, rfl⟩))
  obtain ⟨front, back, hqueue⟩ := List.append_of_mem hmem
  exact ⟨s, front, back, hs, hqueue⟩

/-- What a run of any length says of a process. -/
theorem returned_inv {process : ProcessInitial} (hp : process ∈ T.processes) {i : Nat}
    (hi : (returned scheduler T.start timeBound)[i]? = some process.pid) :
    process.arrivalTime ≤ i ∧ i < timeBound.toNat := by
  obtain ⟨s, -, hlength, hschedule, -⟩ := books.runSimulation_returned T timeBound
  obtain ⟨r, hr, rfl⟩ := mem_rows hschedule.initial hp
  have hlt := (List.getElem?_eq_some_iff.mp hi).1
  exact ⟨(hschedule.rowOk r hr).arrived i hi, by omega⟩

theorem count_returned_le {process : ProcessInitial} (hp : process ∈ T.processes) :
    (returned scheduler T.start timeBound).count process.pid ≤ process.processingTime := by
  obtain ⟨s, -, -, hschedule, -⟩ := books.runSimulation_returned T timeBound
  obtain ⟨r, hr, rfl⟩ := mem_rows hschedule.initial hp
  have hrow := hschedule.rowOk r hr
  exact hrow.count ▸ hrow.le

/-- The first turn, and all that is before it. -/
theorem exists_first {process : ProcessInitial} (hp : process ∈ T.processes)
    (ht : process.arrivalTime < timeBound.toNat) :
    ∃ first, process.arrivalTime ≤ first ∧
      (∀ i < first + min process.processingTime quantum, i < timeBound.toNat →
        ((returned scheduler T.start timeBound)[i]? = some process.pid ↔ first ≤ i)) ∧
      (first < timeBound.toNat → ∃ s rest, Enters scheduler T timeBound first s ∧
        queue s first = newQuantumProcess process :: rest) := by
  obtain ⟨s, front, back, hs, hqueue⟩ := exists_arrival hp ht
  refine ⟨process.arrivalTime + (plan front).length, Nat.le_add_right _ _, ?_, ?_⟩
  · intro i hi hbound
    by_cases harrived : process.arrivalTime ≤ i
    · have hturn := returned_iff_of_turn hs hqueue (i := i - process.arrivalTime)
        (by rw [turn_newQuantumProcess]; omega) (by omega)
      rw [Nat.add_sub_cancel' harrived] at hturn
      refine hturn.trans ?_
      omega
    · constructor
      · intro hreturned
        exact absurd (returned_inv hp hreturned).1 harrived
      · omega
  · intro hbound
    exact enters_head hs hqueue hbound

/-- The second turn, and all between the two. -/
theorem exists_second {process : ProcessInitial} {first : Nat}
    (hhead : first < timeBound.toNat → ∃ s rest, Enters scheduler T timeBound first s ∧
      queue s first = newQuantumProcess process :: rest) :
    ∃ second, first + min process.processingTime quantum ≤ second ∧
      ∀ i, first + min process.processingTime quantum ≤ i →
        i < second + (process.processingTime - quantum) → i < timeBound.toNat →
        ((returned scheduler T.start timeBound)[i]? = some process.pid ↔ second ≤ i) := by
  by_cases hmore : quantum < process.processingTime ∧ first + quantum < timeBound.toNat
  · obtain ⟨hlong, hbound⟩ := hmore
    obtain ⟨s, rest, hs, hqueue⟩ := hhead (by omega)
    have hturn : turn (newQuantumProcess process) = quantum := by
      rw [turn_newQuantumProcess, Nat.min_eq_right hlong.le]
    obtain ⟨s', front, p, back, hs', hqueue', hpid, hturn'⟩ := enters_second_turn hs hqueue
      (show 0 + turn (newQuantumProcess process) < process.processingTime by omega)
      (by omega)
    rw [hturn] at hs' hqueue'
    have hleft : turn p = process.processingTime - quantum := by
      rw [hturn', hturn]
      show process.processingTime - (0 + quantum) = _
      omega
    refine ⟨first + quantum + (plan front).length, by omega, ?_⟩
    intro i hle hlt hi
    have hwindow := returned_iff_of_turn hs' hqueue' (i := i - (first + quantum))
      (by omega) (by omega)
    rw [Nat.add_sub_cancel' (by omega), hpid] at hwindow
    refine hwindow.trans ?_
    omega
  · -- there is no second turn, or it is behind the end of the run
    refine ⟨first + min process.processingTime quantum, Nat.le_refl _, ?_⟩
    intro i hle hlt hi
    omega

/-- **Two turns each.** In every run, of any length, a process is returned in one stretch of
at most `QUANTUM` time steps and in another one with all the rest, and in no other time
step. -/
theorem two_turns (T : Table) (timeBound : UInt32) (process : ProcessInitial)
    (hp : process ∈ T.processes) :
    ∃ first second, process.arrivalTime ≤ first ∧
      first + min process.processingTime quantum ≤ second ∧
      ∀ i, (returned scheduler T.start timeBound)[i]? = some process.pid ↔
        i < timeBound.toNat ∧
          (first ≤ i ∧ i < first + min process.processingTime quantum ∨
            second ≤ i ∧ i < second + (process.processingTime - quantum)) := by
  by_cases ht : process.arrivalTime < timeBound.toNat
  · obtain ⟨first, harrival, hfirst, hhead⟩ := exists_first hp ht
    obtain ⟨second, hle, hsecond⟩ := exists_second hhead
    refine ⟨first, second, harrival, hle, ?_⟩
    intro i
    constructor
    · intro hi
      have hbound := (returned_inv hp hi).2
      refine ⟨hbound, ?_⟩
      by_cases hturn : i < first + min process.processingTime quantum
      · exact .inl ⟨(hfirst i hturn hbound).mp hi, hturn⟩
      · by_cases hturn' : i < second + (process.processingTime - quantum)
        · exact .inr ⟨(hsecond i (Nat.le_of_not_lt hturn) hturn' hbound).mp hi, hturn'⟩
        · -- the two turns are all the time it needs
          refine absurd (lt_of_count_le ?_ ?_ hle ((count_returned_le hp).trans ?_) hi) hturn'
          · intro d hd
            exact (hfirst (first + d) (by omega) (by omega)).mpr (Nat.le_add_right _ _)
          · intro d hd
            exact (hsecond (second + d) (by omega) (by omega) (by omega)).mpr
              (Nat.le_add_right _ _)
          · omega
    · rintro ⟨hbound, ⟨hge, hlt⟩ | ⟨hge, hlt⟩⟩
      · exact (hfirst i hlt hbound).mpr hge
      · exact (hsecond i (by omega) hlt hbound).mpr hge
  · refine ⟨process.arrivalTime, process.arrivalTime + min process.processingTime quantum,
      Nat.le_refl _, Nat.le_refl _, ?_⟩
    intro i
    constructor
    · intro hi
      obtain ⟨hle, hlt⟩ := returned_inv hp hi
      omega
    · rintro ⟨hlt, h⟩
      omega

/-- Process 1 of the two. -/
theorem two_turns_twoTurns : ∃ first second, 0 ≤ first ∧ first + min 7 quantum ≤ second ∧
    ∀ i, (returned scheduler twoTurns.start 20)[i]? = some 1 ↔
      i < 20 ∧ (first ≤ i ∧ i < first + min 7 quantum ∨ second ≤ i ∧ i < second + (7 - quantum)) :=
  two_turns twoTurns 20 ⟨1, 7, 0⟩ (by decide)

end Rr

end Cosc240
