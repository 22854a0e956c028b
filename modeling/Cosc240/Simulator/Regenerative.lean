import Cosc240.Simulator.Oblivious
import Cosc240.Simulator.Returned
import Cosc240.Simulator.Slices

/-!
# Schedulers that start afresh

Nothing resets the globals of a scheduler when it runs out of processes, and some
of what is left behind is stale, such as `priority_level` (constant.c, exponential.c,
custom.c). A scheduler is regenerative if none of that can be seen: in some view from which
it decides, all states without processes are the same.

- `Regenerative B`: an oblivious view in which an empty scheduler is always the same.
- `Table.Splits T first second M`: `T` consists of two parts, and the second one arrives at `M` or
  later.

For such a scheduler a table that splits into two, the second part arriving when
the first is complete, is run like the first part alone and then like the second
part alone:

- `sameOn_first`: the first busy period is that of the first part alone.
- `contents_eq_nil`: at its end the scheduler holds nothing.
- `sameOn_second`: the second busy period is that of the second part alone.
- `sameOn_both`: both of them, if the first part alone is run to completion.

The proofs run the two tables in lockstep, with the equality of the views as the relation.
-/

namespace Cosc240

/-- An oblivious view in which an empty scheduler is always the same. -/
structure Regenerative {S : Scheduler} (B : Books S) extends Oblivious B where
  view_idle : ∀ s s', B.Ok s → B.Ok s' → B.contents s = [] → B.contents s' = [] →
    view s = view s'

/-! ## A table in two parts -/

/-- `T` consists of two parts, and the second one arrives at `M` or later. -/
structure Table.Splits (T first second : Table) (M : Nat) : Prop where
  perm : T.processes.Perm (first.processes ++ second.processes)
  later : ∀ p ∈ second.processes, M ≤ p.arrivalTime

namespace Table.Splits

variable {T first second : Table} {M t : Nat} {p : ProcessInitial}

theorem mem_iff (h : T.Splits first second M) :
    p ∈ T.processes ↔ p ∈ first.processes ∨ p ∈ second.processes := by
  rw [h.perm.mem_iff, List.mem_append]

theorem exists_later (h : T.Splits first second M) :
    ∃ p, p ∈ T.processes ∧ p ∈ second.processes ∧ M ≤ p.arrivalTime := by
  obtain ⟨p, hp⟩ := List.exists_mem_of_ne_nil _ second.nonempty
  exact ⟨p, h.mem_iff.mpr (.inr hp), hp, h.later p hp⟩

/-- Before `M` the first part arrives. -/
theorem arrivals_first (h : T.Splits first second M) (ht : t < M) :
    (T.processes.filter fun p => p.arrivalTime = t).Perm
      (first.processes.filter fun p => p.arrivalTime = t) := by
  have hnil : second.processes.filter (fun p => p.arrivalTime = t) = [] := by
    rw [List.filter_eq_nil_iff]
    intro p hp harr
    have hle := h.later p hp
    have heq := of_decide_eq_true harr
    omega
  have hperm := h.perm.filter fun p => p.arrivalTime = t
  rwa [List.filter_append, hnil, List.append_nil] at hperm

/-- From `M` on the second part does, if all of the first part is there by then. -/
theorem arrivals_second (h : T.Splits first second M)
    (hfirst : ∀ p ∈ first.processes, p.arrivalTime < M) (ht : M ≤ t) :
    (T.processes.filter fun p => p.arrivalTime = t).Perm
      (second.processes.filter fun p => p.arrivalTime = t) := by
  have hnil : first.processes.filter (fun p => p.arrivalTime = t) = [] := by
    rw [List.filter_eq_nil_iff]
    intro p hp harr
    have hlt := hfirst p hp
    have heq := of_decide_eq_true harr
    omega
  have hperm := h.perm.filter fun p => p.arrivalTime = t
  rwa [List.filter_append, hnil, List.nil_append] at hperm

end Table.Splits

/-! ## Counting from some time step on -/

theorem SameOn.count_eq {a b pid : Nat} {σ σ' : List Nat} (h : SameOn a b σ σ') (hab : a ≤ b)
    (hzero : (σ.take a).count pid = 0) (hzero' : (σ'.take a).count pid = 0) :
    (σ.take b).count pid = (σ'.take b).count pid := by
  have hsplit : ∀ σ : List Nat,
      (σ.take b).count pid = (σ.take a).count pid + ((σ.take b).drop a).count pid := by
    intro σ
    have htake : (σ.take b).take a = σ.take a := by
      rw [List.take_take, Nat.min_eq_left hab]
    rw [← htake, ← List.count_append, List.take_append_drop]
  have hdrop : (σ.take b).drop a = (σ'.take b).drop a := by
    refine List.ext_getElem? fun i => ?_
    rw [List.getElem?_drop, List.getElem?_drop, List.getElem?_take, List.getElem?_take]
    split
    · next hi => exact h (a + i) (Nat.le_add_right a i) hi
    · rfl
  rw [hsplit σ, hsplit σ', hzero, hzero', hdrop]

/-- A process does not run before it arrives. -/
theorem Schedule.count_eq_zero {T : Table} {σ : List Nat} {processes : List ProcessStats}
    (h : Schedule T σ processes) {p : ProcessInitial} (hp : p ∈ T.processes)
    (ht : σ.length ≤ p.arrivalTime) : σ.count p.pid = 0 := by
  obtain ⟨row, hrow, rfl⟩ := mem_rows h.initial hp
  have hok := h.rowOk row hrow
  rw [← hok.count]
  exact hok.eq_zero_of_le ht

/-- A complete schedule gives each process what it needs, after its arrival. -/
theorem Schedule.complete {T : Table} {σ : List Nat} {processes : List ProcessStats}
    (h : Schedule T σ processes) (hdone : stillRunning processes = false) {p : ProcessInitial}
    (hp : p ∈ T.processes) : σ.count p.pid = p.processingTime ∧ p.arrivalTime < σ.length := by
  obtain ⟨row, hrow, rfl⟩ := mem_rows h.initial hp
  have hok := h.rowOk row hrow
  have heq := h.processedTime_eq hdone hrow
  refine ⟨by rw [← hok.count, heq], ?_⟩
  by_contra hle
  have hzero := hok.eq_zero_of_le (Nat.le_of_not_lt hle)
  have hpos := T.processingTime_pos _ hp
  omega

/-- Once the first part is complete, the second part is all that is left to do. -/
theorem Table.Splits.stillRunning_eq {T first second : Table} {M : Nat}
    (h : T.Splits first second M) {σ σ' : List Nat} {processes processes' : List ProcessStats}
    (hσ : Schedule T σ processes) (hσ' : Schedule second σ' processes')
    (hfirst : ∀ p ∈ first.processes, p.processingTime ≤ σ.count p.pid)
    (hsecond : ∀ p ∈ second.processes, σ.count p.pid = σ'.count p.pid) :
    stillRunning processes = stillRunning processes' := by
  rw [Bool.eq_iff_iff, hσ.stillRunning_iff, hσ'.stillRunning_iff]
  constructor
  · rintro ⟨p, hp, hpos⟩
    rw [remaining] at hpos
    rcases h.mem_iff.mp hp with hp₁ | hp₂
    · have hle := hfirst p hp₁
      omega
    · exact ⟨p, hp₂, by rwa [remaining, ← hsecond p hp₂]⟩
  · rintro ⟨p, hp, hpos⟩
    exact ⟨p, h.mem_iff.mpr (.inr hp), by rwa [remaining, hsecond p hp]⟩

/-! ## Three runs -/

namespace Regenerative

variable {S : Scheduler} {B : Books S} (R : Regenerative B) {T first second : Table} {M : Nat}
  {timeBound timeBound₁ timeBound₂ : UInt32}

include R in
/-- The views stay the same, if the same processes arrive. -/
theorem view_step {T T' : Table} {timeBound timeBound' : UInt32} {k pid pid' : Nat}
    {s s' : Sim S} {sched sched' : S.State} (hs : Enters S T timeBound k s)
    (hs' : Enters S T' timeBound' k s') (hview : R.view s.sched = R.view s'.sched)
    (hperm : (T.processes.filter fun p => p.arrivalTime = k).Perm
      (T'.processes.filter fun p => p.arrivalTime = k))
    (hanswer : s.answer k = some (pid, sched)) (hanswer' : s'.answer k = some (pid', sched')) :
    pid = pid' ∧ R.view sched = R.view sched' := by
  rw [← arrivalsAt_eq hs.reached.initial, ← arrivalsAt_eq hs'.reached.initial] at hperm
  exact R.view_answer (B.agree_reached hs.reached) (B.agree_reached hs'.reached) hview hperm
    hanswer hanswer'

include R in
/-- **The first busy period** is that of the first part alone. -/
theorem sameOn_first (timeBound : UInt32) (h : T.Splits first second M)
    (hM : (returned S first.start timeBound₁).length = M) :
    SameOn 0 (min M timeBound.toNat) (returned S T.start timeBound)
      (returned S first.start timeBound₁) := by
  obtain ⟨-, -, hlen, -, -⟩ := B.runSimulation_returned first timeBound₁
  obtain ⟨q, hq, -, hlater⟩ := h.exists_later
  refine B.lockstep B (Nat.min_le_right _ _) (by omega) (fun _ s s' => R.view s = R.view s')
    ⟨_, _, .start, .start, rfl⟩ ?_ ?_
  · -- both still have work to do: the second part, and the rest of the first
    intro k s s' _ hk _ hs hs'
    obtain ⟨s₁, hs₁⟩ := B.enters_of_le hq (show k ≤ q.arrivalTime by omega)
      (show k < timeBound.toNat by omega)
    obtain ⟨s₁', hs₁'⟩ := B.exists_enters
      (show k < (returned S first.start timeBound₁).length by omega)
    rw [hs.unique hs₁.reached, hs'.unique hs₁'.reached, hs₁.running, hs₁'.running]
  · -- before `M` only the first part arrives
    intro k s s' pid pid' sched sched' _ hk _ hs hs' hview hanswer hanswer'
    obtain ⟨hpid, hview⟩ := R.view_step hs hs' hview (h.arrivals_first (by omega)) hanswer hanswer'
    exact ⟨hpid, fun _ => hview⟩

/-- A scheduler holds nothing if all that has arrived is complete. -/
theorem contents_eq_nil {t : Nat} {s : Sim S} (h : Agree B T t s)
    (hdone : ∀ p ∈ s.processes, p.initial.arrivalTime < t →
      p.initial.processingTime ≤ p.processedTime) : B.contents s.sched = [] := by
  have hnil : s.processes.filter (fun p => p.initial.arrivalTime < t ∧
      p.processedTime < p.initial.processingTime) = [] := by
    rw [List.filter_eq_nil_iff]
    intro p hp hpend
    obtain ⟨harr, hlt⟩ := of_decide_eq_true hpend
    have hle := hdone p hp harr
    omega
  -- the books list what has arrived and is not complete
  have hperm := h.books
  rw [hnil] at hperm
  exact hperm.eq_nil

include R in
/-- **The second busy period** is that of the second part alone. -/
theorem sameOn_second (timeBound₂ : UInt32) (h : T.Splits first second M)
    (hfirst : ∀ p ∈ first.processes, p.arrivalTime < M ∧
      p.processingTime ≤ ((returned S T.start timeBound).take M).count p.pid) :
    SameOn M (min timeBound.toNat timeBound₂.toNat) (returned S T.start timeBound)
      (returned S second.start timeBound₂) := by
  by_cases hlt : M < min timeBound.toNat timeBound₂.toNat
  swap
  · exact fun i hi hi' => absurd (Nat.lt_of_le_of_lt hi hi') hlt
  obtain ⟨q, hq, hq₂, hlater⟩ := h.exists_later
  obtain ⟨s, hs⟩ := B.enters_of_le hq hlater (show M < timeBound.toNat by omega)
  obtain ⟨s', hs'⟩ := B.enters_of_le hq₂ hlater (show M < timeBound₂.toNat by omega)
  have hσ := (B.returned_reached hs.reached).2.1
  have hσ' := (B.returned_reached hs'.reached).2.1
  refine B.lockstep B (Nat.min_le_left _ _) (Nat.min_le_right _ _)
    (fun _ s s' => R.view s = R.view s') ⟨s, s', hs.reached, hs'.reached, ?_⟩ ?_ ?_
  · -- neither run holds a process now
    refine R.view_idle _ _ (B.agree_reached hs.reached).ok (B.agree_reached hs'.reached).ok
      (contents_eq_nil (B.agree_reached hs.reached) fun p hp harr => ?_)
      (contents_eq_nil (B.agree_reached hs'.reached) fun p hp harr => ?_)
    · rcases h.mem_iff.mp (initial_mem hσ.initial hp) with hp₁ | hp₂
      · rw [(hσ.rowOk p hp).count]
        exact (hfirst _ hp₁).2
      · have hle := h.later _ hp₂
        omega
    · have hle := h.later _ (initial_mem hσ'.initial hp)
      omega
  · -- the first part is complete, and the second one has had the same in both runs
    intro k r r' hk _ hsame hr hr'
    refine h.stillRunning_eq (B.returned_reached hr).2.1 (B.returned_reached hr').2.1 ?_ ?_
    · intro p hp
      have hsub : ((returned S T.start timeBound).take M).Sublist
          ((returned S T.start timeBound).take k) := List.take_sublist_take_left hk
      exact (hfirst p hp).2.trans (hsub.count_le p.pid)
    · intro p hp
      have hle := h.later p hp
      exact hsame.count_eq hk
        (hσ.count_eq_zero (h.mem_iff.mpr (.inr hp)) (by rw [List.length_take]; omega))
        (hσ'.count_eq_zero hp (by rw [List.length_take]; omega))
  · -- from `M` on only the second part arrives
    intro k r r' pid pid' sched sched' hk _ _ hr hr' hview hanswer hanswer'
    have hperm := h.arrivals_second (fun p hp => (hfirst p hp).1) hk
    obtain ⟨hpid, hview⟩ := R.view_step hr hr' hview hperm hanswer hanswer'
    exact ⟨hpid, fun _ => hview⟩

include R in
/-- **Both busy periods**, if the first part alone is run to completion. -/
theorem sameOn_both {s₁ : Sim S}
    (hrun : runSimulation S first.start timeBound₁ = some (true, s₁))
    (h : T.Splits first second s₁.trace.length) :
    (∀ t < s₁.trace.length, t < timeBound.toNat →
      (returned S T.start timeBound)[t]? = (returned S first.start timeBound₁)[t]?) ∧
    ∀ t, s₁.trace.length ≤ t → t < timeBound.toNat → t < timeBound₂.toNat →
      (returned S T.start timeBound)[t]? = (returned S second.start timeBound₂)[t]? := by
  obtain ⟨N, -, hdone⟩ := B.reached_of_runSimulation_true hrun
  obtain ⟨s, hrun', -, hσ, htrace⟩ := B.runSimulation_returned first timeBound₁
  rw [hrun, Option.some.injEq, Prod.mk.injEq] at hrun'
  obtain ⟨-, rfl⟩ := hrun'
  have hM : (returned S first.start timeBound₁).length = s₁.trace.length := by
    rw [htrace, List.length_mapIdx]
  have hsame := R.sameOn_first timeBound h hM
  refine ⟨fun t ht hbound => hsame t (Nat.zero_le t) (by omega), fun t ht hbound hbound₂ => ?_⟩
  -- up to `M` the run on `T` is the complete run on the first part
  refine R.sameOn_second timeBound₂ h (fun p hp => ?_) t ht (by omega)
  obtain ⟨hcount, harr⟩ := hσ.complete hdone hp
  rw [Nat.min_eq_left (by omega)] at hsame
  rw [hsame.take_eq, ← hM, List.take_length]
  exact ⟨harr, hcount.ge⟩

end Regenerative

end Cosc240
