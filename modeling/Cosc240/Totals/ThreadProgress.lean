import Cosc240.Totals.ThreadTotal

/-!
# Every run of the threads ends

A step uses up one of the `8 * n + 3` that there are, and whoever waits does so for a
thread that can go on: `main` for a thread that has not finished, a thread for the one
that holds the mutex (thread.c:22–81). If no order of adding the results overflows and every call
succeeds, a run that cannot go on has printed the total of the loop.

- `State.left`: the steps that are left of all. It is the measure.
- `State.Owned`: a mutex that is locked is held by a thread that will unlock it.
- `Fits`: no order of adding the results overflows.
- `Clean`: how a run without failures is, between any two steps.

Main results:

- `Step.left_lt` and `length_le_of_run`: every step uses one up, so that no schedule is longer than
  this.
- `exists_next`: there is no deadlock. As long as the process is not over, somebody can go on.
- `no_deadlock`: whatever the order of the steps and whichever calls fail, at most one thread is
  between the lock and the unlock, the run is no longer than `8 * n + 3` steps, and a run that
  cannot go on with calls that succeed is one whose process is over.
- `exists_run_ended` and `main_of_ended`: every run can be completed, and then has ended as `loop.c`
  does.
-/

namespace Cosc240

open Lib Interleaving

namespace Totals

namespace Threads

variable {values : List Int} {s s' : State}

/-! ## What is left to do -/

/-- The process is over. -/
def Main.ended : Main → Bool
  | .exited _ | .undefined => true
  | _ => false

/-- The steps that are left of a thread. -/
def Thread.left : Thread → Nat
  | .started _ => 6
  | .indexed _ => 5
  | .calculated _ => 4
  | .locked _ => 3
  | .loaded _ _ => 2
  | .stored => 1
  | .finished => 0

/-- The steps that are left of `main` and of the threads it has not created. -/
def Main.left (n : Nat) : Main → Nat
  | .start => 8 * n + 3
  | .create i => 7 * (n - i) + n + 2
  | .join i => n - i + 1
  | .exited _ => 0
  | .undefined => 0

/-- The steps that are left of all. -/
def State.left (s : State) (n : Nat) : Nat :=
  if s.main.ended then 0 else s.main.left n + (s.threads.map Thread.left).sum

theorem left_of_ended {n : Nat} (h : s.main.ended = true) : s.left n = 0 := by
  rw [State.left, if_pos h]

theorem left_of_running {n : Nat} (h : s.main.ended = false) :
    s.left n = s.main.left n + (s.threads.map Thread.left).sum := by
  rw [State.left, if_neg (by rw [h]; exact Bool.false_ne_true)]

theorem left_pos {n : Nat} (h : s.main.ended = false) : 0 < s.left n := by
  rw [left_of_running h]
  cases hmain : s.main with
  | start => exact Nat.add_pos_left (Nat.succ_pos _) _
  | create i => exact Nat.add_pos_left (Nat.succ_pos _) _
  | join i => exact Nat.add_pos_left (Nat.succ_pos _) _
  | exited outcome => rw [hmain] at h; cases h
  | undefined => rw [hmain] at h; cases h

theorem sum_map_set_lt {threads : List Thread} {j : Nat} {old thread : Thread}
    (hj : threads[j]? = some old) (hlt : thread.left < old.left) :
    ((threads.set j thread).map Thread.left).sum < (threads.map Thread.left).sum := by
  induction threads generalizing j with
  | nil => cases hj
  | cons head threads ih =>
    cases j with
    | zero =>
      cases hj
      simpa using hlt
    | succ j => simpa using ih hj

/-- A thread that goes on uses up a step. -/
theorem left_setThread {n j : Nat} {old thread : Thread} (hrunning : s.main.ended = false)
    (hj : s.threads[j]? = some old) (hlt : thread.left < old.left) (mutex : Option Nat)
    (total : Int) : State.left { s.setThread j thread with mutex, total } n < s.left n := by
  have hsum := sum_map_set_lt hj hlt
  rw [left_of_running hrunning, left_of_running (s := { s.setThread j thread with mutex, total })
    hrunning]
  exact Nat.add_lt_add_left hsum _

/-- `main` goes on. -/
theorem left_main {n : Nat} {main : Main} (hrunning : s.main.ended = false)
    (hended : main.ended = false) (hlt : main.left n < s.main.left n) :
    State.left { s with main } n < s.left n := by
  rw [left_of_running hrunning, left_of_running (s := { s with main }) hended]
  exact Nat.add_lt_add_right hlt _

theorem running_of_next {event : Event} (h : next values s event = some s') :
    s.main.ended = false := by
  unfold next at h
  cases hmain : s.main with
  | start => rfl
  | create i => rfl
  | join i => rfl
  | exited outcome => rw [hmain] at h; cases h
  | undefined => rw [hmain] at h; cases h

/-- **Every step** uses one up. -/
theorem Step.left_lt {status : Int} (h : Step values s status s')
    (hrunning : s.main.ended = false) : s'.left values.length < s.left values.length := by
  have hended : s'.main.ended = true → s'.left values.length < s.left values.length := by
    intro hended
    rw [left_of_ended hended]
    exact left_pos hrunning
  cases h with
  | begin hmain =>
    refine left_main hrunning rfl ?_
    rw [hmain]
    show 7 * (values.length - 0) + values.length + 2 < 8 * values.length + 3
    omega
  | @create i hmain hi =>
    rw [left_of_running rfl, left_of_running hrunning, hmain, List.map_append, List.sum_append]
    show 7 * (values.length - (i + 1)) + values.length + 2 + (_ + 6) <
      7 * (values.length - i) + values.length + 2 + _
    omega
  | @created i hmain hi =>
    refine left_main hrunning rfl ?_
    rw [hmain]
    show values.length - 0 + 1 < 7 * (values.length - i) + values.length + 2
    omega
  | @join i hmain hi hfinished =>
    refine left_main hrunning rfl ?_
    rw [hmain]
    show values.length - (i + 1) + 1 < values.length - i + 1
    omega
  | joined hmain hi => exact hended rfl
  | fail hstatus hcode => exact hended rfl
  | failCreate hmain hi hstatus hcode => exact hended rfl
  | undefined hwrong => exact hended rfl
  | index hj hindex => exact left_setThread hrunning hj (Nat.lt_succ_self _) s.mutex s.total
  | calculate hj hvalue => exact left_setThread hrunning hj (Nat.lt_succ_self _) s.mutex s.total
  | lock hj hmutex => exact left_setThread hrunning hj (Nat.lt_succ_self _) _ s.total
  | load hj => exact left_setThread hrunning hj (Nat.lt_succ_self _) s.mutex s.total
  | store hj htotal => exact left_setThread hrunning hj (Nat.lt_succ_self _) s.mutex _
  | unlock hj => exact left_setThread hrunning hj (Nat.lt_succ_self _) _ s.total

/-- **Termination**: no schedule is longer than this. -/
theorem length_le_of_run {events : List Event} (h : run values events = some s) :
    events.length ≤ 8 * values.length + 3 :=
  length_le_measure (P := fun _ => True) (μ := fun s => s.left values.length)
    (fun _ _ _ _ hnext => ⟨trivial, (step_of_next hnext).left_lt (running_of_next hnext)⟩) h
    trivial

/-! ## Somebody can go on -/

/-- A mutex that is locked is held by a thread that will unlock it. -/
def State.Owned (s : State) : Prop :=
  ∀ k, s.mutex = some k → ∃ thread, s.threads[k]? = some thread ∧ thread.holds = true

theorem State.Owned.setThread (h : s.Owned) {j : Nat} {old : Thread}
    (hj : s.threads[j]? = some old) (thread : Thread) (hsame : thread.holds = old.holds)
    (total : Int) :
    State.Owned { s.setThread j thread with total } := by
  intro k hk
  obtain ⟨owner, howner, hholds⟩ := h k hk
  show ∃ owner, (s.setThread j thread).threads[k]? = some owner ∧ _
  rw [getElem?_setThread hj]
  by_cases heq : k = j
  · rw [heq, hj] at howner
    cases howner
    exact ⟨thread, if_pos heq, hsame.trans hholds⟩
  · exact ⟨owner, by rw [if_neg heq, howner], hholds⟩

theorem State.Owned.step (h : s.Owned) {status : Int} (hstep : Step values s status s') :
    s'.Owned := by
  cases hstep with
  | begin hmain => exact h
  | create hmain hi =>
    intro k hk
    obtain ⟨owner, howner, hholds⟩ := h k hk
    exact ⟨owner, (List.getElem?_append_left (lt_length howner)).trans howner, hholds⟩
  | created hmain hi => exact h
  | join hmain hi hfinished => exact h
  | joined hmain hi => exact h
  | fail hstatus hcode => exact h
  | failCreate hmain hi hstatus hcode => exact h
  | undefined hwrong => exact h
  | index hj hindex => exact h.setThread hj (.indexed _) rfl s.total
  | calculate hj hvalue => exact h.setThread hj (.calculated _) rfl s.total
  | @lock j value hj hmutex =>
    intro k hk
    cases hk
    exact ⟨.locked value, by rw [getElem?_setThread hj, if_pos rfl], rfl⟩
  | load hj => exact h.setThread hj (.loaded _ s.total) rfl s.total
  | store hj htotal => exact h.setThread hj .stored rfl _
  | unlock hj => exact nofun

/-- Only a thread that waits for the mutex cannot go on. -/
theorem exists_nextThread {j : Nat} {thread : Thread} (hj : s.threads[j]? = some thread)
    (hthread : thread ≠ .finished) (hmutex : s.mutex = none ∨ thread.holds = true) :
    ∃ s', nextThread values s j 0 = some s' := by
  unfold nextThread
  rw [hj]
  cases thread with
  | started slot =>
    dsimp only
    split <;> exact ⟨_, rfl⟩
  | indexed index =>
    dsimp only
    split <;> exact ⟨_, rfl⟩
  | calculated value =>
    rcases hmutex with hmutex | hholds
    · rw [hmutex]
      exact ⟨_, rfl⟩
    · cases hholds
  | locked value => exact ⟨_, rfl⟩
  | loaded value seen =>
    dsimp only
    split <;> exact ⟨_, rfl⟩
  | stored => exact ⟨_, rfl⟩
  | finished => exact absurd rfl hthread

theorem next_thread (h : s.main.ended = false) (j : Nat) (status : Int) :
    next values s (.thread j status) = nextThread values s j status := by
  unfold next
  cases hmain : s.main with
  | start => rfl
  | create i => rfl
  | join i => rfl
  | exited outcome => rw [hmain] at h; cases h
  | undefined => rw [hmain] at h; cases h

/-- `main` can go on, unless it waits for a thread. -/
theorem exists_nextMain (hrunning : s.main.ended = false)
    (hjoin : ∀ i, s.main = .join i → i < values.length → s.threads[i]? = some .finished) :
    ∃ s', next values s (.main 0) = some s' := by
  unfold next nextMain
  cases hmain : s.main with
  | start => exact ⟨_, rfl⟩
  | create i =>
    dsimp only
    split <;> exact ⟨_, rfl⟩
  | join i =>
    dsimp only
    split
    · next hi =>
      rw [hjoin i hmain hi]
      exact ⟨_, rfl⟩
    · exact ⟨_, rfl⟩
  | exited outcome => rw [hmain] at hrunning; cases hrunning
  | undefined => rw [hmain] at hrunning; cases hrunning

/-- **No deadlock.** -/
theorem exists_next (h : Invariant values s) (howned : s.Owned) (hrunning : s.main.ended = false) :
    ∃ event s', event.status = 0 ∧ next values s event = some s' := by
  by_cases hjoin : ∀ i, s.main = .join i → i < values.length → s.threads[i]? = some .finished
  · obtain ⟨s', hs'⟩ := exists_nextMain hrunning hjoin
    exact ⟨.main 0, s', rfl, hs'⟩
  · simp only [not_forall] at hjoin
    obtain ⟨i, hmain, hi, hunfinished⟩ := hjoin
    have hlt : i < s.threads.length := by rw [(h.of_join hmain).1]; exact hi
    -- who is to move: the thread with the mutex, or else the one that `main` waits for
    have hmoves : ∃ j s', nextThread values s j 0 = some s' := by
      cases hmutex : s.mutex with
      | none =>
        have hget := List.getElem?_eq_getElem hlt
        exact ⟨i, exists_nextThread hget (fun heq => hunfinished (heq ▸ hget)) (.inl hmutex)⟩
      | some k =>
        obtain ⟨owner, howner, hholds⟩ := howned k hmutex
        refine ⟨k, exists_nextThread howner ?_ (.inr hholds)⟩
        rintro rfl
        cases hholds
    obtain ⟨j, s', hs'⟩ := hmoves
    exact ⟨.thread j 0, s', rfl, (next_thread hrunning j 0).trans hs'⟩

theorem owned_of_run {events : List Event} (h : run values events = some s) : s.Owned :=
  run_invariant h (fun _ _ _ _ hs hnext => hs.step (step_of_next hnext)) nofun

/-- **No schedule goes wrong.** Whatever the order of the steps and whichever calls fail, at
most one thread is between the lock and the unlock, the run is no longer than `8 * n + 3`
steps, and a run that cannot go on with calls that succeed is one whose process is over. -/
theorem no_deadlock (values : List Int) (events : List Event) (s : State)
    (h : run values events = some s) :
    (∀ (j k : Nat) (thread other : Thread), s.threads[j]? = some thread →
      s.threads[k]? = some other → thread.holds = true → other.holds = true → j = k) ∧
    events.length ≤ 8 * values.length + 3 ∧
    ((∀ event, event.status = 0 → next values s event = none) → s.main.ended = true) := by
  have hinv := invariant_of_run h
  refine ⟨?_, length_le_of_run h, ?_⟩
  · intro j k thread other hj hk hthread hother
    exact hinv.exclusive hj hk hthread hother
  · intro hstuck
    by_contra hrunning
    obtain ⟨event, s', hstatus, hs'⟩ :=
      exists_next hinv (owned_of_run h) (Bool.eq_false_of_not_eq_true hrunning)
    have hnone := hstuck event hstatus
    rw [hs'] at hnone
    cases hnone

/-- The second thread holds the mutex while the first one waits for it. -/
theorem no_deadlock_waiting : ∃ s, run [1, 32] (overlapping.take 8) = some s ∧
    ¬ ∀ event, event.status = 0 → next [1, 32] s event = none := by
  have hrun := no_deadlock [1, 32] (overlapping.take 8) _ rfl
  refine ⟨_, rfl, ?_⟩
  intro hstuck
  exact absurd (hrun.2.2 hstuck) (by decide)

/-- **Every run can be completed**, with calls that succeed. -/
theorem exists_run_ended {events : List Event} (h : run values events = some s) :
    ∃ more s', (∀ event ∈ more, event.status = 0) ∧
      Interleaving.run (next values) s more = some s' ∧ s'.main.ended = true := by
  have howned := owned_of_run h
  refine exists_run (P := fun s => Invariant values s ∧ s.Owned)
    (μ := fun s => s.left values.length) ?_ ?_ ⟨invariant_of_run h, howned⟩
  · rintro s event s' ⟨hs, howned⟩ hnext
    have hstep := step_of_next hnext
    exact ⟨⟨hs.step hstep, howned.step hstep⟩, hstep.left_lt (running_of_next hnext)⟩
  · rintro s ⟨hs, howned⟩ hrunning
    exact exists_next hs howned (Bool.not_eq_true _ ▸ hrunning)

/-! ## What is printed -/

/-- No order of adding the results overflows. -/
def Fits (values : List Int) : Prop :=
  ∀ js ⊆ Finset.range values.length, CInt.InRange (∑ j ∈ js, share values j)

theorem share_eq {j : Nat} {value : Int} (h : values[j]? = some value) :
    share values j = result value := by
  rw [share, h]
  rfl

theorem Fits.calculateValue_eq (h : Fits values) {j : Nat} {value : Int}
    (hj : values[j]? = some value) : calculateValue value = some (result value) := by
  have hlt := (List.getElem?_eq_some_iff.mp hj).1
  have hrange := h {j} (Finset.singleton_subset_iff.mpr (Finset.mem_range.mpr hlt))
  rw [Finset.sum_singleton, share_eq hj] at hrange
  exact calculateValue_of_inRange hrange

/-- Nothing is undefined then. -/
theorem Fits.not_wrong (h : Fits values) (hinv : Invariant values s)
    (hexact : (ledger values s).Exact (share values)) : ¬ Wrong values s := by
  rintro (⟨hj, hindex⟩ | ⟨hj, hvalue⟩ | ⟨hj, htotal⟩)
  · obtain rfl := hinv.threads _ _ hj
    exact hindex _ (hinv.indexes _ (lt_length hj))
  · obtain rfl := hinv.threads _ _ hj
    have hindex := hinv.indexes _ (lt_length hj)
    have hlt := (List.getElem?_eq_some_iff.mp hindex).1
    rw [hinv.length] at hlt
    have hget := List.getElem?_eq_getElem hlt
    rw [hget, Option.bind_some, h.calculateValue_eq hget] at hvalue
    cases hvalue
  · obtain ⟨hresult, -, rfl⟩ := hinv.threads _ _ hj
    obtain ⟨v, hv, rfl⟩ := Option.map_eq_some_iff.mp hresult
    have hlt := (List.getElem?_eq_some_iff.mp hv).1
    have hsum := h (insert _ (s.stored values.length))
      (Finset.insert_subset (Finset.mem_range.mpr hlt) (Finset.filter_subset _ _))
    have htotal' : s.total = ∑ j ∈ s.stored values.length, share values j := hexact
    rw [Finset.sum_insert (not_mem_stored hj rfl), share_eq hv, add_comm, ← htotal'] at hsum
    rw [CInt.add, CInt.check_of_inRange hsum] at htotal
    cases htotal

/-- `loop.c` adds the results in one of these orders. -/
theorem Fits.main_loop (h : Fits values) :
    Loop.main values = some (.printed (values.map result).sum []) := by
  have hprefix : ∀ k ≤ values.length,
      Loop.accumulate 0 (values.take k) = some (∑ j ∈ Finset.range k, share values j) := by
    intro k
    induction k with
    | zero => exact fun _ => rfl
    | succ k ih =>
      intro hk
      have hget := List.getElem?_eq_getElem (show k < values.length from hk)
      have hsum := h (Finset.range (k + 1)) (Finset.range_subset_range.mpr hk)
      have hbefore := ih (Nat.le_of_succ_le hk)
      rw [Finset.sum_range_succ, share_eq hget] at hsum ⊢
      rw [List.take_add_one, hget, Loop.accumulate, List.foldlM_append, ← Loop.accumulate, hbefore]
      show ((calculateValue values[k]).bind fun n => CInt.add _ n).bind some = _
      rw [h.calculateValue_eq hget, Option.bind_some, CInt.add, CInt.check_of_inRange hsum]
      rfl
  have hall := hprefix values.length (Nat.le_refl _)
  rw [List.take_length, sum_share] at hall
  rw [Loop.main, hall]
  rfl

/-- How a run without failures is, between any two steps. -/
structure Clean (values : List Int) (s : State) : Prop where
  invariant : Invariant values s
  exact : (ledger values s).Exact (share values)
  exitCode : s.main.ended = true → ∃ outcome, s.main = .exited outcome ∧ outcome.exitCode = 0

theorem Clean.step (hfits : Fits values) (h : Clean values s) (hstep : Step values s 0 s')
    (hrunning : s.main.ended = false) : Clean values s' where
  invariant := h.invariant.step hstep
  exact := Ledger.exact_of_reflGen (h.invariant.refines hstep) h.exact
  exitCode := by
    have hsame : s'.main = s.main → s'.main.ended = true →
        ∃ outcome, s'.main = .exited outcome ∧ outcome.exitCode = 0 := by
      intro hmain hended
      rw [hmain, hrunning] at hended
      cases hended
    cases hstep with
    | begin hmain => exact nofun
    | create hmain hi => exact nofun
    | created hmain hi => exact nofun
    | join hmain hi hfinished => exact nofun
    | joined hmain hi => exact fun _ => ⟨_, rfl, rfl⟩
    | fail hstatus hcode => exact absurd rfl hstatus
    | failCreate hmain hi hstatus hcode => exact absurd rfl hstatus
    | undefined hwrong => exact absurd hwrong (hfits.not_wrong h.invariant h.exact)
    | index hj hindex => exact hsame rfl
    | calculate hj hvalue => exact hsame rfl
    | lock hj hmutex => exact hsame rfl
    | load hj => exact hsame rfl
    | store hj htotal => exact hsame rfl
    | unlock hj => exact hsame rfl

/-- **The outcome.** If no order of adding overflows and all calls succeed, a run that is
over has ended as `loop.c` does. -/
theorem main_of_ended (hfits : Fits values) {events : List Event}
    (h : run values events = some s) (hstatus : ∀ event ∈ events, event.status = 0)
    (hended : s.main.ended = true) :
    ∃ outcome, s.main = .exited outcome ∧ Loop.main values = some outcome := by
  have hclean : Clean values s := by
    refine run_invariant h ?_ ⟨inv_init, ledger_exact_init values, nofun⟩
    intro s event hevent s' hs hnext
    have hstep := step_of_next hnext
    rw [hstatus event hevent] at hstep
    exact hs.step hfits hstep (running_of_next hnext)
  obtain ⟨outcome, hmain, hcode⟩ := hclean.exitCode hended
  have hok := hclean.invariant.main
  rw [hmain] at hok
  obtain ⟨hfinished, rfl⟩ := hok hcode
  have htotal : s.total = ∑ j ∈ s.stored values.length, share values j := hclean.exact
  rw [stored_of_allFinished hfinished, sum_share] at htotal
  exact ⟨_, hmain, htotal ▸ hfits.main_loop⟩

end Threads

end Totals

end Cosc240
