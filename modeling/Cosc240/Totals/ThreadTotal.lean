import Cosc240.Totals.Thread

/-!
# The total of the threads

Whoever is between the read and the write of the total holds the mutex, and at most one thread does,
so the total has not changed since it was read (thread.c:22–40). Seen from outside, a run is a
`Ledger`: a step leaves it alone, or adds the result of a thread that has not added it before.

- `Step`: the steps of `main` and of the threads, with what they find. `step_of_next` says that
  every step is one of these, so that each invariant is shown by cases on them.
- `Thread.Ok`, `Main.Ok`, `Invariant`: what a thread knows under the mutex and the total, what
  `main` knows about the threads, and both together.
- `share` and `ledger`: what a thread is to add, and who has added it.

Main results:

- `Invariant.step` and `invariant_of_run`: one step keeps the invariant, and so does a run.
- `Invariant.exclusive`: at most one thread is between the lock and the unlock.
- `Invariant.refines`: a step is one of the ledger, or none.
- `total_eq_sum_stored`: at any time the total is what has been added.
- `total_of_run`: at any time the total is the sum of what the threads have stored. With all threads
  finished it is the sum of all results, under every schedule, and so the total of `loop.c`.
-/

namespace Cosc240

open Lib Interleaving

namespace Totals

namespace Threads

variable {values : List Int} {s s' : State}

/-! ## What a step can be -/

/-- Undefined behaviour that the next step of a thread can be. -/
inductive Wrong (values : List Int) (s : State) : Prop
  | index {j slot : Nat} (h : s.threads[j]? = some (.started slot))
    (hindex : ∀ index, s.indexes[slot]? ≠ some (some index))
  | calculate {j index : Nat} (h : s.threads[j]? = some (.indexed index))
    (hvalue : values[index]?.bind calculateValue = none)
  | store {j : Nat} {value seen : Int} (h : s.threads[j]? = some (.loaded value seen))
    (htotal : CInt.add seen value = none)

/-- The steps of `main` and of the threads, with what they find; `status` is what a
`pthread` function has returned. -/
inductive Step (values : List Int) (s : State) (status : Int) : State → Prop
  | begin (h : s.main = .start) : Step values s status { s with main := .create 0 }
  | create {i : Nat} (h : s.main = .create i) (hi : i < values.length) :
    Step values s status { s with
      indexes := s.indexes.set i (some i), threads := s.threads ++ [.started i],
      main := .create (i + 1) }
  | created {i : Nat} (h : s.main = .create i) (hi : ¬ i < values.length) :
    Step values s status { s with main := .join 0 }
  | join {i : Nat} (h : s.main = .join i) (hi : i < values.length)
    (hfinished : s.threads[i]? = some .finished) :
    Step values s status { s with main := .join (i + 1) }
  | joined {i : Nat} (h : s.main = .join i) (hi : ¬ i < values.length) :
    Step values s status { s with main := .exited (.printed s.total []) }
  | fail {code : Int} {message : String} (hstatus : status ≠ 0) (hcode : code ≠ 0) :
    Step values s status (s.exit code message)
  | failCreate {i : Nat} {code : Int} {message : String} (h : s.main = .create i)
    (hi : i < values.length) (hstatus : status ≠ 0) (hcode : code ≠ 0) :
    Step values s status { s.exit code message with indexes := s.indexes.set i (some i) }
  | undefined (h : Wrong values s) : Step values s status s.undefined
  | index {j slot index : Nat} (h : s.threads[j]? = some (.started slot))
    (hindex : s.indexes[slot]? = some (some index)) :
    Step values s status (s.setThread j (.indexed index))
  | calculate {j index : Nat} {value : Int} (h : s.threads[j]? = some (.indexed index))
    (hvalue : values[index]?.bind calculateValue = some value) :
    Step values s status (s.setThread j (.calculated value))
  | lock {j : Nat} {value : Int} (h : s.threads[j]? = some (.calculated value))
    (hmutex : s.mutex = none) :
    Step values s status { s.setThread j (.locked value) with mutex := some j }
  | load {j : Nat} {value : Int} (h : s.threads[j]? = some (.locked value)) :
    Step values s status (s.setThread j (.loaded value s.total))
  | store {j : Nat} {value seen total : Int} (h : s.threads[j]? = some (.loaded value seen))
    (htotal : CInt.add seen value = some total) :
    Step values s status { s.setThread j .stored with total }
  | unlock {j : Nat} (h : s.threads[j]? = some .stored) :
    Step values s status { s.setThread j .finished with mutex := none }

/-- What `main` can do. -/
theorem step_of_nextMain {status : Int} (h : nextMain values s status = some s') :
    Step values s status s' := by
  unfold nextMain at h
  split at h
  · next hmain =>
    split at h
    · next hstatus =>
      cases h
      exact .fail hstatus (by decide)
    · cases h
      exact .begin hmain
  · next i hmain =>
    split at h
    · next hi =>
      dsimp only at h
      split at h
      · next hstatus =>
        cases h
        exact .failCreate hmain hi hstatus (by decide)
      · cases h
        exact .create hmain hi
    · next hi =>
      cases h
      exact .created hmain hi
  · next i hmain =>
    split at h
    · next hi =>
      split at h
      · next hstatus =>
        cases h
        exact .fail hstatus (by decide)
      · split at h
        · next hfinished =>
          cases h
          exact .join hmain hi hfinished
        · cases h
    · next hi =>
      cases h
      exact .joined hmain hi
  · cases h
  · cases h

/-- What a thread can do. -/
theorem step_of_nextThread {j : Nat} {status : Int} (h : nextThread values s j status = some s') :
    Step values s status s' := by
  unfold nextThread at h
  split at h
  · cases h
  · next slot hthread =>
    split at h
    · next index hindex =>
      cases h
      exact .index hthread hindex
    · next hindex =>
      cases h
      exact .undefined (.index hthread hindex)
  · next index hthread =>
    split at h
    · next value hvalue =>
      cases h
      exact .calculate hthread hvalue
    · next hvalue =>
      cases h
      exact .undefined (.calculate hthread hvalue)
  · next value hthread =>
    split at h
    · next hstatus =>
      cases h
      exact .fail hstatus (by decide)
    · split at h
      · next hmutex =>
        cases h
        exact .lock hthread hmutex
      · cases h
  · next value hthread =>
    cases h
    exact .load hthread
  · next value seen hthread =>
    split at h
    · next total htotal =>
      cases h
      exact .store hthread htotal
    · next htotal =>
      cases h
      exact .undefined (.store hthread htotal)
  · next hthread =>
    split at h
    · next hstatus =>
      cases h
      exact .fail hstatus (by decide)
    · cases h
      exact .unlock hthread
  · cases h

/-- What the function returns that is called in this step. -/
def Event.status : Event → Int
  | .main status => status
  | .thread _ status => status

/-- **Every step** is one of these. -/
theorem step_of_next {event : Event} (h : next values s event = some s') :
    Step values s event.status s' := by
  unfold next at h
  split at h
  · cases h
  · cases h
  · exact step_of_nextMain h
  · exact step_of_nextThread h

/-! ## The invariant -/

/-- `value` is the result of the `j`-th value. -/
def IsResult (values : List Int) (j : Nat) (value : Int) : Prop :=
  values[j]?.map result = some value

/-- What the `j`-th thread knows, under the mutex and the total. -/
def Thread.Ok (values : List Int) (mutex : Option Nat) (total : Int) (j : Nat) : Thread → Prop
  | .started slot => slot = j
  | .indexed index => index = j
  | .calculated value => IsResult values j value
  | .locked value => IsResult values j value ∧ mutex = some j
  | .loaded value seen => IsResult values j value ∧ mutex = some j ∧ seen = total
  | .stored => mutex = some j
  | .finished => True

/-- What `main` knows about the threads. -/
def Main.Ok (n : Nat) (s : State) : Main → Prop
  | .start => s.threads = []
  | .create i => s.threads.length = i ∧ i ≤ n
  | .join i => s.threads.length = n ∧ ∀ j < i, s.threads[j]? = some .finished
  | .exited outcome => outcome.exitCode = 0 → s.AllFinished n ∧ outcome = .printed s.total []
  | .undefined => True

/-- What holds between any two steps. -/
structure Invariant (values : List Int) (s : State) : Prop where
  length : s.indexes.length = values.length
  indexes : ∀ j < s.threads.length, s.indexes[j]? = some (some j)
  threads : ∀ j (thread : Thread), s.threads[j]? = some thread →
    thread.Ok values s.mutex s.total j
  main : s.main.Ok values.length s

/-- A thread without the mutex does not notice what the others do. -/
theorem Thread.Ok.of_ne {thread : Thread} {mutex : Option Nat} {total : Int} {j : Nat}
    (h : thread.Ok values mutex total j) (hne : mutex ≠ some j) (mutex' : Option Nat)
    (total' : Int) : thread.Ok values mutex' total' j := by
  cases thread with
  | started slot => exact h
  | indexed index => exact h
  | calculated value => exact h
  | locked value => exact absurd h.2 hne
  | loaded value seen => exact absurd h.2.1 hne
  | stored => exact absurd h hne
  | finished => trivial

theorem lt_length {j : Nat} {thread : Thread} (h : s.threads[j]? = some thread) :
    j < s.threads.length :=
  (List.getElem?_eq_some_iff.mp h).1

/-- One thread goes on, and the others are where they were. -/
theorem getElem?_setThread {j : Nat} {old : Thread} (h : s.threads[j]? = some old)
    (thread : Thread) (k : Nat) :
    (s.setThread j thread).threads[k]? = if k = j then some thread else s.threads[k]? := by
  show (s.threads.set j thread)[k]? = _
  rw [List.getElem?_set, if_pos (lt_length h)]
  by_cases hk : k = j
  · rw [if_pos hk, if_pos hk.symm]
  · rw [if_neg hk, if_neg (Ne.symm hk)]

theorem length_setThread (j : Nat) (thread : Thread) :
    (s.setThread j thread).threads.length = s.threads.length :=
  List.length_set

theorem inv_init : Invariant values (init values) where
  length := List.length_replicate
  indexes := fun j hj => absurd hj (Nat.not_lt_zero j)
  threads := fun _ _ h => nomatch h
  main := rfl

/-- `main` does not notice that a thread goes on. -/
theorem Main.Ok.setThread {main : Main} {n : Nat} (h : main.Ok n s) {j : Nat} {old : Thread}
    (hj : s.threads[j]? = some old) (hold : old ≠ .finished) {thread : Thread}
    {mutex : Option Nat} {total : Int} :
    main.Ok n { s.setThread j thread with mutex, total } := by
  cases main with
  | start =>
    rw [show s.threads = [] from h] at hj
    cases hj
  | create i => exact ⟨(length_setThread j thread).trans h.1, h.2⟩
  | join i =>
    refine ⟨(length_setThread j thread).trans h.1, ?_⟩
    intro k hk
    show (s.setThread j thread).threads[k]? = _
    rw [getElem?_setThread hj, if_neg, h.2 k hk]
    rintro rfl
    rw [h.2 k hk] at hj
    exact hold (Option.some.inj hj).symm
  | exited outcome =>
    intro hcode
    exact absurd ((h hcode).1.2 old (List.mem_of_getElem? hj)) hold
  | undefined => trivial

/-- One thread goes on, and perhaps changes the mutex and the total, if no other thread
holds the mutex. -/
theorem Invariant.setThread (h : Invariant values s) {j : Nat} {old thread : Thread}
    (hj : s.threads[j]? = some old) (hold : old ≠ .finished) {mutex : Option Nat} {total : Int}
    (hothers : (mutex = s.mutex ∧ total = s.total) ∨ ∀ k, k ≠ j → s.mutex ≠ some k)
    (hthread : thread.Ok values mutex total j) :
    Invariant values { s.setThread j thread with mutex, total } where
  length := h.length
  indexes := by
    intro k hk
    exact h.indexes k (hk.trans_eq (length_setThread j thread))
  threads := by
    intro k other hk
    have hk' : (s.setThread j thread).threads[k]? = some other := hk
    rw [getElem?_setThread hj] at hk'
    split at hk'
    · next heq =>
      cases hk'
      exact heq ▸ hthread
    · next hne =>
      have hok := h.threads k other hk'
      rcases hothers with ⟨rfl, rfl⟩ | hfree
      · exact hok
      · exact hok.of_ne (hfree k hne) mutex total
  main := h.main.setThread hj hold

/-! ### Where `main` is -/

theorem Invariant.of_start (h : Invariant values s) (hmain : s.main = .start) : s.threads = [] := by
  have hok := h.main
  rwa [hmain] at hok

theorem Invariant.of_create (h : Invariant values s) {i : Nat} (hmain : s.main = .create i) :
    s.threads.length = i ∧ i ≤ values.length := by
  have hok := h.main
  rwa [hmain] at hok

/-- When `main` waits, everybody has been created, and those it has waited for have finished. -/
theorem Invariant.of_join (h : Invariant values s) {i : Nat} (hmain : s.main = .join i) :
    s.threads.length = values.length ∧ ∀ j < i, s.threads[j]? = some .finished := by
  have hok := h.main
  rwa [hmain] at hok

/-- What the new thread finds at its address. -/
theorem Invariant.indexes_set (h : Invariant values s) {i : Nat} (hmain : s.main = .create i)
    (hi : i < values.length) : ∀ j < i + 1, (s.indexes.set i (some i))[j]? = some (some j) := by
  intro j hj
  rw [List.getElem?_set]
  split
  · next heq => rw [if_pos (by rw [h.length]; exact hi), heq]
  · next hne => exact h.indexes j (by rw [(h.of_create hmain).1]; omega)

/-- A new thread. -/
theorem Invariant.create (h : Invariant values s) {i : Nat} (hmain : s.main = .create i)
    (hi : i < values.length) :
    Invariant values { s with
      indexes := s.indexes.set i (some i), threads := s.threads ++ [.started i],
      main := .create (i + 1) } := by
  have hcreated := (h.of_create hmain).1
  have hlength : (s.threads ++ [Thread.started i]).length = i + 1 := by
    rw [List.length_append, hcreated, List.length_singleton]
  refine ⟨(List.length_set ..).trans h.length, ?_, ?_, hlength, hi⟩
  · intro j hj
    exact h.indexes_set hmain hi j (hj.trans_eq hlength)
  · intro j thread hj
    have hlt : j < i + 1 := hlength ▸ lt_length hj
    rcases Nat.lt_succ_iff_lt_or_eq.mp hlt with hlt | rfl
    · rw [List.getElem?_append_left (hlt.trans_eq hcreated.symm)] at hj
      exact h.threads j thread hj
    · rw [← hcreated, List.getElem?_concat_length] at hj
      cases hj
      exact hcreated

/-- All threads have been joined. -/
theorem Invariant.allFinished (h : Invariant values s) {i : Nat} (hmain : s.main = .join i)
    (hi : ¬ i < values.length) : s.AllFinished values.length := by
  obtain ⟨hlength, hjoined⟩ := h.of_join hmain
  refine ⟨hlength, ?_⟩
  intro thread hthread
  obtain ⟨j, hj⟩ := List.mem_iff_getElem?.mp hthread
  have hlt : j < s.threads.length := lt_length hj
  rw [hjoined j (by rw [hlength] at hlt; omega)] at hj
  exact (Option.some.inj hj).symm

/-- No thread holds the mutex besides its owner. -/
theorem ne_some_of_mutex {j k : Nat} (h : s.mutex = some j) (hk : k ≠ j) : s.mutex ≠ some k := by
  intro hholds
  exact hk (Option.some.inj (hholds.symm.trans h))

/-- **One step** keeps the invariant. -/
theorem Invariant.step (h : Invariant values s) {status : Int}
    (hstep : Step values s status s') : Invariant values s' := by
  cases hstep with
  | begin hmain =>
    exact ⟨h.length, h.indexes, h.threads, congrArg List.length (h.of_start hmain), Nat.zero_le _⟩
  | create hmain hi => exact h.create hmain hi
  | created hmain hi =>
    obtain ⟨hlength, hle⟩ := h.of_create hmain
    refine ⟨h.length, h.indexes, h.threads, ?_, fun j hj => absurd hj (Nat.not_lt_zero j)⟩
    exact hlength.trans (Nat.le_antisymm hle (not_lt.mp hi))
  | join hmain hi hfinished =>
    obtain ⟨hlength, hjoined⟩ := h.of_join hmain
    refine ⟨h.length, h.indexes, h.threads, hlength, ?_⟩
    intro j hj
    rcases Nat.lt_succ_iff_lt_or_eq.mp hj with hlt | rfl
    · exact hjoined j hlt
    · exact hfinished
  | joined hmain hi =>
    exact ⟨h.length, h.indexes, h.threads, fun _ => ⟨h.allFinished hmain hi, rfl⟩⟩
  | fail hstatus hcode => exact ⟨h.length, h.indexes, h.threads, fun hzero => absurd hzero hcode⟩
  | failCreate hmain hi hstatus hcode =>
    refine ⟨(List.length_set ..).trans h.length, ?_, h.threads, fun hzero => absurd hzero hcode⟩
    intro j hj
    exact h.indexes_set hmain hi j (Nat.lt_succ_of_lt (hj.trans_eq (h.of_create hmain).1))
  | undefined hwrong => exact ⟨h.length, h.indexes, h.threads, trivial⟩
  | @index j slot index hj hindex =>
    obtain rfl : slot = j := h.threads j _ hj
    rw [h.indexes slot (lt_length hj)] at hindex
    exact h.setThread hj nofun (.inl ⟨rfl, rfl⟩) (Option.some.inj (Option.some.inj hindex)).symm
  | @calculate j index value hj hvalue =>
    obtain rfl : index = j := h.threads j _ hj
    obtain ⟨v, hv, hresult⟩ := Option.bind_eq_some_iff.mp hvalue
    refine h.setThread hj nofun (.inl ⟨rfl, rfl⟩) ?_
    show values[index]?.map result = some value
    rw [hv, calculateValue_eq_some hresult]
    rfl
  | @lock j value hj hmutex =>
    refine h.setThread hj nofun (.inr fun k _ => ?_) ⟨h.threads j _ hj, rfl⟩
    rw [hmutex]
    exact nofun
  | load hj =>
    obtain ⟨hresult, hmutex⟩ := h.threads _ _ hj
    exact h.setThread hj nofun (.inl ⟨rfl, rfl⟩) ⟨hresult, hmutex, rfl⟩
  | store hj htotal =>
    obtain ⟨-, hmutex, -⟩ := h.threads _ _ hj
    exact h.setThread hj nofun (.inr fun _ hk => ne_some_of_mutex hmutex hk) hmutex
  | unlock hj =>
    have hmutex : s.mutex = some _ := h.threads _ _ hj
    exact h.setThread hj nofun (.inr fun _ hk => ne_some_of_mutex hmutex hk) trivial

/-- Every run keeps the invariant. -/
theorem invariant_of_run {events : List Event} (h : run values events = some s) :
    Invariant values s :=
  run_invariant h (fun _ _ _ _ hs hnext => hs.step (step_of_next hnext)) inv_init

/-! ## Mutual exclusion -/

/-- Between `pthread_mutex_lock` and the end of `pthread_mutex_unlock`. -/
def Thread.holds : Thread → Bool
  | .locked _ | .loaded _ _ | .stored => true
  | _ => false

/-- Whoever is under the mutex owns it. -/
theorem Invariant.mutex_eq (h : Invariant values s) {j : Nat} {thread : Thread}
    (hj : s.threads[j]? = some thread) (hholds : thread.holds = true) : s.mutex = some j := by
  have hok := h.threads j thread hj
  cases thread with
  | locked value => exact hok.2
  | loaded value seen => exact hok.2.1
  | stored => exact hok
  | started slot => cases hholds
  | indexed index => cases hholds
  | calculated value => cases hholds
  | finished => cases hholds

/-- **At most one thread** is between the lock and the unlock. -/
theorem Invariant.exclusive (h : Invariant values s) {j k : Nat} {thread other : Thread}
    (hj : s.threads[j]? = some thread) (hk : s.threads[k]? = some other)
    (hholds : thread.holds = true) (hother : other.holds = true) : j = k :=
  Option.some.inj ((h.mutex_eq hj hholds).symm.trans (h.mutex_eq hk hother))

/-! ## The ledger -/

/-- The total has been written. -/
def Thread.hasStored : Thread → Bool
  | .stored | .finished => true
  | _ => false

/-- What the `j`-th thread is to add. -/
def share (values : List Int) (j : Nat) : Int := (values[j]?.map result).getD 0

/-- The threads that have written the total. -/
def State.stored (s : State) (n : Nat) : Finset Nat :=
  (Finset.range n).filter fun j => s.threads[j]?.any Thread.hasStored

/-- What the total is for. -/
def ledger (values : List Int) (s : State) : Ledger Nat Int :=
  ⟨s.stored values.length, s.total⟩

theorem stored_congr {n : Nat} (h : ∀ j : Nat, s'.threads[j]?.any Thread.hasStored =
    s.threads[j]?.any Thread.hasStored) : s'.stored n = s.stored n := by
  unfold State.stored
  exact Finset.filter_congr fun j _ => by rw [h]

/-- A step that stores nothing leaves the ledger alone. -/
theorem stored_setThread {j n : Nat} {old thread : Thread} (hj : s.threads[j]? = some old)
    (hsame : thread.hasStored = old.hasStored) : (s.setThread j thread).stored n = s.stored n := by
  refine stored_congr fun k => ?_
  rw [getElem?_setThread hj]
  split
  · next heq => rw [heq, hj, Option.any_some, Option.any_some, hsame]
  · rfl

theorem not_mem_stored {j n : Nat} {thread : Thread} (hj : s.threads[j]? = some thread)
    (hthread : thread.hasStored = false) : j ∉ s.stored n := by
  intro hmem
  rw [State.stored, Finset.mem_filter, hj, Option.any_some, hthread] at hmem
  exact Bool.false_ne_true hmem.2

/-- The write adds the thread to the ledger. -/
theorem stored_insert {j : Nat} {old : Thread} (hj : s.threads[j]? = some old)
    (hlt : j < values.length) :
    (s.setThread j .stored).stored values.length = insert j (s.stored values.length) := by
  ext k
  unfold State.stored
  rw [Finset.mem_insert, Finset.mem_filter, Finset.mem_filter, getElem?_setThread hj]
  by_cases hk : k = j
  · simp [hk, Thread.hasStored, hlt]
  · simp [hk]

/-- **Refinement**: a step is one of the ledger, or none. -/
theorem Invariant.refines (h : Invariant values s) {status : Int}
    (hstep : Step values s status s') :
    Relation.ReflGen (Ledger.Step (share values)) (ledger values s) (ledger values s') := by
  have hrefl : s'.stored values.length = s.stored values.length → s'.total = s.total →
      Relation.ReflGen (Ledger.Step (share values)) (ledger values s) (ledger values s') := by
    intro hstored htotal
    rw [show ledger values s' = ledger values s from congrArg₂ Ledger.mk hstored htotal]
  cases hstep with
  | begin hmain => exact hrefl rfl rfl
  | create hmain hi =>
    refine hrefl (stored_congr fun j => ?_) rfl
    show (s.threads ++ [Thread.started _])[j]?.any Thread.hasStored = _
    rw [List.getElem?_append]
    split
    · rfl
    · next hge =>
      rw [List.getElem?_eq_none (Nat.not_lt.mp hge), List.getElem?_singleton]
      split <;> rfl
  | created hmain hi => exact hrefl rfl rfl
  | join hmain hi hfinished => exact hrefl rfl rfl
  | joined hmain hi => exact hrefl rfl rfl
  | fail hstatus hcode => exact hrefl rfl rfl
  | failCreate hmain hi hstatus hcode => exact hrefl rfl rfl
  | undefined hwrong => exact hrefl rfl rfl
  | index hj hindex => exact hrefl (stored_setThread hj rfl) rfl
  | calculate hj hvalue => exact hrefl (stored_setThread hj rfl) rfl
  | lock hj hmutex => exact hrefl (stored_setThread hj rfl) rfl
  | load hj => exact hrefl (stored_setThread hj rfl) rfl
  | @store j value seen total hj htotal =>
    obtain ⟨hresult, -, rfl⟩ := h.threads j _ hj
    obtain ⟨-, rfl⟩ := CInt.check_eq_some.mp htotal
    obtain ⟨v, hv, -⟩ := Option.map_eq_some_iff.mp hresult
    have hshare : share values j = value := by rw [share, hresult, Option.getD_some]
    have hadd : Ledger.Step (share values) (ledger values s)
        ⟨insert j (s.stored values.length), s.total + share values j⟩ :=
      .add _ j (not_mem_stored hj rfl)
    rw [← stored_insert hj (List.getElem?_eq_some_iff.mp hv).1, hshare] at hadd
    exact .single hadd
  | unlock hj => exact hrefl (stored_setThread hj rfl) rfl

theorem ledger_exact_init (values : List Int) :
    (ledger values (init values)).Exact (share values) := by
  have hnone : (init values).stored values.length = ∅ := Finset.filter_false_of_mem (by simp [init])
  unfold Ledger.Exact ledger
  rw [hnone]
  rfl

/-- **Accounting**: at any time the total is what has been added. -/
theorem total_eq_sum_stored {events : List Event} (h : run values events = some s) :
    s.total = ∑ j ∈ s.stored values.length, share values j := by
  have hinv : Invariant values s ∧ (ledger values s).Exact (share values) := by
    refine run_invariant (P := fun s => Invariant values s ∧ (ledger values s).Exact (share values))
      h ?_ ⟨inv_init, ledger_exact_init values⟩
    rintro s event - s' ⟨hs, hexact⟩ hnext
    have hstep := step_of_next hnext
    exact ⟨hs.step hstep, Ledger.exact_of_reflGen (hs.refines hstep) hexact⟩
  exact hinv.2

/-- Whoever has finished has stored. -/
theorem stored_of_allFinished {n : Nat} (h : s.AllFinished n) : s.stored n = Finset.range n := by
  refine Finset.filter_true_of_mem fun j hj => ?_
  have hlt : j < s.threads.length := by rw [h.1]; exact Finset.mem_range.mp hj
  rw [List.getElem?_eq_getElem hlt, Option.any_some, h.2 _ (List.getElem_mem hlt)]
  rfl

theorem sum_share (values : List Int) :
    ∑ j ∈ Finset.range values.length, share values j = (values.map result).sum := by
  rw [Finset.sum_range, ← Fin.sum_univ_fun_getElem]
  refine Finset.sum_congr rfl fun j _ => ?_
  rw [share, List.getElem?_eq_getElem j.isLt]
  rfl

/-- **One total under every schedule.** -/
theorem total_of_run (values : List Int) (events : List Event) (s : State)
    (h : run values events = some s) :
    s.total = ∑ j ∈ s.stored values.length, share values j ∧
      (s.AllFinished values.length → s.total = (values.map result).sum ∧
        ∀ loop, Loop.main values = some loop → s.total = loop.total) := by
  have htotal := total_eq_sum_stored h
  refine ⟨htotal, fun hfinished => ?_⟩
  have hsum : s.total = (values.map result).sum := by
    rw [htotal, stored_of_allFinished hfinished, sum_share]
  refine ⟨hsum, ?_⟩
  rintro loop hloop
  obtain ⟨rfl, -, -⟩ := Loop.main_eq_some hloop
  exact hsum

/-- Two threads at once: the second one takes the mutex while the first one waits. -/
def overlapping : List Event :=
  [.main 0, .main 0, .thread 0 0, .main 0, .thread 1 0, .thread 0 0, .thread 1 0, .thread 1 0,
    .main 0, .thread 1 0, .thread 1 0, .thread 1 0, .thread 0 0, .thread 0 0, .thread 0 0,
    .thread 0 0]

theorem total_of_run_overlapping :
    ∃ s, run [1, 32] overlapping = some s ∧ s.AllFinished 2 ∧
      s.total = ([1, 32].map result).sum := by
  have hfinished :
      State.AllFinished ⟨[some 0, some 1], [.finished, .finished], none, 276, .join 0⟩ 2 :=
    ⟨rfl, by decide⟩
  exact ⟨_, rfl, hfinished, ((total_of_run [1, 32] overlapping _ rfl).2 hfinished).1⟩

end Threads

end Totals

end Cosc240
