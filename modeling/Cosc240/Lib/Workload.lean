import Mathlib.Algebra.GroupWithZero.Nat
import Mathlib.Algebra.Order.BigOperators.Group.List
import Mathlib.Algebra.Order.Group.Nat
import Mathlib.Data.List.Sort

/-!
# One server that is never idle while work is waiting

Jobs arrive at given instants and need given amounts of work. Two quantities do
not depend on which of the waiting jobs a work-conserving server picks:

- the instant at which everything is done. `finishTime` is the fold
  `m ↦ max m arrival + work` in arrival order, and neither a unit of service
  (`finishTime_serve`) nor an idle instant (`finishTime_idle`) changes it;
- the amount of work present. `waitingWork` falls by one with each unit of
  service (`waitingWork_serve`) and grows by what arrives (`waitingWork_succ`).

So an induction over the instants shows that any such server is done at `finishTime`:
`lt_finishTime` says that it is busy beyond now while there is work left, and
`finishTime_done` that it is free now when there is none. `Served` is what one unit of service
does to the work of the jobs.

For the server that takes the jobs in a fixed order, `slots` says when each of
them is served. Each job starts as soon as it has arrived and the server is free, and takes as
long as its work (`slots_finish`); slots do not overlap (`slots_pairwise`), and by `start_le` the
first job that has arrived and is not done is in its slot.
-/

namespace Lib

variable {α : Type*}

/-- The instant at which a server that is free at `m` has done all of `l`, taken
in order. -/
def finishTime (arrival work : α → Nat) (m : Nat) (l : List α) : Nat :=
  l.foldl (fun m a => max m (arrival a) + work a) m

/-- The work of the jobs that have arrived by `t`. -/
def waitingWork (arrival work : α → Nat) (t : Nat) (l : List α) : Nat :=
  ((l.filter fun a => arrival a ≤ t).map work).sum

/-- The work that arrives at `t`. -/
def arrivingWork (arrival work : α → Nat) (t : Nat) (l : List α) : Nat :=
  ((l.filter fun a => arrival a = t).map work).sum

/-- On the jobs of `l`, `work'` is `work` after one unit of service to `q`. -/
structure Served (l : List α) (q : α) (work work' : α → Nat) : Prop where
  self : work q = work' q + 1
  other : ∀ a ∈ l, a ≠ q → work' a = work a

variable {arrival work work' : α → Nat} {l : List α} {q : α} {m t : Nat}

@[simp] theorem finishTime_nil : finishTime arrival work m [] = m := rfl

@[simp] theorem finishTime_cons (a : α) :
    finishTime arrival work m (a :: l) =
      finishTime arrival work (max m (arrival a) + work a) l := rfl

theorem Served.of_cons {a : α} (hs : Served (a :: l) q work work') : Served l q work work' :=
  ⟨hs.self, fun b hb => hs.other b (List.mem_cons_of_mem _ hb)⟩

theorem finishTime_congr (h : ∀ a ∈ l, work a = work' a) :
    finishTime arrival work m l = finishTime arrival work' m l := by
  induction l generalizing m with
  | nil => rfl
  | cons a l ih =>
    rw [finishTime_cons, finishTime_cons, h a (by simp),
      ih fun b hb => h b (List.mem_cons_of_mem _ hb)]

theorem le_finishTime (l : List α) : m + (l.map work).sum ≤ finishTime arrival work m l := by
  induction l generalizing m with
  | nil => simp
  | cons a l ih =>
    rw [finishTime_cons, List.map_cons, List.sum_cons]
    have h := ih (m := max m (arrival a) + work a)
    have hm := Nat.le_max_left m (arrival a)
    omega

/-- Serving a job that has arrived does not move the finishing time. -/
theorem finishTime_serve (hl : l.Pairwise fun a b => arrival a ≤ arrival b) (hnd : l.Nodup)
    (hq : q ∈ l) (hs : Served l q work work') (hm : arrival q ≤ m) :
    finishTime arrival work' (m + 1) l = finishTime arrival work m l := by
  induction l generalizing m with
  | nil => cases hq
  | cons a l ih =>
    obtain ⟨hle, hl⟩ := List.pairwise_cons.mp hl
    obtain ⟨hal, hnd⟩ := List.nodup_cons.mp hnd
    rw [finishTime_cons, finishTime_cons]
    rcases List.mem_cons.mp hq with rfl | hq
    · -- `q` itself: it starts one later and needs one unit less
      rw [Nat.max_eq_left hm, Nat.max_eq_left (Nat.le_succ_of_le hm), hs.self,
        show m + 1 + work' q = m + (work' q + 1) by omega]
      exact finishTime_congr fun b hb =>
        hs.other b (List.mem_cons_of_mem _ hb) fun h => hal (h ▸ hb)
    · have haq : a ≠ q := fun h => hal (h ▸ hq)
      have ham : arrival a ≤ m := (hle q hq).trans hm
      rw [Nat.max_eq_left ham, Nat.max_eq_left (Nat.le_succ_of_le ham),
        hs.other a (by simp) haq, show m + 1 + work a = m + work a + 1 by omega]
      exact ih hl hnd hq hs.of_cons (by omega)

/-- An instant at which nobody is waiting, with work still to come, does not
move the finishing time. -/
theorem finishTime_idle (hidle : ∀ a ∈ l, arrival a ≤ t → work a = 0)
    (hmore : ∃ a ∈ l, 0 < work a) :
    finishTime arrival work (t + 1) l = finishTime arrival work t l := by
  induction l with
  | nil => obtain ⟨a, ha, -⟩ := hmore; cases ha
  | cons a l ih =>
    rw [finishTime_cons, finishTime_cons]
    by_cases hat : arrival a ≤ t
    · -- it has arrived and is done, so it takes no time
      have ha : work a = 0 := hidle a (by simp) hat
      rw [Nat.max_eq_left hat, Nat.max_eq_left (Nat.le_succ_of_le hat), ha]
      refine ih (fun b hb => hidle b (List.mem_cons_of_mem _ hb)) ?_
      obtain ⟨b, hb, hwork⟩ := hmore
      rcases List.mem_cons.mp hb with rfl | hb
      · omega
      · exact ⟨b, hb, hwork⟩
    · -- it has not arrived, so the server is free before that either way
      rw [Nat.max_eq_right (by omega), Nat.max_eq_right (by omega)]

/-- With no work left and every arrival past, the server is free now. -/
theorem finishTime_done (h : ∀ a ∈ l, arrival a ≤ t ∧ work a = 0) :
    finishTime arrival work t l = t := by
  induction l with
  | nil => rfl
  | cons a l ih =>
    obtain ⟨hat, ha⟩ := h a (by simp)
    rw [finishTime_cons, Nat.max_eq_left hat, ha]
    exact ih fun b hb => h b (List.mem_cons_of_mem _ hb)

/-- Work left means that the server is busy beyond now. -/
theorem lt_finishTime (hmore : ∃ a ∈ l, 0 < work a) : t < finishTime arrival work t l := by
  obtain ⟨a, ha, hwork⟩ := hmore
  have hsum : work a ≤ (l.map work).sum := List.le_sum_of_mem (List.mem_map_of_mem ha)
  have hle : t + (l.map work).sum ≤ finishTime arrival work t l := le_finishTime l
  omega

/-! ## The amount of work present -/

theorem waitingWork_eq_zero_iff :
    waitingWork arrival work t l = 0 ↔ ∀ a ∈ l, arrival a ≤ t → work a = 0 := by
  simp only [waitingWork, List.sum_eq_zero_iff, List.mem_map, List.mem_filter, decide_eq_true_eq]
  constructor
  · intro h a ha hat
    exact h _ ⟨a, ⟨ha, hat⟩, rfl⟩
  · rintro h _ ⟨a, ⟨ha, hat⟩, rfl⟩
    exact h a ha hat

theorem waitingWork_serve (hnd : l.Nodup) (hq : q ∈ l) (hqt : arrival q ≤ t)
    (hs : Served l q work work') :
    waitingWork arrival work t l = waitingWork arrival work' t l + 1 := by
  induction l with
  | nil => cases hq
  | cons a l ih =>
    obtain ⟨hal, hnd⟩ := List.nodup_cons.mp hnd
    unfold waitingWork at ih ⊢
    rcases List.mem_cons.mp hq with rfl | hq
    · have hrest : (l.filter fun b => arrival b ≤ t).map work' =
          (l.filter fun b => arrival b ≤ t).map work :=
        List.map_congr_left fun b hb =>
          hs.other b (List.mem_cons_of_mem _ (List.mem_filter.mp hb).1)
            fun h => hal (h ▸ (List.mem_filter.mp hb).1)
      rw [List.filter_cons_of_pos (by simpa using hqt), List.map_cons, List.sum_cons,
        List.map_cons, List.sum_cons, hrest, hs.self]
      omega
    · have haq : a ≠ q := fun h => hal (h ▸ hq)
      have ih := ih hnd hq hs.of_cons
      by_cases hat : arrival a ≤ t
      · rw [List.filter_cons_of_pos (by simpa using hat), List.map_cons, List.sum_cons,
          List.map_cons, List.sum_cons, hs.other a (by simp) haq, ih]
        omega
      · rw [List.filter_cons_of_neg (by simpa using hat)]
        exact ih

theorem waitingWork_succ :
    waitingWork arrival work (t + 1) l =
      waitingWork arrival work t l + arrivingWork arrival work (t + 1) l := by
  induction l with
  | nil => rfl
  | cons a l ih =>
    unfold waitingWork arrivingWork at ih ⊢
    simp only [List.filter_cons, decide_eq_true_eq]
    rcases Nat.lt_trichotomy (arrival a) (t + 1) with h | h | h
    · rw [if_pos (by omega), if_pos (by omega), if_neg (by omega)]
      simp only [List.map_cons, List.sum_cons, ih]
      omega
    · rw [if_pos (by omega), if_neg (by omega), if_pos h]
      simp only [List.map_cons, List.sum_cons, ih]
      omega
    · rw [if_neg (by omega), if_neg (by omega), if_neg (by omega), ih]

/-! ## Jobs taken in order -/

/-- When a job is served: from `start` up to `finish`. -/
structure Slot (α : Type*) where
  job : α
  start : Nat
  finish : Nat
deriving DecidableEq

/-- The slots of a server that is free at `m` and takes the jobs of `l` in order,
one after the other: each starts as soon as it has arrived and the server is
free. -/
def slots (arrival work : α → Nat) (m : Nat) : List α → List (Slot α)
  | [] => []
  | a :: l =>
    ⟨a, max m (arrival a), max m (arrival a) + work a⟩ ::
      slots arrival work (max m (arrival a) + work a) l

@[simp] theorem slots_map_job (m : Nat) (l : List α) :
    (slots arrival work m l).map Slot.job = l := by
  induction l generalizing m with
  | nil => rfl
  | cons a l ih => rw [slots, List.map_cons, ih]

theorem slots_finish {s : Slot α} (h : s ∈ slots arrival work m l) :
    s.finish = s.start + work s.job := by
  induction l generalizing m with
  | nil => cases h
  | cons a l ih =>
    rcases List.mem_cons.mp h with rfl | h
    · rfl
    · exact ih h

theorem arrival_le_start {s : Slot α} (h : s ∈ slots arrival work m l) :
    arrival s.job ≤ s.start := by
  induction l generalizing m with
  | nil => cases h
  | cons a l ih =>
    rcases List.mem_cons.mp h with rfl | h
    · exact Nat.le_max_right _ _
    · exact ih h

theorem le_start {s : Slot α} (h : s ∈ slots arrival work m l) : m ≤ s.start := by
  induction l generalizing m with
  | nil => cases h
  | cons a l ih =>
    rcases List.mem_cons.mp h with rfl | h
    · exact Nat.le_max_left _ _
    · have hle := ih h
      omega

/-- Slots do not overlap. -/
theorem slots_pairwise (m : Nat) (l : List α) :
    (slots arrival work m l).Pairwise fun s s' => s.finish ≤ s'.start := by
  induction l generalizing m with
  | nil => exact List.Pairwise.nil
  | cons a l ih => exact List.pairwise_cons.mpr ⟨fun s hs => le_start hs, ih _⟩

/-- A job that has arrived, and before which all others are done, has its slot. -/
theorem start_le {pre post : List (Slot α)} {s : Slot α}
    (h : slots arrival work m l = pre ++ s :: post) (hm : m ≤ t) (harr : arrival s.job ≤ t)
    (hpre : ∀ s' ∈ pre, s'.finish ≤ t) : s.start ≤ t := by
  induction l generalizing m pre with
  | nil => cases pre <;> cases h
  | cons a l ih =>
    rw [slots] at h
    cases pre with
    | nil =>
      cases h
      exact Nat.max_le.mpr ⟨hm, harr⟩
    | cons s' pre =>
      obtain ⟨hs', hrest⟩ := List.cons.inj h
      -- the server is free when the slot before is over
      refine ih hrest ?_ fun s'' hs'' => hpre s'' (List.mem_cons_of_mem _ hs'')
      have hfinish := hpre s' (by simp)
      rw [← hs'] at hfinish
      exact hfinish

end Lib
