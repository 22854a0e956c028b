import Mathlib.Data.List.Basic

/-!
# Slices and time steps

A processor that works in slices can be described slice by slice: what is picked
runs for the whole length of its slice, and what arrives meanwhile has to wait.
Or it can be described by what it does in one time step, with the slice in
progress in its state. The two descriptions are compared here for any kind of queues and slices.

- `SliceMachine`: the queues, how arrivals get into them, how a slice is picked, its length, its
  output, and what becomes of the queues when it is over.
- `slices` and `reference`: the outputs slice by slice. An idle time step counts as a slice, with
  output 0.
- `Running`, `tick`, `outputs`, `after`: one time step, the outputs of many, and the state after
  them.
- `Lawful`: an invariant of the queues, and one of the slices that are picked from them, under
  which no slice is empty. `Running.Ok` is the invariant of the time steps.

Main results, for lawful machines:

- `Lawful.outputs_advance`: from the middle of a slice, the outputs are the rest of the slice and
  then the slices after it.
- `Lawful.outputs_eq_reference`: the time steps give the outputs of the slices.
-/

namespace Lib

/-- A processor with queues `σ`, from which it picks slices `ι`. -/
structure SliceMachine (σ ι : Type*) where
  /-- The queues after the arrivals of an instant. -/
  arrive : Nat → σ → σ
  /-- What to run when no slice is in progress, and the queues without it. -/
  pick : Nat → σ → Option (ι × σ)
  /-- The number of time steps of a slice. -/
  length : ι → Nat
  /-- The queues when a slice is over. -/
  finish : ι → σ → σ
  /-- The output in each time step of a slice. -/
  label : ι → Nat

namespace SliceMachine

variable {σ ι : Type*} (m : SliceMachine σ ι)

/-! ## Slice by slice -/

/-- The arrivals of `t`, `t + 1`, …, one instant after the other. -/
def arriveFrom (t : Nat) : Nat → σ → σ
  | 0, q => q
  | n + 1, q => arriveFrom (t + 1) n (m.arrive t q)

/-- The outputs of `n` slices from `t` on, where the arrivals of `t` are in the
queues already. An idle time step counts as a slice, with output 0. -/
def slices : (n t : Nat) → σ → List Nat
  | 0, _, _ => []
  | n + 1, t, q =>
    match m.pick t q with
    | none => 0 :: slices n (t + 1) (m.arrive (t + 1) q)
    | some (i, q) =>
      List.replicate (m.length i) (m.label i) ++
        slices n (t + m.length i)
          (m.arrive (t + m.length i) (m.finish i (m.arriveFrom (t + 1) (m.length i - 1) q)))

/-- The first `n` outputs. -/
def reference (q : σ) (n : Nat) : List Nat := (m.slices n 0 (m.arrive 0 q)).take n

/-! ## Time step by time step -/

/-- The queues, and the slice in progress with the time it has had. -/
structure Running (σ ι : Type*) where
  queues : σ
  current : Option (ι × Nat)

/-- One time step of a slice that has had `j` of them. -/
def advance (i : ι) (j : Nat) (q : σ) : Running σ ι :=
  if j + 1 = m.length i then ⟨m.finish i q, none⟩ else ⟨q, some (i, j + 1)⟩

/-- One time step: the output and the new state. -/
def tick (t : Nat) (s : Running σ ι) : Nat × Running σ ι :=
  match s.current with
  | some (i, j) => (m.label i, m.advance i j (m.arrive t s.queues))
  | none =>
    match m.pick t (m.arrive t s.queues) with
    | none => (0, ⟨m.arrive t s.queues, none⟩)
    | some (i, q) => (m.label i, m.advance i 0 q)

/-- The outputs of `n` time steps from `t` on. -/
def outputs : (n t : Nat) → Running σ ι → List Nat
  | 0, _, _ => []
  | n + 1, t, s => (m.tick t s).1 :: outputs n (t + 1) (m.tick t s).2

/-- The state after them. -/
def after : (n t : Nat) → Running σ ι → Running σ ι
  | 0, _, s => s
  | n + 1, t, s => after n (t + 1) (m.tick t s).2

theorem after_succ (n t : Nat) (s : Running σ ι) :
    m.after (n + 1) t s = (m.tick (t + n) (m.after n t s)).2 := by
  induction n generalizing t s with
  | zero => rfl
  | succ n ih =>
    rw [after, ih, after, Nat.add_right_comm, Nat.add_assoc]

theorem outputs_succ (n t : Nat) (s : Running σ ι) :
    m.outputs (n + 1) t s = m.outputs n t s ++ [(m.tick (t + n) (m.after n t s)).1] := by
  induction n generalizing t s with
  | zero => rfl
  | succ n ih =>
    rw [outputs, ih, outputs, after, Nat.add_right_comm, Nat.add_assoc, List.cons_append]

/-! ## Both are the same -/

/-- What keeps slices from being empty: an invariant of the queues and one of
the slices that are picked from them. -/
structure Lawful (Good : σ → Prop) (GoodSlice : ι → Prop) : Prop where
  arrive : ∀ t q, Good q → Good (m.arrive t q)
  pick : ∀ t q i q', Good q → m.pick t q = some (i, q') → GoodSlice i ∧ Good q'
  length_pos : ∀ i, GoodSlice i → 0 < m.length i
  finish : ∀ i q, GoodSlice i → Good q → Good (m.finish i q)

variable {m} {Good : σ → Prop} {GoodSlice : ι → Prop}

/-- The invariant of the time steps. -/
structure Running.Ok (m : SliceMachine σ ι) (Good : σ → Prop) (GoodSlice : ι → Prop)
    (s : Running σ ι) : Prop where
  queues : Good s.queues
  current : ∀ i j, s.current = some (i, j) → GoodSlice i ∧ 0 < j ∧ j < m.length i

theorem Lawful.advance_ok (hm : m.Lawful Good GoodSlice) {i : ι} {j : Nat} {q : σ}
    (hi : GoodSlice i) (hj : j < m.length i) (hq : Good q) :
    (m.advance i j q).Ok m Good GoodSlice := by
  rw [advance]
  split
  · exact ⟨hm.finish i q hi hq, fun _ _ h => by cases h⟩
  · refine ⟨hq, fun i' j' h => ?_⟩
    cases h
    exact ⟨hi, Nat.succ_pos j, by omega⟩

theorem Lawful.tick_ok (hm : m.Lawful Good GoodSlice) {s : Running σ ι}
    (hs : s.Ok m Good GoodSlice) (t : Nat) : (m.tick t s).2.Ok m Good GoodSlice := by
  have harr := hm.arrive t _ hs.queues
  rw [tick]
  cases hc : s.current with
  | some ij =>
    obtain ⟨hi, -, hj⟩ := hs.current ij.1 ij.2 hc
    exact hm.advance_ok hi hj harr
  | none =>
    cases hp : m.pick t (m.arrive t s.queues) with
    | none => exact ⟨harr, fun _ _ h => by cases h⟩
    | some iq =>
      obtain ⟨hi, hq⟩ := hm.pick t _ iq.1 iq.2 harr hp
      exact hm.advance_ok hi (hm.length_pos _ hi) hq

theorem Lawful.after_ok (hm : m.Lawful Good GoodSlice) {s : Running σ ι}
    (hs : s.Ok m Good GoodSlice) (n t : Nat) : (m.after n t s).Ok m Good GoodSlice := by
  induction n generalizing t s with
  | zero => exact hs
  | succ n ih => exact ih (hm.tick_ok hs t) (t + 1)

theorem take_replicate_append {a b n : Nat} (h : b = a + 1) (x : Nat) (l : List Nat) :
    (List.replicate b x ++ l).take (n + 1) = x :: (List.replicate a x ++ l).take n := by
  rw [h, List.replicate_succ, List.cons_append, List.take_succ_cons]

/-- The rest of a slice that is in progress, and then the slices after it. The
fuel `f` has to last for the outputs after the next one. -/
theorem Lawful.outputs_advance (hm : m.Lawful Good GoodSlice) {n : Nat}
    (ih : ∀ k ≤ n, ∀ f t q, k ≤ f → Good q →
      m.outputs k t ⟨q, none⟩ = (m.slices f t (m.arrive t q)).take k)
    {k f t j : Nat} {i : ι} {q : σ} (hk : k ≤ n) (hf : k ≤ f) (hi : GoodSlice i)
    (hj : j < m.length i) (hq : Good q) :
    m.outputs k (t + 1) (m.advance i j q) =
      (List.replicate (m.length i - (j + 1)) (m.label i) ++
        m.slices f (t + (m.length i - j)) (m.arrive (t + (m.length i - j))
          (m.finish i (m.arriveFrom (t + 1) (m.length i - (j + 1)) q)))).take k := by
  induction k generalizing t j q with
  | zero => rw [List.take_zero, outputs]
  | succ k ihk =>
    by_cases hlast : j + 1 = m.length i
    · -- the slice is over
      have hzero : m.length i - (j + 1) = 0 := by omega
      have hone : m.length i - j = 1 := by omega
      rw [advance, if_pos hlast, hzero, hone, List.replicate_zero, List.nil_append]
      exact ih (k + 1) hk f (t + 1) _ hf (hm.finish i q hi hq)
    · -- one more time step of the same slice
      have hsucc : m.length i - (j + 1) = m.length i - (j + 1 + 1) + 1 := by omega
      have htime : t + (m.length i - j) = t + 1 + (m.length i - (j + 1)) := by omega
      rw [advance, if_neg hlast, outputs]
      show m.label i :: m.outputs k (t + 1 + 1) (m.advance i (j + 1) (m.arrive (t + 1) q)) = _
      have harrive : m.arriveFrom (t + 1) (m.length i - (j + 1)) q =
          m.arriveFrom (t + 1 + 1) (m.length i - (j + 1 + 1)) (m.arrive (t + 1) q) := by
        rw [hsucc, arriveFrom]
      rw [ihk (by omega) (by omega) (by omega) (hm.arrive (t + 1) q hq), htime, harrive,
        take_replicate_append hsucc]

/-- From an instant at which no slice is in progress. -/
theorem Lawful.outputs_none (hm : m.Lawful Good GoodSlice) (n : Nat) :
    ∀ k ≤ n, ∀ f t q, k ≤ f → Good q →
      m.outputs k t ⟨q, none⟩ = (m.slices f t (m.arrive t q)).take k := by
  induction n with
  | zero =>
    intro k hk f t q _ _
    rw [Nat.le_zero.mp hk, List.take_zero, outputs]
  | succ n ih =>
    intro k hk f t q hf hq
    cases k with
    | zero => rw [List.take_zero, outputs]
    | succ k =>
      obtain ⟨f, rfl⟩ : ∃ f', f = f' + 1 := ⟨f - 1, by omega⟩
      have harr := hm.arrive t q hq
      rw [outputs, slices, tick]
      cases hp : m.pick t (m.arrive t q) with
      | none =>
        simp only [List.take_succ_cons]
        rw [ih k (by omega) f (t + 1) _ (by omega) harr]
      | some iq =>
        obtain ⟨i, q'⟩ := iq
        obtain ⟨hi, hq'⟩ := hm.pick t _ i q' harr hp
        have hpos := hm.length_pos i hi
        have hsucc : m.length i = m.length i - (0 + 1) + 1 := by omega
        simp only
        rw [hm.outputs_advance ih (by omega) (show k ≤ f by omega) hi hpos hq']
        rw [take_replicate_append hsucc, Nat.sub_zero, Nat.zero_add]

/-- **The time steps give the outputs of the slices.** -/
theorem Lawful.outputs_eq_reference (hm : m.Lawful Good GoodSlice) {q : σ} (hq : Good q)
    (n : Nat) : m.outputs n 0 ⟨q, none⟩ = m.reference q n :=
  hm.outputs_none n n (Nat.le_refl n) n 0 q (Nat.le_refl n) hq

end SliceMachine

end Lib
