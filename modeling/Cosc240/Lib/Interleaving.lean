import Mathlib.Algebra.BigOperators.Fin
import Mathlib.Logic.Relation

/-!
# Runs of interleaved steps

A system of several parties is one partial function: the state after an event, if the
event is possible. A schedule is a list of events, and says in which order the parties take their
steps. The rules for runs come first; below them is what a shared total is for.

- `run`: the state after all events of a schedule, if each of them is possible in turn.
- `run_invariant`: what the events of a run keep holds at its end.
- `length_le_measure`: if each step uses up some of a measure, runs are no longer than the measure
  at the start.
- `exists_run`: if moreover every state that is not final has a possible event among the allowed
  ones, then allowed events lead to a final state from every state.

The abstract total:

- `Ledger`: who has added their share, and the total so far. `Ledger.Step` adds the share of one
  party, for the first time.
- `Ledger.Exact`: the total is the sum of the shares of those who have added theirs, so that no
  share is lost and none is there twice. Every step keeps it (`Ledger.Step.exact`,
  `Ledger.exact_of_reflGen`).
-/

namespace Lib

namespace Interleaving

universe u v

section Runs

variable {σ : Type u} {ε : Type v} {next : σ → ε → Option σ} {s s' : σ} {events : List ε}

/-- The state after all events. -/
def run (next : σ → ε → Option σ) (s : σ) (events : List ε) : Option σ :=
  events.foldlM next s

theorem run_cons_of_next {e : ε} (h : next s e = some s') :
    run next s (e :: events) = run next s' events := by
  rw [run, List.foldlM_cons, h]
  rfl

theorem run_cons_eq_some {e : ε} (h : run next s (e :: events) = some s') :
    ∃ t, next s e = some t ∧ run next t events = some s' :=
  Option.bind_eq_some_iff.mp h

/-- **Invariants.** What the events of a run keep holds at its end. -/
theorem run_invariant {P : σ → Prop} (h : run next s events = some s')
    (hstep : ∀ s, ∀ e ∈ events, ∀ s', P s → next s e = some s' → P s') (hs : P s) : P s' := by
  induction events generalizing s with
  | nil =>
    cases h
    exact hs
  | cons e events ih =>
    obtain ⟨t, ht, hrest⟩ := run_cons_eq_some h
    obtain ⟨hhead, htail⟩ := List.forall_mem_cons.mp fun e he s s' => hstep s e he s'
    exact ih hrest (fun s e he s' => htail e he s s') (hhead s t hs ht)

variable {P : σ → Prop} {μ : σ → Nat}

/-- **Termination.** If each step uses up some of a measure, runs are no longer than it. -/
theorem length_le_measure
    (hstep : ∀ s e s', P s → next s e = some s' → P s' ∧ μ s' < μ s)
    (h : run next s events = some s') (hs : P s) : events.length ≤ μ s := by
  induction events generalizing s with
  | nil => exact Nat.zero_le _
  | cons e events ih =>
    obtain ⟨t, ht, hrest⟩ := run_cons_eq_some h
    obtain ⟨hP, hlt⟩ := hstep s e t hs ht
    have hle := ih hrest hP
    rw [List.length_cons]
    omega

/-- **Progress.** If moreover every state that is not final has an event of the allowed
ones, then allowed events lead to a final state. -/
theorem exists_run {final : σ → Prop} {allowed : ε → Prop}
    (hstep : ∀ s e s', P s → next s e = some s' → P s' ∧ μ s' < μ s)
    (hprogress : ∀ s, P s → ¬ final s → ∃ e s', allowed e ∧ next s e = some s')
    (hs : P s) :
    ∃ events s', (∀ e ∈ events, allowed e) ∧ run next s events = some s' ∧ final s' := by
  induction hm : μ s using Nat.strong_induction_on generalizing s with
  | _ m ih =>
    by_cases hfinal : final s
    · exact ⟨[], s, by simp, rfl, hfinal⟩
    · obtain ⟨e, t, hallowed, ht⟩ := hprogress s hs hfinal
      obtain ⟨hP, hlt⟩ := hstep s e t hs ht
      obtain ⟨events, s', hevents, hrun, hs'⟩ := ih (μ t) (hm ▸ hlt) hP rfl
      refine ⟨e :: events, s', ?_, ?_, hs'⟩
      · exact List.forall_mem_cons.mpr ⟨hallowed, hevents⟩
      · rw [run_cons_of_next ht, hrun]

end Runs

/-! ## A total that everybody adds to once -/

section Ledger

variable {ι : Type u} {M : Type v} [DecidableEq ι] [AddCommMonoid M]

/-- Who has added their share, and the total. -/
structure Ledger (ι : Type u) (M : Type v) where
  added : Finset ι
  total : M

/-- `i` adds `share i`, for the first time. -/
inductive Ledger.Step (share : ι → M) : Ledger ι M → Ledger ι M → Prop
  | add (ledger : Ledger ι M) (i : ι) (h : i ∉ ledger.added) :
    Step share ledger ⟨insert i ledger.added, ledger.total + share i⟩

/-- No share is lost, and none is there twice. -/
def Ledger.Exact (share : ι → M) (ledger : Ledger ι M) : Prop :=
  ledger.total = ∑ i ∈ ledger.added, share i

theorem Ledger.Step.exact {share : ι → M} {ledger ledger' : Ledger ι M}
    (h : Ledger.Step share ledger ledger') (hexact : ledger.Exact share) : ledger'.Exact share := by
  cases h with
  | add i h =>
    unfold Ledger.Exact at hexact ⊢
    rw [Finset.sum_insert h, ← hexact, add_comm]

theorem Ledger.exact_of_reflGen {share : ι → M} {ledger ledger' : Ledger ι M}
    (h : Relation.ReflGen (Ledger.Step share) ledger ledger') (hexact : ledger.Exact share) :
    ledger'.Exact share := by
  cases h with
  | refl => exact hexact
  | single h => exact h.exact hexact

end Ledger

end Interleaving

end Lib
