import Mathlib.Data.Set.Insert
import Mathlib.Data.List.Nodup
import Mathlib.Data.List.Perm.Subperm

/-!
# Allocators

An allocator hands out addresses that are not in use. That is all that can be relied on:
an address that has been given back may be handed out again, at once or later, and nothing is
said about the order of the addresses or about the memory behind them.

- `Allocator static`: an allocator by its states and operations. `live` says which addresses are
  in use in a state, `malloc` hands out another one and `free` takes one back. It never runs out
  of memory.
- The addresses in `static` are in use from the beginning. They are those of the objects that
  are not allocated at run time, so that nothing that is allocated can be at one of them.
- `Allocator.firstFit`: the allocator that always takes the lowest address that is free
  (`lowest_not_mem`). It shows that the laws can be met, and reuses addresses as soon as it can.

A program that is correct for every `Allocator` cannot depend on which addresses it gets.
-/

namespace Lib

/-- `malloc` and `free`, and the addresses that are in use. -/
structure Allocator (static : Set Nat) where
  State : Type
  init : State
  malloc : State → Nat × State
  free : Nat → State → State
  live : State → Set Nat
  live_init : live init = static
  malloc_not_mem : ∀ s, (malloc s).1 ∉ live s
  live_malloc : ∀ s, live (malloc s).2 = insert (malloc s).1 (live s)
  live_free : ∀ a s, live (free a s) = live s \ {a}

namespace Allocator

/-- The lowest address that is not in the list. -/
def lowest (used : List Nat) : Nat :=
  ((List.range (used.length + 1)).find? fun a => a ∉ used).getD 0

theorem lowest_not_mem (used : List Nat) : lowest used ∉ used := by
  have hsome : ∃ a, (List.range (used.length + 1)).find? (fun a => a ∉ used) = some a := by
    refine Option.ne_none_iff_exists'.mp fun hnone => ?_
    -- otherwise more addresses would be in use than there are
    have hsub : List.range (used.length + 1) ⊆ used := by
      intro a ha
      simpa using List.find?_eq_none.mp hnone a ha
    have hle := (List.Nodup.subperm List.nodup_range hsub).length_le
    rw [List.length_range] at hle
    omega
  obtain ⟨a, ha⟩ := hsome
  rw [lowest, ha]
  simpa using List.find?_some ha

/-- The allocator that always takes the lowest address. -/
def firstFit (n : Nat) : Allocator {a | a < n} where
  State := List Nat
  init := List.range n
  malloc used := (lowest used, lowest used :: used)
  free a used := used.filter (· ≠ a)
  live used := {a | a ∈ used}
  live_init := by
    ext a
    exact List.mem_range
  malloc_not_mem := lowest_not_mem
  live_malloc used := by
    ext a
    exact List.mem_cons
  live_free a used := by
    ext b
    simp

end Allocator

end Lib
