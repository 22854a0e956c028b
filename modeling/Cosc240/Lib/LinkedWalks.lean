import Cosc240.Lib.LinkedQueues
import Cosc240.Lib.SkipInsert
import Mathlib.Data.List.TakeWhile

/-!
# Walks to an insertion point

Two places to put a node into a list behind its first node `a`: in order, where the two skip
loops of `walkInsert` end, and at the end. The first node is a sentinel, so that neither walk
ever has to change the pointer to the list.

- `walkInsert`: two walks of the form `while (end->next && …) end = end->next`, one behind the
  other, and the new node is linked in where the second one ends. The first one skips the nodes
  with a smaller primary key, the second one those with the same primary key and a smaller
  secondary key.
- `skipWhile_split`: a walk ends at the last node that is skipped, and the others are behind it.

Main results, for memories that consist of `Queues`:

- `Queues.walkInsert`: in terms of the lists, `walkInsert` is `skipInsert` on the list in question.
- `Queues.skipAll`: a walk over everything ends at the last node, and linking a node in there
  appends it.
-/

namespace Lib

namespace LinkedList

variable {α ι κ : Type*}

section Defs

variable [LinearOrder ι] [LinearOrder κ]

/-- The node goes behind those with a smaller primary key, and then behind those with the
same one and a smaller secondary key. -/
def walkInsert (f : α → ι) (g : α → κ) (h : Heap α) (steps a node : Nat) : Option (Heap α) :=
  (h node).bind fun new =>
    (skipWhile h (fun y => f y < f new.data) steps a).bind fun last =>
      (skipWhile h (fun y => f y = f new.data ∧ g y < g new.data) steps last).bind fun last =>
        insertNext h last node

end Defs

variable {h : Heap α} {a b : Nat} {x y : α} {l loose : List (Nat × α)} {steps : Nat}

/-- A walk ends at the last node that is skipped, and the others are behind it. -/
theorem skipWhile_split (skip : α → Bool) {p : Option Nat} (hl : Chain h p ((a, x) :: l))
    (hsteps : l.length < steps) :
    ∃ front c, skipWhile h skip steps a = some c.1 ∧
      (a, x) :: l.takeWhile (fun c => skip c.2) = front ++ [c] ∧
      ∃ q, Chain h q (c :: l.dropWhile fun c => skip c.2) := by
  obtain ⟨front, c, hend, hfront⟩ := skipWhile_eq skip hl hsteps
  refine ⟨front, c, hend, hfront, ?_⟩
  have hsplit : (a, x) :: l = front ++ c :: l.dropWhile fun c => skip c.2 := by
    conv_lhs => rw [← List.takeWhile_append_dropWhile (p := fun c => skip c.2) (l := l),
      ← List.cons_append, hfront, List.append_assoc, List.singleton_append]
  rw [hsplit] at hl
  exact hl.suffix

namespace Queues

variable {ω : Type*} {queues : ω → List (Nat × α)} {i : ω}

/-- **In order.** -/
theorem walkInsert [DecidableEq ω] [LinearOrder ι] [LinearOrder κ] {f : α → ι} {g : α → κ}
    (hq : Queues h queues ((b, y) :: loose)) (hi : queues i = (a, x) :: l)
    (hsteps : l.length < steps) :
    ∃ h', walkInsert f g h steps a b = some h' ∧
      Queues h' (Function.update queues i
        ((a, x) :: Lib.skipInsert (fun c => f c.2) (fun c => g c.2) (b, y) l)) loose ∧
      allocated h' = allocated h := by
  obtain ⟨p, hchain⟩ := hq.chain i
  obtain ⟨q, hnew⟩ := hq.cell (b, y) List.mem_cons_self
  rw [hi] at hchain
  obtain ⟨front, c, hend, hfront, _, hrest⟩ :=
    skipWhile_split (fun z => f z < f y) hchain hsteps
  have hsteps' : (l.dropWhile fun c => decide (f c.2 < f y)).length < steps :=
    Nat.lt_of_le_of_lt (List.dropWhile_sublist _).length_le hsteps
  obtain ⟨front', c', hend', hfront', -⟩ :=
    skipWhile_split (fun z => f z = f y ∧ g z < g y) hrest hsteps'
  -- the whole list, split at the insertion point
  have hsplit : ∀ back, (a, x) :: (l.takeWhile (fun c => f c.2 < f y) ++
      ((l.dropWhile fun c => f c.2 < f y).takeWhile (fun c => f c.2 = f y ∧ g c.2 < g y) ++
        back)) = (front ++ front') ++ c' :: back := by
    intro back
    rw [← List.cons_append, hfront, List.append_assoc, List.singleton_append, ← List.cons_append,
      hfront', List.append_assoc, List.append_assoc, List.singleton_append]
  have hold : queues i = (front ++ front') ++ (c'.1, c'.2) ::
      (l.dropWhile fun c => f c.2 < f y).dropWhile (fun c => f c.2 = f y ∧ g c.2 < g y) := by
    rw [hi, ← hsplit, List.takeWhile_append_dropWhile, List.takeWhile_append_dropWhile]
  obtain ⟨h', hinsert, hq', halloc⟩ := hq.insertNext hold
  refine ⟨h', ?_, ?_, halloc⟩
  · rw [LinkedList.walkInsert, hnew, Option.bind_some, hend, Option.bind_some, hend',
      Option.bind_some, hinsert]
  · rw [Lib.skipInsert, Lib.skipSame, hsplit]
    exact hq'

/-- **At the end**: where a walk over everything ends, a node can be put. -/
theorem skipAll (hq : Queues h queues loose) (hi : queues i = (a, x) :: l)
    (hsteps : l.length < steps) :
    ∃ front c, skipWhile h (fun _ => true) steps a = some c.1 ∧ queues i = front ++ [c] := by
  obtain ⟨p, hchain⟩ := hq.chain i
  rw [hi] at hchain
  obtain ⟨front, c, hend, hfront⟩ := skipWhile_eq (fun _ => true) hchain hsteps
  rw [List.takeWhile_eq_self_iff.mpr fun _ _ => rfl] at hfront
  exact ⟨front, c, hend, hi.trans hfront⟩

end Queues

end LinkedList

end Lib
