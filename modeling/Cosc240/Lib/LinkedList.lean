import Mathlib.Data.List.Basic

/-!
# Linked lists in memory

A heap says what is at each address, and nothing at those that are not allocated. A chain
is a list as its nodes lie in the heap, from a pointer on up to `NULL`. Three loops go over
such lists: the search for the first node with a property, the search for the node in front
of a given one, and with it the removal of a node.

A loop has no result if it dereferences `NULL` or an address that is not allocated, or if
it takes more steps than it is given.

- `Cell`, `Heap`, `store`: nodes in memory, and a store to one of them.
- `Chain heap p nodes`: the pointers lead from `p` through these nodes to `NULL`. There is only
  one such list (`Chain.unique`), it meets no node twice (`Chain.nodup`), and a store to any other
  address leaves it alone (`Chain.congr`).
- `find`, `findPrev`, `unlinkNext`: the loops, with the number of steps that they may take.

Main results, for chains that are shorter than the steps allowed:

- `find_eq` and `findPrev_eq`: the loops end at the first node with the property, and at the node
  in front of the given one.
- `unlinkNext_eq`: the removal takes the node out of the list, and changes two pointers only.
-/

namespace Lib

namespace LinkedList

/-- A node: what it holds, and the pointer to the next one. -/
structure Cell (α : Type*) where
  data : α
  next : Option Nat

/-- What is at each address. -/
abbrev Heap (α : Type*) := Nat → Option (Cell α)

variable {α : Type*} {h h' : Heap α} {p q : Option Nat} {l l' : List (Nat × α)}

/-- The node at `a` is overwritten. -/
def store (h : Heap α) (a : Nat) (c : Cell α) : Heap α :=
  fun b => if b = a then some c else h b

/-- The pointers lead from `p` on through these nodes to `NULL`. -/
inductive Chain (h : Heap α) : Option Nat → List (Nat × α) → Prop
  | nil : Chain h none []
  | cons {a : Nat} {x : α} {q : Option Nat} {l : List (Nat × α)} (hcell : h a = some ⟨x, q⟩)
      (hrest : Chain h q l) : Chain h (some a) ((a, x) :: l)

@[simp] theorem store_self (h : Heap α) (a : Nat) (c : Cell α) : store h a c a = some c :=
  if_pos rfl

theorem store_of_ne {a b : Nat} (hne : b ≠ a) (h : Heap α) (c : Cell α) :
    store h a c b = h b := if_neg hne

/-! ## The loops -/

/-- Walk from `p` on to the first node with the property. -/
def find (h : Heap α) (found : α → Bool) : Nat → Option Nat → Option (Option Nat)
  | 0, _ => none
  | _ + 1, none => some none
  | steps + 1, some a =>
    match h a with
    | none => none
    | some c => if found c.data then some (some a) else find h found steps c.next

/-- Walk from `prev` on until the next node is the one at `a`. -/
def findPrev (h : Heap α) (a : Nat) : Nat → Option Nat → Option Nat
  | 0, _ => none
  | _ + 1, none => none
  | steps + 1, some prev =>
    match h prev with
    | none => none
    | some c => if c.next = some a then some prev else findPrev h a steps c.next

/-- `prev->next = a->next; a->next = NULL`. -/
def unlinkNext (h : Heap α) (prev a : Nat) : Option (Heap α) := do
  let before ← h prev
  let node ← h a
  let h := store h prev { before with next := node.next }
  let node ← h a
  return store h a { node with next := none }

/-! ## Chains -/

theorem Chain.unique (hl : Chain h p l) (hl' : Chain h p l') : l = l' := by
  induction hl generalizing l' with
  | nil =>
    cases hl'
    rfl
  | cons hcell _ ih =>
    cases hl' with
    | cons hcell' hrest' =>
      cases hcell.symm.trans hcell'
      rw [ih hrest']

/-- A part of a chain at its end is a chain. -/
theorem Chain.suffix (hl : Chain h p (l ++ l')) : ∃ q, Chain h q l' := by
  induction l generalizing p with
  | nil => exact ⟨p, hl⟩
  | cons c l ih =>
    cases hl with
    | cons _ hrest => exact ih hrest

theorem Chain.head_eq {a : Nat} {x : α} (hl : Chain h p ((a, x) :: l)) : p = some a := by
  cases hl
  rfl

/-- No node is met twice: from there on, the chain would have two lengths. -/
theorem Chain.not_mem {a : Nat} {x : α} (hl : Chain h p ((a, x) :: l)) :
    a ∉ l.map Prod.fst := by
  intro hmem
  obtain ⟨⟨b, y⟩, hb, rfl⟩ := List.mem_map.mp hmem
  obtain ⟨front, back, rfl⟩ := List.append_of_mem hb
  obtain ⟨q, hq⟩ := Chain.suffix (l := (b, x) :: front) hl
  have heq := hl.unique (hl.head_eq ▸ hq.head_eq ▸ hq)
  have hlength := congrArg List.length heq
  simp only [List.length_cons, List.length_append] at hlength
  omega

theorem Chain.nodup (hl : Chain h p l) : (l.map Prod.fst).Nodup := by
  induction hl with
  | nil => exact List.nodup_nil
  | cons hcell hrest ih => exact List.nodup_cons.mpr ⟨(Chain.cons hcell hrest).not_mem, ih⟩

theorem Chain.exists_cell (hl : Chain h p l) {a : Nat} {x : α} (hmem : (a, x) ∈ l) :
    ∃ q, h a = some ⟨x, q⟩ := by
  obtain ⟨front, back, rfl⟩ := List.append_of_mem hmem
  obtain ⟨q, hq⟩ := hl.suffix
  cases hq with
  | cons hcell _ => exact ⟨_, hcell⟩

/-- The end of a chain can be exchanged for another one that begins at the same node. -/
theorem Chain.replace {a : Nat} {x : α} (hl : Chain h p (l ++ (a, x) :: l'))
    {tail : List (Nat × α)} {y : α} (hsame : ∀ b ∈ l.map Prod.fst, h' b = h b)
    (htail : Chain h' (some a) ((a, y) :: tail)) : Chain h' p (l ++ (a, y) :: tail) := by
  induction l generalizing p with
  | nil => exact hl.head_eq ▸ htail
  | cons c l ih =>
    cases hl with
    | cons hcell hrest =>
      exact .cons ((hsame _ List.mem_cons_self).trans hcell)
        (ih hrest fun b hb => hsame b (List.mem_cons_of_mem _ hb))

theorem Chain.congr (hl : Chain h p l) (hsame : ∀ b ∈ l.map Prod.fst, h' b = h b) :
    Chain h' p l := by
  induction hl with
  | nil => exact .nil
  | cons hcell _ ih =>
    exact .cons ((hsame _ List.mem_cons_self).trans hcell)
      (ih fun b hb => hsame b (List.mem_cons_of_mem _ hb))

/-- A node of a chain is given other contents. -/
theorem Chain.store_data {a : Nat} {x : α} (hl : Chain h p (l ++ (a, x) :: l')) (y : α) :
    ∃ q, h a = some ⟨x, q⟩ ∧ Chain (store h a ⟨y, q⟩) p (l ++ (a, y) :: l') := by
  obtain ⟨_, htail⟩ := hl.suffix
  have hnodup := hl.nodup
  rw [List.map_append, List.map_cons, List.nodup_append] at hnodup
  cases htail with
  | @cons _ _ q _ hcell hrest =>
    have hnot := (Chain.cons hcell hrest).not_mem
    refine ⟨q, hcell, hl.replace (fun b hb => store_of_ne ?_ _ _) (.cons (store_self _ _ _) ?_)⟩
    · rintro rfl
      exact hnodup.2.2 _ hb _ List.mem_cons_self rfl
    · refine hrest.congr fun b hb => store_of_ne ?_ _ _
      rintro rfl
      exact hnot hb

/-! ## What the loops do -/

theorem find_eq {found : α → Bool} {steps : Nat} (hl : Chain h p l) (hsteps : l.length < steps) :
    find h found steps p = some ((l.find? fun c => found c.2).map Prod.fst) := by
  induction hl generalizing steps with
  | nil =>
    obtain ⟨steps, rfl⟩ := Nat.exists_eq_succ_of_ne_zero (Nat.ne_of_gt hsteps)
    rfl
  | @cons a x q l hcell _ ih =>
    obtain ⟨steps, rfl⟩ := Nat.exists_eq_succ_of_ne_zero (Nat.ne_of_gt (Nat.zero_lt_of_lt hsteps))
    rw [find, hcell, List.find?_cons]
    dsimp only
    cases found x with
    | true => rfl
    | false => exact ih (Nat.lt_of_succ_lt_succ hsteps)

/-- The node in front of another one of the list is found. -/
theorem findPrev_eq {prev a : Nat} {x y : α} {steps : Nat}
    (hl : Chain h p (l ++ (prev, x) :: (a, y) :: l')) (hsteps : l.length < steps) :
    findPrev h a steps p = some prev := by
  obtain ⟨steps, rfl⟩ := Nat.exists_eq_succ_of_ne_zero (Nat.ne_of_gt (Nat.zero_lt_of_lt hsteps))
  induction l generalizing p steps with
  | nil =>
    cases hl with
    | cons hcell hrest =>
      rw [findPrev, hcell]
      exact if_pos hrest.head_eq
  | cons c l ih =>
    cases hl with
    | @cons b z q _ hcell hrest =>
      obtain ⟨steps, rfl⟩ := Nat.exists_eq_succ_of_ne_zero
        (Nat.ne_of_gt (Nat.zero_lt_of_lt (Nat.lt_of_succ_lt_succ hsteps)))
      -- the next node is not the one at `a`, which comes later
      have hnext : q ≠ some a := by
        rintro rfl
        have hnodup := hrest.nodup
        cases l with
        | nil =>
          cases hrest.head_eq
          exact hrest.not_mem (by simp)
        | cons c l =>
          cases hrest.head_eq
          exact hrest.not_mem (by simp)
      rw [findPrev, hcell]
      exact (if_neg hnext).trans (ih hrest steps (Nat.lt_of_succ_lt_succ hsteps))

/-- **The removal** of a node takes it out of the list, and changes nothing but two
pointers. -/
theorem unlinkNext_eq {prev a : Nat} {x y : α} (hl : Chain h p (l ++ (prev, x) :: (a, y) :: l')) :
    ∃ h', unlinkNext h prev a = some h' ∧ Chain h' p (l ++ (prev, x) :: l') ∧
      h' a = some ⟨y, none⟩ ∧ ∀ b, (h' b).map Cell.data = (h b).map Cell.data := by
  obtain ⟨_, htail⟩ := hl.suffix
  have hnodup := hl.nodup
  rw [List.map_append, List.nodup_append] at hnodup
  cases htail with
  | @cons _ _ _ _ hprev hrest =>
    obtain rfl := hrest.head_eq
    have hprev_not := (Chain.cons hprev hrest).not_mem
    cases hrest with
    | @cons _ _ q _ hnode hafter =>
      have hnot := (Chain.cons hnode hafter).not_mem
      have hne : a ≠ prev := fun heq => hprev_not (heq ▸ List.mem_cons_self)
      have hunlink : unlinkNext h prev a = some (store (store h prev ⟨x, q⟩) a ⟨y, none⟩) := by
        rw [unlinkNext, hprev, hnode]
        show (store h prev ⟨x, q⟩ a).bind _ = _
        rw [store_of_ne hne, hnode]
        rfl
      -- the other nodes are as before
      have hsame : ∀ b, b ≠ prev → b ≠ a →
          store (store h prev ⟨x, q⟩) a ⟨y, none⟩ b = h b :=
        fun b hb hb' => (store_of_ne hb' _ _).trans (store_of_ne hb _ _)
      have hprev' : store (store h prev ⟨x, q⟩) a ⟨y, none⟩ prev = some ⟨x, q⟩ := by
        rw [store_of_ne hne.symm, store_self]
      refine ⟨_, hunlink, hl.replace (fun b hb => hsame b ?_ ?_) (.cons hprev' ?_),
        store_self _ _ _, fun b => ?_⟩
      · exact hnodup.2.2 b hb prev List.mem_cons_self
      · exact hnodup.2.2 b hb a (List.mem_cons_of_mem _ List.mem_cons_self)
      · refine hafter.congr fun b hb => hsame b ?_ ?_
        · exact fun heq => hprev_not (heq ▸ List.mem_cons_of_mem _ hb)
        · exact fun heq => hnot (heq ▸ hb)
      · by_cases hb : b = a
        · rw [hb, store_self, hnode]
          rfl
        · by_cases hb' : b = prev
          · rw [hb', hprev', hprev]
            rfl
          · rw [hsame b hb' hb]

end LinkedList

end Lib
