import Cosc240.Lib.LinkedList
import Mathlib.Data.Set.Insert
import Mathlib.Logic.Function.Basic

/-!
# Queues in memory

Several linked lists in one heap, which have no node in common, and nodes that have been
taken out of their list and not yet been put back or freed. Together these are all nodes
that are allocated.

Each operation on the heap has one lemma: how it changes the lists, and which addresses
are allocated afterwards.

- `skipWhile`: the walk `while (end->next && skip(end->next)) end = end->next`.
- `insertNext`, `removeNext`, `modify`, `release`: a node is linked in behind another one, the node
  behind another one is taken out, its contents are changed, it is freed.
- `Queues heap lists loose`: the invariant. The lists are chains, no address occurs twice among
  all nodes, and nothing else is allocated.

Main results:

- `Queues.update`: one list and the loose nodes are exchanged for others at the same addresses,
  or at addresses that were not allocated, and nothing else is touched. It is the frame rule from
  which the others follow.
- `Queues.alloc`, `Queues.insertNext`, `Queues.removeNext`, `Queues.unlinkNext`, `Queues.modify`,
  `Queues.modify_loose`, `Queues.store_loose`, `Queues.release`: the operations keep the invariant.
-/

namespace Lib

namespace LinkedList

variable {α : Type*} {ι : Type*}

/-- The addresses that are allocated. -/
def allocated (h : Heap α) : Set Nat := {a | h a ≠ none}

/-! ## The operations -/

/-- `while (end->next && skip(end->next)) end = end->next`: the address at which it ends. -/
def skipWhile (h : Heap α) (skip : α → Bool) : Nat → Nat → Option Nat
  | 0, _ => none
  | steps + 1, a =>
    match h a with
    | none => none
    | some c =>
      match c.next with
      | none => some a
      | some b =>
        match h b with
        | none => none
        | some d => if skip d.data then skipWhile h skip steps b else some a

/-- `next->next = node->next; node->next = next`. -/
def insertNext (h : Heap α) (node next : Nat) : Option (Heap α) := do
  let c ← h node
  let d ← h next
  let h := store h next { d with next := c.next }
  let c ← h node
  return store h node { c with next := some next }

/-- `next = node->next; if (next) node->next = next->next`: the node `next`, and the heap. -/
def removeNext (h : Heap α) (node : Nat) : Option (Option Nat × Heap α) := do
  let c ← h node
  match c.next with
  | none => some (none, h)
  | some next => do
    let d ← h next
    return (some next, store h node { c with next := d.next })

/-- `node->data = f(node->data)`. -/
def modify (h : Heap α) (node : Nat) (f : α → α) : Option (Heap α) := do
  let c ← h node
  return store h node { c with data := f c.data }

/-- `free(node)`: it has to be allocated. -/
def release (h : Heap α) (node : Nat) : Option (Heap α) := do
  let _ ← h node
  return fun a => if a = node then none else h a

/-! ## Queues -/

/-- The addresses of the nodes. -/
abbrev addrs (l : List (Nat × α)) : List Nat := l.map Prod.fst

/-- The heap consists of these lists, and of the loose nodes. -/
structure Queues (h : Heap α) (queues : ι → List (Nat × α)) (loose : List (Nat × α)) : Prop where
  chain : ∀ i, ∃ p, Chain h p (queues i)
  cell : ∀ c ∈ loose, ∃ q, h c.1 = some ⟨c.2, q⟩
  nodup : (addrs loose).Nodup
  disjoint : ∀ i j a, a ∈ addrs (queues i) → a ∈ addrs (queues j) → i = j
  not_loose : ∀ i a, a ∈ addrs (queues i) → a ∉ addrs loose
  covers : ∀ a, h a ≠ none → (∃ i, a ∈ addrs (queues i)) ∨ a ∈ addrs loose

variable {h h' : Heap α} {queues : ι → List (Nat × α)} {loose loose' : List (Nat × α)}
  {l l' : List (Nat × α)} {a b : Nat} {x y : α} {i : ι}

theorem allocated_store (h : Heap α) (a : Nat) (c : Cell α) :
    allocated (store h a c) = insert a (allocated h) := by
  ext b
  by_cases hb : b = a
  · simp [allocated, hb]
  · simp [allocated, store_of_ne hb, hb]

theorem allocated_store_of_mem (hx : h a ≠ none) (c : Cell α) :
    allocated (store h a c) = allocated h := by
  rw [allocated_store]
  exact Set.insert_eq_of_mem hx

theorem Chain.ne_none {p : Option Nat} (hl : Chain h p l) (ha : a ∈ addrs l) : h a ≠ none := by
  obtain ⟨⟨_, x⟩, hmem, rfl⟩ := List.mem_map.mp ha
  obtain ⟨q, hq⟩ := hl.exists_cell hmem
  simp [hq]

/-! ## The operations on one list -/

section Chains

variable {p : Option Nat}

theorem skipWhile_eq (skip : α → Bool) {steps : Nat} (hl : Chain h p ((a, x) :: l))
    (hsteps : l.length < steps) :
    ∃ front c, skipWhile h skip steps a = some c.1 ∧
      (a, x) :: l.takeWhile (fun c => skip c.2) = front ++ [c] := by
  obtain ⟨steps, rfl⟩ := Nat.exists_eq_succ_of_ne_zero (Nat.ne_of_gt (Nat.zero_lt_of_lt hsteps))
  induction l generalizing p a x steps with
  | nil =>
    cases hl with
    | cons hcell hrest =>
      cases hrest
      exact ⟨[], (a, x), by rw [skipWhile, hcell], rfl⟩
  | cons d l ih =>
    obtain ⟨b, y⟩ := d
    cases hl with
    | cons hcell hrest =>
      obtain rfl := hrest.head_eq
      obtain ⟨q, hnext⟩ := hrest.exists_cell List.mem_cons_self
      rw [skipWhile, hcell]
      dsimp only
      rw [hnext]
      dsimp only
      rw [List.takeWhile_cons]
      cases skip y with
      | true =>
        obtain ⟨steps, rfl⟩ := Nat.exists_eq_succ_of_ne_zero
          (Nat.ne_of_gt (Nat.zero_lt_of_lt (Nat.lt_of_succ_lt_succ hsteps)))
        obtain ⟨front, c, hend, happend⟩ := ih hrest steps (Nat.lt_of_succ_lt_succ hsteps)
        exact ⟨(a, x) :: front, c, hend, congrArg _ happend⟩
      | false => exact ⟨[], (a, x), rfl, rfl⟩

theorem insertNext_eq {q : Option Nat} (hl : Chain h p (l ++ (a, x) :: l'))
    (hb : h b = some ⟨y, q⟩) (hnot : b ∉ addrs (l ++ (a, x) :: l')) :
    ∃ h', insertNext h a b = some h' ∧ Chain h' p (l ++ (a, x) :: (b, y) :: l') ∧
      (∀ c, c ≠ a → c ≠ b → h' c = h c) ∧ allocated h' = allocated h := by
  obtain ⟨_, htail⟩ := hl.suffix
  have hnodup := hl.nodup
  rw [List.map_append, List.map_cons, List.nodup_append] at hnodup
  have hne : a ≠ b := fun heq => hnot (heq ▸ by simp)
  cases htail with
  | @cons _ _ r _ hcell hrest =>
    have ha_not := (Chain.cons hcell hrest).not_mem
    have hinsert : insertNext h a b =
        some (store (store h b ⟨y, r⟩) a ⟨x, some b⟩) := by
      rw [insertNext, hcell, hb]
      show (store h b ⟨y, r⟩ a).bind _ = _
      rw [store_of_ne hne, hcell]
      rfl
    have hsame : ∀ c, c ≠ a → c ≠ b → store (store h b ⟨y, r⟩) a ⟨x, some b⟩ c = h c :=
      fun c ha hb => (store_of_ne ha _ _).trans (store_of_ne hb _ _)
    have hmem : ∀ c ∈ addrs l, c ≠ a ∧ c ≠ b := by
      intro c hc
      refine ⟨hnodup.2.2 c hc a List.mem_cons_self, ?_⟩
      rintro rfl
      exact hnot (by rw [addrs, List.map_append]; exact List.mem_append_left _ hc)
    have hmem' : ∀ c ∈ addrs l', c ≠ a ∧ c ≠ b := by
      intro c hc
      refine ⟨fun heq => ha_not (heq ▸ hc), ?_⟩
      rintro rfl
      exact hnot (by simp only [addrs, List.map_append, List.map_cons]; simp [hc])
    refine ⟨_, hinsert, ?_, hsame, ?_⟩
    · refine hl.replace (fun c hc => hsame c (hmem c hc).1 (hmem c hc).2)
        (.cons (store_self _ _ _) (.cons (q := r) ?_ ?_))
      · rw [store_of_ne hne.symm, store_self]
      · exact hrest.congr fun c hc => hsame c (hmem' c hc).1 (hmem' c hc).2
    · rw [allocated_store_of_mem (by simp [store_of_ne hne, hcell]),
        allocated_store_of_mem (by simp [hb])]

theorem removeNext_eq (hl : Chain h p (l ++ (a, x) :: (b, y) :: l')) :
    ∃ h', removeNext h a = some (some b, h') ∧ Chain h' p (l ++ (a, x) :: l') ∧
      (∀ c, c ≠ a → h' c = h c) ∧ allocated h' = allocated h := by
  obtain ⟨_, htail⟩ := hl.suffix
  have hnodup := hl.nodup
  rw [List.map_append, List.map_cons, List.nodup_append] at hnodup
  cases htail with
  | @cons _ _ _ _ hcell hrest =>
    have ha_not := (Chain.cons hcell hrest).not_mem
    obtain rfl := hrest.head_eq
    cases hrest with
    | @cons _ _ r _ hnext hafter =>
      have hremove : removeNext h a = some (some b, store h a ⟨x, r⟩) := by
        rw [removeNext, hcell]
        show (h b).bind _ = _
        rw [hnext]
        rfl
      refine ⟨_, hremove, hl.replace (fun c hc => store_of_ne ?_ _ _)
        (.cons (store_self _ _ _) (hafter.congr fun c hc => store_of_ne ?_ _ _)),
        fun c hc => store_of_ne hc _ _, allocated_store_of_mem (by simp [hcell]) _⟩
      · exact hnodup.2.2 c hc a List.mem_cons_self
      · rintro rfl
        exact ha_not (List.mem_cons_of_mem _ hc)

end Chains

/-! ## The operations on the queues -/

namespace Queues

theorem ne_none (hq : Queues h queues loose) (ha : a ∈ addrs (queues i)) : h a ≠ none := by
  obtain ⟨p, hchain⟩ := hq.chain i
  exact hchain.ne_none ha

theorem ne_none_of_loose (hq : Queues h queues loose) (ha : a ∈ addrs loose) : h a ≠ none := by
  obtain ⟨c, hc, rfl⟩ := List.mem_map.mp ha
  obtain ⟨q, hcell⟩ := hq.cell c hc
  simp [hcell]

/-- A fresh node is allocated. -/
theorem alloc (hq : Queues h queues loose) (hfresh : h b = none) (y : α) (q : Option Nat) :
    Queues (store h b ⟨y, q⟩) queues ((b, y) :: loose) := by
  have hne : ∀ a, h a ≠ none → a ≠ b := fun a ha heq => ha (heq ▸ hfresh)
  have hsame : ∀ a, h a ≠ none → store h b ⟨y, q⟩ a = h a := fun a ha => store_of_ne (hne a ha) _ _
  refine ⟨fun i => ?_, fun c hc => ?_, ?_, hq.disjoint, fun i a ha => ?_, fun a ha => ?_⟩
  · obtain ⟨p, hchain⟩ := hq.chain i
    exact ⟨p, hchain.congr fun a ha => hsame a (hq.ne_none ha)⟩
  · rcases List.mem_cons.mp hc with rfl | hc
    · exact ⟨q, store_self _ _ _⟩
    · rw [hsame _ (hq.ne_none_of_loose (List.mem_map_of_mem hc))]
      exact hq.cell c hc
  · exact List.nodup_cons.mpr ⟨fun hb => hne b (hq.ne_none_of_loose hb) rfl, hq.nodup⟩
  · refine List.not_mem_cons_of_ne_of_not_mem (hne a (hq.ne_none ha)) (hq.not_loose i a ha)
  · by_cases hb : a = b
    · exact Or.inr (hb ▸ List.mem_cons_self)
    · rw [store_of_ne hb] at ha
      exact (hq.covers a ha).imp_right (List.mem_cons_of_mem _)

/-- A loose node is changed. -/
theorem modify_loose (hq : Queues h queues ((b, y) :: loose)) (f : α → α) :
    ∃ h', modify h b f = some h' ∧ Queues h' queues ((b, f y) :: loose) ∧
      allocated h' = allocated h := by
  obtain ⟨q, hb⟩ := hq.cell (b, y) List.mem_cons_self
  have hb_not : b ∉ addrs loose := (List.nodup_cons.mp hq.nodup).1
  have hmodify : modify h b f = some (store h b ⟨f y, q⟩) := by
    rw [modify, hb]
    rfl
  refine ⟨_, hmodify, ⟨fun i => ?_, fun c hc => ?_, hq.nodup, hq.disjoint, hq.not_loose,
    fun a ha => ?_⟩, allocated_store_of_mem (by simp [hb]) _⟩
  · obtain ⟨p, hchain⟩ := hq.chain i
    refine ⟨p, hchain.congr fun a ha => store_of_ne ?_ _ _⟩
    rintro rfl
    exact hq.not_loose i a ha List.mem_cons_self
  · rcases List.mem_cons.mp hc with rfl | hmem
    · exact ⟨q, store_self _ _ _⟩
    · rw [store_of_ne]
      · exact hq.cell c (List.mem_cons_of_mem _ hmem)
      · rintro rfl
        exact hb_not (List.mem_map_of_mem hmem)
  · refine hq.covers a ?_
    by_cases heq : a = b
    · rw [heq, hb]
      exact Option.some_ne_none _
    · rwa [store_of_ne heq] at ha

/-- The pointer of a loose node is changed. -/
theorem store_loose (hq : Queues h queues ((b, y) :: loose)) (q : Option Nat) :
    Queues (store h b ⟨y, q⟩) queues ((b, y) :: loose) := by
  have hb : h b ≠ none := hq.ne_none_of_loose List.mem_cons_self
  have hb_not : b ∉ addrs loose := (List.nodup_cons.mp hq.nodup).1
  refine ⟨fun i => ?_, fun c hc => ?_, hq.nodup, hq.disjoint, hq.not_loose, fun a ha => ?_⟩
  · obtain ⟨p, hchain⟩ := hq.chain i
    refine ⟨p, hchain.congr fun a ha => store_of_ne ?_ _ _⟩
    rintro rfl
    exact hq.not_loose i a ha List.mem_cons_self
  · rcases List.mem_cons.mp hc with rfl | hmem
    · exact ⟨q, store_self _ _ _⟩
    · rw [store_of_ne]
      · exact hq.cell c (List.mem_cons_of_mem _ hmem)
      · rintro rfl
        exact hb_not (List.mem_map_of_mem hmem)
  · refine hq.covers a ?_
    by_cases heq : a = b
    · rw [heq]
      exact hb
    · rwa [store_of_ne heq] at ha

/-- A loose node is freed. -/
theorem release (hq : Queues h queues ((b, y) :: loose)) :
    ∃ h', release h b = some h' ∧ Queues h' queues loose ∧
      allocated h' = allocated h \ {b} := by
  obtain ⟨q, hb⟩ := hq.cell (b, y) List.mem_cons_self
  obtain ⟨hb_not, hnodup⟩ : b ∉ addrs loose ∧ _ := List.nodup_cons.mp hq.nodup
  have hrelease : LinkedList.release h b = some fun a => if a = b then none else h a := by
    rw [LinkedList.release, hb]
    rfl
  have hsame : ∀ a, a ≠ b → (if a = b then none else h a) = h a := fun a ha => if_neg ha
  refine ⟨_, hrelease, ⟨fun i => ?_, fun c hc => ?_, hnodup, hq.disjoint, fun i a ha hmem => ?_,
    fun a ha => ?_⟩, ?_⟩
  · obtain ⟨p, hchain⟩ := hq.chain i
    refine ⟨p, hchain.congr fun a ha => hsame a ?_⟩
    rintro rfl
    exact hq.not_loose i a ha List.mem_cons_self
  · have hne : c.1 ≠ b := by
      rintro rfl
      exact hb_not (List.mem_map_of_mem hc)
    obtain ⟨r, hcell⟩ := hq.cell c (List.mem_cons_of_mem _ hc)
    exact ⟨r, (hsame _ hne).trans hcell⟩
  · exact hq.not_loose i a ha (List.mem_cons_of_mem _ hmem)
  · have hne : a ≠ b := by
      rintro rfl
      exact ha (if_pos rfl)
    rw [hsame a hne] at ha
    exact (hq.covers a ha).imp_right fun hmem => (List.mem_cons.mp hmem).resolve_left hne
  · ext a
    by_cases ha : a = b
    · simp [allocated, ha]
    · simp [allocated, ha]

/-- A heap that is one list. -/
theorem single {p : Option Nat} (hchain : Chain h p l) (hcovers : ∀ a, h a ≠ none → a ∈ addrs l) :
    Queues h (fun _ : Unit => l) [] where
  chain _ := ⟨p, hchain⟩
  cell := nofun
  nodup := List.nodup_nil
  disjoint _ _ _ _ _ := rfl
  not_loose _ _ _ := List.not_mem_nil
  covers a ha := Or.inl ⟨(), hcovers a ha⟩

variable [DecidableEq ι]

/-- One list and the loose nodes are exchanged for others, at the same addresses or at
addresses that were not allocated, and nothing else is touched. -/
theorem update (hq : Queues h queues loose) {p : Option Nat} (hchain : Chain h' p l')
    (hloose : ∀ c ∈ loose', ∃ q, h' c.1 = some ⟨c.2, q⟩) (hnodup : (addrs loose').Nodup)
    (hdisjoint : ∀ a ∈ addrs l', a ∉ addrs loose')
    (hold : ∀ a, a ∈ addrs l' ∨ a ∈ addrs loose' →
      a ∈ addrs (queues i) ∨ a ∈ addrs loose ∨ h a = none)
    (hcovers : ∀ a, h' a ≠ none → a ∈ addrs (queues i) ∨ a ∈ addrs loose ∨ h a = none →
      a ∈ addrs l' ∨ a ∈ addrs loose')
    (hsame : ∀ a, a ∉ addrs (queues i) → a ∉ addrs loose → h a ≠ none → h' a = h a) :
    Queues h' (Function.update queues i l') loose' := by
  -- the nodes of the other lists are not affected
  have hother : ∀ j, j ≠ i → ∀ a ∈ addrs (queues j),
      a ∉ addrs (queues i) ∧ a ∉ addrs loose ∧ h a ≠ none :=
    fun j hj a ha => ⟨fun hi => hj (hq.disjoint j i a ha hi), hq.not_loose j a ha, hq.ne_none ha⟩
  have hnew : ∀ j, j ≠ i → ∀ a ∈ addrs (queues j), a ∉ addrs l' ∧ a ∉ addrs loose' := by
    intro j hj a ha
    obtain ⟨hi, hl, hnone⟩ := hother j hj a ha
    constructor
    · intro hmem
      rcases hold a (Or.inl hmem) with hmem | hmem | hmem
      · exact hi hmem
      · exact hl hmem
      · exact hnone hmem
    · intro hmem
      rcases hold a (Or.inr hmem) with hmem | hmem | hmem
      · exact hi hmem
      · exact hl hmem
      · exact hnone hmem
  refine ⟨fun j => ?_, hloose, hnodup, fun j k a hj hk => ?_, fun j a hj => ?_, fun a ha => ?_⟩
  · by_cases hj : j = i
    · rw [hj, Function.update_self]
      exact ⟨p, hchain⟩
    · rw [Function.update_of_ne hj]
      obtain ⟨q, hchain'⟩ := hq.chain j
      refine ⟨q, hchain'.congr fun a ha => ?_⟩
      obtain ⟨hi, hl, hnone⟩ := hother j hj a ha
      exact hsame a hi hl hnone
  · by_cases hji : j = i
    · by_cases hki : k = i
      · rw [hji, hki]
      · rw [hji, Function.update_self] at hj
        rw [Function.update_of_ne hki] at hk
        exact absurd hj (hnew k hki a hk).1
    · rw [Function.update_of_ne hji] at hj
      by_cases hki : k = i
      · rw [hki, Function.update_self] at hk
        exact absurd hk (hnew j hji a hj).1
      · rw [Function.update_of_ne hki] at hk
        exact hq.disjoint j k a hj hk
  · by_cases hji : j = i
    · rw [hji, Function.update_self] at hj
      exact hdisjoint a hj
    · rw [Function.update_of_ne hji] at hj
      exact (hnew j hji a hj).2
  · by_cases hj : ∃ j, j ≠ i ∧ a ∈ addrs (queues j)
    · obtain ⟨j, hji, hmem⟩ := hj
      exact Or.inl ⟨j, by rwa [Function.update_of_ne hji]⟩
    · have hwhere : a ∈ addrs (queues i) ∨ a ∈ addrs loose ∨ h a = none := by
        by_cases hnone : h a = none
        · exact Or.inr (Or.inr hnone)
        rcases hq.covers a hnone with ⟨j, hmem⟩ | hmem
        · by_cases hji : j = i
          · exact Or.inl (hji ▸ hmem)
          · exact absurd ⟨j, hji, hmem⟩ hj
        · exact Or.inr (Or.inl hmem)
      rcases hcovers a ha hwhere with hmem | hmem
      · exact Or.inl ⟨i, by rwa [Function.update_self]⟩
      · exact Or.inr hmem

/-- A loose node is put into a list. -/
theorem insertNext (hq : Queues h queues ((b, y) :: loose)) (hi : queues i = l ++ (a, x) :: l') :
    ∃ h', insertNext h a b = some h' ∧
      Queues h' (Function.update queues i (l ++ (a, x) :: (b, y) :: l')) loose ∧
      allocated h' = allocated h := by
  obtain ⟨p, hchain⟩ := hq.chain i
  obtain ⟨q, hb⟩ := hq.cell (b, y) List.mem_cons_self
  obtain ⟨hb_not, hnodup⟩ : b ∉ addrs loose ∧ _ := List.nodup_cons.mp hq.nodup
  have hb_free : b ∉ addrs (queues i) := fun hmem => hq.not_loose i b hmem List.mem_cons_self
  rw [hi] at hchain
  obtain ⟨h', hinsert, hchain', hsame, halloc⟩ := insertNext_eq hchain hb (hi ▸ hb_free)
  have ha : a ∈ addrs (queues i) := hi ▸ by simp
  -- the addresses of the list, with the new one
  have hmem : ∀ c, c ∈ addrs (l ++ (a, x) :: (b, y) :: l') ↔ c = b ∨ c ∈ addrs (queues i) := by
    intro c
    rw [hi]
    simp only [addrs, List.map_append, List.map_cons, List.mem_append, List.mem_cons]
    tauto
  refine ⟨h', hinsert, hq.update hchain' (fun c hc => ?_) hnodup (fun c hc hc' => ?_)
    (fun c hc => ?_) (fun c hc hwhere => ?_) fun c hci hcl _ => hsame c ?_ ?_, halloc⟩
  · have hc_mem : c.1 ∈ addrs loose := List.mem_map_of_mem hc
    have hca : c.1 ≠ a := by
      rintro rfl
      exact hq.not_loose i _ ha (List.mem_cons_of_mem _ hc_mem)
    have hcb : c.1 ≠ b := by
      rintro rfl
      exact hb_not hc_mem
    rw [hsame c.1 hca hcb]
    exact hq.cell c (List.mem_cons_of_mem _ hc)
  · rcases (hmem c).mp hc with rfl | hc
    · exact hb_not hc'
    · exact hq.not_loose i c hc (List.mem_cons_of_mem _ hc')
  · rcases hc with hc | hc
    · rcases (hmem c).mp hc with rfl | hc
      · exact Or.inr (Or.inl List.mem_cons_self)
      · exact Or.inl hc
    · exact Or.inr (Or.inl (List.mem_cons_of_mem _ hc))
  · rw [hmem]
    rcases hwhere with hc' | hc' | hc'
    · exact Or.inl (Or.inr hc')
    · exact (List.mem_cons.mp hc').imp_left Or.inl
    · have hc_alloc : c ∈ allocated h := halloc ▸ hc
      exact absurd hc' hc_alloc
  · exact fun heq => hci (heq ▸ ha)
  · exact fun heq => hcl (heq ▸ List.mem_cons_self)

/-- A node is taken out of a list. -/
theorem removeNext (hq : Queues h queues loose) (hi : queues i = l ++ (a, x) :: (b, y) :: l') :
    ∃ h', removeNext h a = some (some b, h') ∧
      Queues h' (Function.update queues i (l ++ (a, x) :: l')) ((b, y) :: loose) ∧
      allocated h' = allocated h := by
  obtain ⟨p, hchain⟩ := hq.chain i
  rw [hi] at hchain
  obtain ⟨h', hremove, hchain', hsame, halloc⟩ := removeNext_eq hchain
  have hnodup := hchain.nodup
  have ha : a ∈ addrs (queues i) := hi ▸ by simp
  have hb : b ∈ addrs (queues i) := hi ▸ by simp
  have hmem : ∀ c, c ∈ addrs (queues i) ↔ c = b ∨ c ∈ addrs (l ++ (a, x) :: l') := by
    intro c
    rw [hi]
    simp only [addrs, List.map_append, List.map_cons, List.mem_append, List.mem_cons]
    tauto
  have hb_not : b ∉ addrs (l ++ (a, x) :: l') := by
    simp only [List.map_append, List.map_cons, List.nodup_append, List.nodup_cons,
      List.mem_cons] at hnodup
    simp only [addrs, List.map_append, List.map_cons, List.mem_append, List.mem_cons]
    rintro (hl | rfl | hl')
    · exact hnodup.2.2 b hl b (Or.inr (Or.inl rfl)) rfl
    · exact hnodup.2.1.1 (Or.inl rfl)
    · exact hnodup.2.1.2.1 hl'
  have hba : b ≠ a := by
    rintro rfl
    exact hb_not (by simp)
  refine ⟨h', hremove, hq.update hchain' (fun c hc => ?_) ?_ (fun c hc hc' => ?_)
    (fun c hc => ?_) (fun c hc hwhere => ?_) fun c hci _ _ => hsame c ?_, halloc⟩
  · rcases List.mem_cons.mp hc with rfl | hc
    · rw [hsame b hba]
      exact hchain.exists_cell (by simp)
    · rw [hsame c.1 fun heq => hq.not_loose i a ha
        (heq ▸ List.mem_map_of_mem (f := Prod.fst) hc)]
      exact hq.cell c hc
  · exact List.nodup_cons.mpr ⟨hq.not_loose i b hb, hq.nodup⟩
  · rcases List.mem_cons.mp hc' with rfl | hc'
    · exact hb_not hc
    · exact hq.not_loose i c ((hmem c).mpr (Or.inr hc)) hc'
  · rcases hc with hc | hc
    · exact Or.inl ((hmem c).mpr (Or.inr hc))
    · rcases List.mem_cons.mp hc with rfl | hc
      · exact Or.inl hb
      · exact Or.inr (Or.inl hc)
  · rcases hwhere with hc' | hc' | hc'
    · rcases (hmem c).mp hc' with rfl | hc'
      · exact Or.inr List.mem_cons_self
      · exact Or.inl hc'
    · exact Or.inr (List.mem_cons_of_mem _ hc')
    · have hc_alloc : c ∈ allocated h := halloc ▸ hc
      exact absurd hc' hc_alloc
  · exact fun heq => hci (heq ▸ ha)

/-- A node is taken out of a list, and its pointer is cleared. -/
theorem unlinkNext (hq : Queues h queues loose) (hi : queues i = l ++ (a, x) :: (b, y) :: l') :
    ∃ h', unlinkNext h a b = some h' ∧
      Queues h' (Function.update queues i (l ++ (a, x) :: l')) ((b, y) :: loose) ∧
      allocated h' = allocated h := by
  obtain ⟨h', hremove, hq', halloc⟩ := hq.removeNext hi
  have hb : h' b ≠ none := hq'.ne_none_of_loose List.mem_cons_self
  obtain ⟨r, hcell⟩ := hq'.cell (b, y) List.mem_cons_self
  obtain ⟨p, hchain⟩ := hq.chain i
  rw [hi] at hchain
  obtain ⟨_, htail⟩ := hchain.suffix
  refine ⟨_, ?_, hq'.store_loose none, (allocated_store_of_mem hb _).trans halloc⟩
  cases htail with
  | cons hnode hrest =>
    obtain rfl := hrest.head_eq
    obtain ⟨s, hnext⟩ := hrest.exists_cell List.mem_cons_self
    have hremove' : LinkedList.removeNext h a = some (some b, store h a ⟨x, s⟩) := by
      rw [LinkedList.removeNext, hnode]
      show (h b).bind _ = _
      rw [hnext]
      rfl
    cases hremove'.symm.trans hremove
    rw [LinkedList.unlinkNext, hnode, hnext]
    show (store h a ⟨x, s⟩ b).bind _ = _
    rw [show store h a ⟨x, s⟩ b = _ from hcell]
    rfl

/-- A node of a list is changed. -/
theorem modify (hq : Queues h queues loose) (hi : queues i = l ++ (a, x) :: l') (f : α → α) :
    ∃ h', modify h a f = some h' ∧
      Queues h' (Function.update queues i (l ++ (a, f x) :: l')) loose ∧
      allocated h' = allocated h := by
  obtain ⟨p, hchain⟩ := hq.chain i
  have ha : a ∈ addrs (queues i) := hi ▸ by simp
  have hmem : addrs (l ++ (a, f x) :: l') = addrs (queues i) := by
    rw [hi]
    simp
  rw [hi] at hchain
  obtain ⟨q, hcell, hchain'⟩ := hchain.store_data (f x)
  have hmodify : LinkedList.modify h a f = some (store h a ⟨f x, q⟩) := by
    rw [LinkedList.modify, hcell]
    rfl
  refine ⟨_, hmodify, hq.update hchain' (fun c hc => ?_) hq.nodup (fun c hc => ?_)
    (fun c hc => ?_) (fun c hc hwhere => ?_) fun c hci _ _ => store_of_ne ?_ _ _,
    allocated_store_of_mem (by simp [hcell]) _⟩
  · have hne : c.1 ≠ a := by
      rintro rfl
      exact hq.not_loose i _ ha (List.mem_map_of_mem hc)
    rw [store_of_ne hne]
    exact hq.cell c hc
  · exact hq.not_loose i c (hmem ▸ hc)
  · rw [hmem] at hc
    exact hc.imp_right Or.inl
  · rw [hmem]
    rcases hwhere with hc' | hc' | hc'
    · exact Or.inl hc'
    · exact Or.inr hc'
    · have hne : c ≠ a := fun heq => by
        rw [heq, hcell] at hc'
        cases hc'
      rw [store_of_ne hne] at hc
      exact absurd hc' hc
  · exact fun heq => hci (heq ▸ ha)

end Queues

end LinkedList

end Lib
