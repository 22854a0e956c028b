import Cosc240.Lib.Allocator
import Cosc240.Lib.LinkedWalks
import Cosc240.Lib.Queues
import Mathlib.Data.Set.Card

/-!
# Linked lists and an allocator

A heap together with the allocator that its nodes come from. `NodeMemory.Holds` says that the
heap consists of certain lists and loose nodes, and that the allocator knows: what is in use
is what is in the heap, and what others have allocated. A loose node is one that has been taken
out of its list and not yet been put back or freed.

- `NodeMemory`, with `malloc` and `free` on it. Freeing what is not allocated has no result.
- `behind`: the lists of a family of queues as the pointers run, each behind its sentinel;
  `contentsOf` is what the nodes hold.
- `sentinels`: the memory with nothing but the sentinels, in which everything starts.

Each operation of a program on queues has one rule here, for what it does to the lists:

- `Holds.mallocInsert` and `Holds.insert` put a node in order, `Holds.insertLast` at the end;
- `Holds.removeFirst` takes the first node out, `Holds.modifyFirst` and `Holds.modifyLoose` change
  what a node holds, and `Holds.free` frees a loose one;
- `Holds.sentinel_cell`, `Holds.first_cell` and `Holds.loose_cell` are the reads.

`NodeMemory.Holds.ncard_live` counts what is in use, and `NodeMemory.Holds.sentinels_subset`
says that the sentinels always are.
-/

namespace Lib

namespace LinkedList

variable {α β ι ω : Type*} {static : Set Nat} {A : Allocator static}

/-- The nodes, and the allocator. -/
structure NodeMemory (A : Allocator static) (α : Type*) where
  heap : Heap α
  allocator : A.State

namespace NodeMemory

/-- `malloc`, and the assignments to the fields of the new node. -/
def malloc (m : NodeMemory A α) (x : α) : Nat × NodeMemory A α :=
  ((A.malloc m.allocator).1,
    { heap := store m.heap (A.malloc m.allocator).1 ⟨x, none⟩
      allocator := (A.malloc m.allocator).2 })

/-- `free`. -/
def free (m : NodeMemory A α) (a : Nat) : Option (NodeMemory A α) :=
  (release m.heap a).map fun heap => { heap, allocator := A.free a m.allocator }

/-- The memory consists of these lists and loose nodes, and `others` are in use elsewhere. -/
structure Holds (m : NodeMemory A α) (queues : ι → List (Nat × α)) (loose : List (Nat × α))
    (others : Set Nat) : Prop where
  queues : Queues m.heap queues loose
  live : A.live m.allocator = allocated m.heap ∪ others
  apart : ∀ a ∈ others, m.heap a = none

variable {m : NodeMemory A α} {queues : ι → List (Nat × α)} {loose : List (Nat × α)}
  {others : Set Nat} {a b : Nat} {x y : α} {l l' : List (Nat × α)} {i : ι}

namespace Holds

/-! ## Nodes -/

/-- The new node is loose, and its address is nobody's. -/
theorem malloc (hm : m.Holds queues loose others) (x : α) :
    (m.malloc x).2.Holds queues (((m.malloc x).1, x) :: loose) others ∧
      m.heap (m.malloc x).1 = none ∧ (m.malloc x).1 ∉ others := by
  have hnot := A.malloc_not_mem m.allocator
  rw [hm.live, Set.mem_union, not_or] at hnot
  obtain ⟨hheap, hothers⟩ := hnot
  have hfresh : m.heap (A.malloc m.allocator).1 = none := by
    by_contra hne
    exact hheap hne
  refine ⟨⟨hm.queues.alloc hfresh x none, ?_, fun b hb => ?_⟩, hfresh, hothers⟩
  · show A.live (A.malloc m.allocator).2 = allocated (store _ _ _) ∪ others
    rw [A.live_malloc, hm.live, allocated_store, Set.insert_union]
  · show store _ _ _ b = none
    rw [store_of_ne]
    · exact hm.apart b hb
    · rintro rfl
      exact hothers hb

/-- What has been freed is in use no more. -/
theorem free (hm : m.Holds queues ((b, y) :: loose) others) :
    ∃ m', m.free b = some m' ∧ m'.Holds queues loose others ∧
      allocated m'.heap = allocated m.heap \ {b} := by
  obtain ⟨heap, hrelease, hqueues, halloc⟩ := hm.queues.release
  have hb : b ∉ others := by
    intro hmem
    exact hm.queues.ne_none_of_loose (a := b) List.mem_cons_self (hm.apart b hmem)
  refine ⟨⟨heap, A.free b m.allocator⟩, ?_, ⟨hqueues, ?_, fun a ha => ?_⟩, halloc⟩
  · rw [NodeMemory.free, hrelease]
    rfl
  · show A.live (A.free b m.allocator) = allocated heap ∪ others
    rw [A.live_free, hm.live, halloc, Set.union_sdiff_distrib,
      Set.sdiff_singleton_eq_self hb]
  · show heap a = none
    by_contra hne
    have hmem : a ∈ allocated heap := hne
    rw [halloc] at hmem
    exact hmem.1 (hm.apart a ha)

/-- An operation that neither allocates nor frees. -/
theorem of_queues {queues' : ι → List (Nat × α)} {loose' : List (Nat × α)} {heap : Heap α}
    (hm : m.Holds queues loose others) (hqueues : Queues heap queues' loose')
    (halloc : allocated heap = allocated m.heap) :
    Holds { m with heap } queues' loose' others where
  queues := hqueues
  live := halloc ▸ hm.live
  apart a ha := by
    by_contra hne
    have hmem : a ∈ allocated heap := hne
    rw [halloc] at hmem
    exact hmem (hm.apart a ha)

/-- What is in the heap, for those who have allocated the others. -/
theorem swap {heap : Heap β} {queues' : ω → List (Nat × β)} {loose' : List (Nat × β)}
    (hm : m.Holds queues loose (allocated heap)) (hqueues : Queues heap queues' loose') :
    Holds (A := A) ⟨heap, m.allocator⟩ queues' loose' (allocated m.heap) where
  queues := hqueues
  live := hm.live.trans (Set.union_comm _ _)
  apart a ha := by
    by_contra hne
    exact ha (hm.apart a hne)

end Holds

end NodeMemory

/-! ## Queues behind sentinels -/

section Behind

variable {n : Nat}

/-- The lists as the pointers run: behind node `i`, which is not allocated at run time. -/
def behind (sentinel : α) (cells : Fin n → List (Nat × α)) (i : Fin n) : List (Nat × α) :=
  (i.val, sentinel) :: cells i

theorem behind_update (sentinel : α) (cells : Fin n → List (Nat × α)) (i : Fin n)
    (l : List (Nat × α)) :
    Function.update (behind sentinel cells) i ((i.val, sentinel) :: l) =
      behind sentinel (Function.update cells i l) := by
  funext j
  by_cases hj : j = i
  · rw [hj, Function.update_self, behind, Function.update_self]
  · rw [Function.update_of_ne hj, behind, behind, Function.update_of_ne hj]

/-- What each node of the queues holds. -/
def contentsOf (cells : Fin n → List (Nat × α)) (i : Fin n) : List α := (cells i).map Prod.snd

theorem contentsOf_update (cells : Fin n → List (Nat × α)) (i : Fin n) (l : List (Nat × α)) :
    contentsOf (Function.update cells i l) = Function.update (contentsOf cells) i
      (l.map Prod.snd) := by
  funext j
  by_cases hj : j = i
  · rw [hj, Function.update_self, contentsOf, Function.update_self]
  · rw [Function.update_of_ne hj, contentsOf, contentsOf, Function.update_of_ne hj]

namespace NodeMemory

variable {A : Allocator {a | a < n}}

/-- The memory with nothing but the sentinels. -/
def sentinels (A : Allocator {a | a < n}) (sentinel : α) : NodeMemory A α where
  heap a := if a < n then some ⟨sentinel, none⟩ else none
  allocator := A.init

theorem sentinels_holds (A : Allocator {a | a < n}) (sentinel : α) :
    (sentinels A sentinel).Holds (behind sentinel fun _ : Fin n => []) [] ∅ where
  queues :=
    { chain := fun i => ⟨some i, .cons (if_pos i.isLt) .nil⟩
      cell := nofun
      nodup := List.nodup_nil
      disjoint := fun i j a hi hj => by
        have hi' : a = i := List.mem_singleton.mp hi
        have hj' : a = j := List.mem_singleton.mp hj
        exact Fin.ext (hi'.symm.trans hj')
      not_loose := fun _ _ _ => List.not_mem_nil
      covers := fun a ha => by
        by_cases hlt : a < n
        · exact Or.inl ⟨⟨a, hlt⟩, List.mem_singleton_self _⟩
        · exact absurd (if_neg hlt) ha }
  live := by
    rw [Set.union_empty]
    show A.live A.init = _
    rw [A.live_init]
    ext a
    by_cases hlt : a < n <;> simp [allocated, sentinels, hlt]
  apart := nofun

variable {m : NodeMemory A α} {cells : Fin n → List (Nat × α)} {loose : List (Nat × α)}
  {others : Set Nat} {sentinel y : α} {b steps : Nat} {i : Fin n}

/-- **A new node is put in order.** -/
theorem Holds.insert {ι κ : Type*} [LinearOrder ι] [LinearOrder κ] {f : α → ι} {g : α → κ}
    (hm : m.Holds (behind sentinel cells) ((b, y) :: loose) others)
    (hsteps : (cells i).length < steps) :
    ∃ heap, walkInsert f g m.heap steps i b = some heap ∧
      Holds { m with heap } (behind sentinel (Function.update cells i
        (Lib.skipInsert (fun c => f c.2) (fun c => g c.2) (b, y) (cells i)))) loose others ∧
      allocated heap = allocated m.heap := by
  obtain ⟨heap, hinsert, hqueues, halloc⟩ :=
    hm.queues.walkInsert (f := f) (g := g) (i := i) rfl hsteps
  rw [behind_update] at hqueues
  exact ⟨heap, hinsert, hm.of_queues hqueues halloc, halloc⟩

/-- **A new node is allocated and put in order.** -/
theorem Holds.mallocInsert {ι κ : Type*} [LinearOrder ι] [LinearOrder κ] {f : α → ι} {g : α → κ}
    (hm : m.Holds (behind sentinel cells) [] others) (y : α) (hsteps : (cells i).length < steps) :
    ∃ heap, walkInsert f g (m.malloc y).2.heap steps i (m.malloc y).1 = some heap ∧
      Holds ⟨heap, (m.malloc y).2.allocator⟩ (behind sentinel (Function.update cells i
        (Lib.skipInsert (fun c => f c.2) (fun c => g c.2) ((m.malloc y).1, y) (cells i))))
        [] others := by
  obtain ⟨heap, hinsert, hheld, -⟩ := (hm.malloc y).1.insert (f := f) (g := g) hsteps
  exact ⟨heap, hinsert, hheld⟩

/-- Where the walk to the end of a queue ends. -/
theorem Holds.last (hm : m.Holds (behind sentinel cells) loose others)
    (hsteps : (cells i).length < steps) :
    ∃ front c, skipWhile m.heap (fun _ => true) steps i = some c.1 ∧
      behind sentinel cells i = front ++ [c] :=
  hm.queues.skipAll rfl hsteps

/-- **A node is put at the end.** -/
theorem Holds.insertLast {front : List (Nat × α)} {c : Nat × α}
    (hm : m.Holds (behind sentinel cells) ((b, y) :: loose) others)
    (hlast : behind sentinel cells i = front ++ [c]) :
    ∃ heap, insertNext m.heap c.1 b = some heap ∧
      Holds { m with heap } (behind sentinel (Function.update cells i (cells i ++ [(b, y)])))
        loose others ∧ allocated heap = allocated m.heap := by
  obtain ⟨heap, hinsert, hqueues, halloc⟩ := hm.queues.insertNext hlast
  have happend : front ++ [c, (b, y)] = (i.val, sentinel) :: (cells i ++ [(b, y)]) := by
    rw [← List.cons_append, ← behind, hlast, List.append_assoc]
    rfl
  rw [happend, behind_update] at hqueues
  exact ⟨heap, hinsert, hm.of_queues hqueues halloc, halloc⟩

/-- **The first node is taken out.** -/
theorem Holds.removeFirst {l : List (Nat × α)} (hm : m.Holds (behind sentinel cells) loose others)
    (hi : cells i = (b, y) :: l) :
    ∃ heap, removeNext m.heap i = some (some b, heap) ∧
      Holds { m with heap } (behind sentinel (Function.update cells i l)) ((b, y) :: loose)
        others ∧ allocated heap = allocated m.heap := by
  have hbehind : behind sentinel cells i = [] ++ (i.val, sentinel) :: (b, y) :: l := by
    rw [behind, hi]
    rfl
  obtain ⟨heap, hremove, hqueues, halloc⟩ := hm.queues.removeNext hbehind
  rw [List.nil_append, behind_update] at hqueues
  exact ⟨heap, hremove, hm.of_queues hqueues halloc, halloc⟩

/-- **The first node is changed.** -/
theorem Holds.modifyFirst {l : List (Nat × α)} (hm : m.Holds (behind sentinel cells) loose others)
    (hi : cells i = (b, y) :: l) (f : α → α) :
    ∃ heap, modify m.heap b f = some heap ∧
      Holds { m with heap } (behind sentinel (Function.update cells i ((b, f y) :: l))) loose
        others ∧ allocated heap = allocated m.heap := by
  have hbehind : behind sentinel cells i = [(i.val, sentinel)] ++ (b, y) :: l := by
    rw [behind, hi]
    rfl
  obtain ⟨heap, hmodify, hqueues, halloc⟩ := hm.queues.modify hbehind f
  rw [List.singleton_append, behind_update] at hqueues
  exact ⟨heap, hmodify, hm.of_queues hqueues halloc, halloc⟩

/-- **A loose node is changed.** -/
theorem Holds.modifyLoose (hm : m.Holds (behind sentinel cells) ((b, y) :: loose) others)
    (f : α → α) :
    ∃ heap, modify m.heap b f = some heap ∧
      Holds { m with heap } (behind sentinel cells) ((b, f y) :: loose) others ∧
      allocated heap = allocated m.heap := by
  obtain ⟨heap, hmodify, hqueues, halloc⟩ := hm.queues.modify_loose f
  exact ⟨heap, hmodify, hm.of_queues hqueues halloc, halloc⟩

/-- The sentinel and the first node, as the program reads them. -/
theorem Holds.sentinel_cell (hm : m.Holds (behind sentinel cells) loose others) (i : Fin n) :
    m.heap i = some ⟨sentinel, (cells i).head?.map Prod.fst⟩ := by
  obtain ⟨p, hchain⟩ := hm.queues.chain i
  cases hchain with
  | cons hcell hrest =>
    rw [hcell]
    cases hq : cells i with
    | nil =>
      rw [hq] at hrest
      cases hrest
      rfl
    | cons c l =>
      rw [hq] at hrest
      rw [hrest.head_eq]
      rfl

theorem Holds.first_cell {l : List (Nat × α)} (hm : m.Holds (behind sentinel cells) loose others)
    (hi : cells i = (b, y) :: l) : ∃ q, m.heap b = some ⟨y, q⟩ := by
  obtain ⟨p, hchain⟩ := hm.queues.chain i
  rw [behind, hi] at hchain
  exact hchain.exists_cell (by simp)

theorem Holds.loose_cell (hm : m.Holds (behind sentinel cells) ((b, y) :: loose) others) :
    ∃ q, m.heap b = some ⟨y, q⟩ :=
  hm.queues.cell (b, y) List.mem_cons_self

end NodeMemory

end Behind

/-! ## How much is in use -/

theorem ncard_eq_length {S : Set Nat} {l : List Nat} (hnodup : l.Nodup)
    (hmem : ∀ a, a ∈ S ↔ a ∈ l) : S.ncard = l.length ∧ S.Finite := by
  obtain rfl : S = l.toFinset := by
    ext a
    rw [hmem, Finset.mem_coe, List.mem_toFinset]
  exact ⟨(Set.ncard_coe_finset _).trans (List.toFinset_card_of_nodup hnodup),
    Finset.finite_toSet _⟩

/-- One address for each node of one list. -/
theorem Queues.ncard_single {h : Heap α} {nodes : List (Nat × α)}
    (hq : Queues h (fun _ : Unit => nodes) []) :
    (allocated h).ncard = nodes.length ∧ (allocated h).Finite := by
  obtain ⟨p, hchain⟩ := hq.chain ()
  have hcard := ncard_eq_length hchain.nodup (S := allocated h) fun a => ⟨fun ha => ?_, fun ha =>
    hchain.ne_none ha⟩
  · rwa [List.length_map] at hcard
  · rcases hq.covers a ha with ⟨_, hmem⟩ | hmem
    · exact hmem
    · cases hmem

/-- One address for each node. -/
theorem Queues.ncard {n : Nat} {h : Heap α} {queues : Fin n → List (Nat × α)}
    {loose : List (Nat × α)} (hq : Queues h queues loose) :
    (allocated h).ncard = (allQueues queues).length + loose.length ∧ (allocated h).Finite := by
  have hall : (addrs (allQueues queues)).Nodup := by
    rw [addrs, allQueues, List.map_flatMap, List.nodup_flatMap]
    refine ⟨fun i _ => ?_, ?_⟩
    · obtain ⟨p, hchain⟩ := hq.chain i
      exact hchain.nodup
    · refine (List.nodup_finRange n).imp fun {i j} hij a hi hj => ?_
      exact hij (hq.disjoint i j a hi hj)
  have hmem : ∀ a, a ∈ addrs (allQueues queues) ↔ ∃ i, a ∈ addrs (queues i) := by
    intro a
    simp only [addrs, allQueues, List.map_flatMap, List.mem_flatMap, List.mem_finRange, true_and]
  have hcard := ncard_eq_length (S := allocated h)
    (l := addrs (allQueues queues) ++ addrs loose) ?_ fun a => ?_
  · rwa [List.length_append, List.length_map, List.length_map] at hcard
  · refine List.nodup_append.mpr ⟨hall, hq.nodup, fun a ha b hb hab => ?_⟩
    obtain ⟨i, hi⟩ := (hmem a).mp ha
    exact hq.not_loose i a hi (hab ▸ hb)
  · rw [List.mem_append, hmem]
    refine ⟨hq.covers a, ?_⟩
    rintro (⟨i, hi⟩ | hl)
    · exact hq.ne_none hi
    · exact hq.ne_none_of_loose hl

theorem length_behind {n : Nat} (sentinel : α) (cells : Fin n → List (Nat × α)) :
    (allQueues (behind sentinel cells)).length = n + (allQueues (contentsOf cells)).length := by
  simp only [allQueues, List.length_flatMap, behind, contentsOf, List.length_cons,
    List.length_map]
  rw [List.sum_map_add]
  simp [Nat.add_comm]

/-- The sentinels are there all the time. -/
theorem NodeMemory.Holds.sentinel_ne_none {n : Nat} {A : Allocator static} {m : NodeMemory A α}
    {sentinel : α} {cells : Fin n → List (Nat × α)} {loose : List (Nat × α)} {others : Set Nat}
    (hm : m.Holds (behind sentinel cells) loose others) {a : Nat} (ha : a < n) :
    m.heap a ≠ none :=
  hm.queues.ne_none (i := ⟨a, ha⟩) (List.mem_map_of_mem (f := Prod.fst) List.mem_cons_self)

theorem NodeMemory.Holds.sentinels_subset {n : Nat} {A : Allocator static} {m : NodeMemory A α}
    {sentinel : α} {cells : Fin n → List (Nat × α)} {loose : List (Nat × α)} {others : Set Nat}
    (hm : m.Holds (behind sentinel cells) loose others) : {a | a < n} ⊆ A.live m.allocator := by
  intro a ha
  rw [hm.live]
  exact Or.inl (hm.sentinel_ne_none ha)

/-- **What is in use**: the sentinels, the other nodes, and what others have allocated. -/
theorem NodeMemory.Holds.ncard_live {n : Nat} {A : Allocator static} {m : NodeMemory A α}
    {sentinel : α} {cells : Fin n → List (Nat × α)} {loose : List (Nat × α)} {others : Set Nat}
    (hm : m.Holds (behind sentinel cells) loose others) (hothers : others.Finite) :
    (A.live m.allocator).ncard =
      n + (allQueues (contentsOf cells)).length + loose.length + others.ncard := by
  obtain ⟨hcard, hfinite⟩ := hm.queues.ncard
  have hdisjoint : Disjoint (allocated m.heap) others :=
    Set.disjoint_left.mpr fun a ha hmem => ha (hm.apart a hmem)
  rw [hm.live, Set.ncard_union_eq hdisjoint hfinite hothers, hcard, length_behind]

end LinkedList

end Lib
