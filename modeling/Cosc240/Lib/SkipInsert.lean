import Mathlib.Data.List.Sort

/-!
# Insertion into a linked list by two skip loops

A ready queue ordered by a primary and a secondary key is often written as two
consecutive walks: skip every node with a smaller primary key, then skip the
nodes with the same primary key and a smaller secondary key, then link the new
node in. On a list that is sorted by the pair of keys this is lexicographic
insertion. On a list that is not, it is still a well-defined function, and the
lemmas below say what survives.

- `skipInsert f g x l`: both walks, by the primary key `f` and the secondary key `g`; `skipSame` is
  the second one. `KeyLt` is the lexicographic order on the two keys.

On every list:

- `skipInsert_perm`: inserting adds exactly the new node, and `skipInsert_eq_append`: in one place.
- `skipInsert_comm`: two insertions with one primary key and different secondary keys commute.
- `skipInsert_append`: a node whose primary key exceeds everything present goes to the back.
- `foldl_skipInsert_eq`: nodes that share a primary key larger than everything present end up behind
  it, in the order of their secondary keys, whatever order they are inserted in.

On a sorted list:

- `skipInsert_sorted`: the two walks are one lexicographic insertion, and the list stays sorted.
-/

namespace Lib

variable {α β ι κ : Type*} [LinearOrder ι] [LinearOrder κ]

section Defs

variable (f : α → ι) (g : α → κ)

/-- The second walk: skip equal primary keys with a smaller secondary key, then
link `x` in. -/
def skipSame (x : α) (l : List α) : List α :=
  l.takeWhile (fun y => f y = f x ∧ g y < g x) ++
    x :: l.dropWhile (fun y => f y = f x ∧ g y < g x)

/-- Both walks: skip smaller primary keys, then continue with `skipSame`. -/
def skipInsert (x : α) (l : List α) : List α :=
  l.takeWhile (fun y => f y < f x) ++ skipSame f g x (l.dropWhile fun y => f y < f x)

end Defs

variable {f : α → ι} {g : α → κ}

@[simp] theorem skipSame_nil (x : α) : skipSame f g x [] = [x] := rfl

@[simp] theorem skipInsert_nil (x : α) : skipInsert f g x [] = [x] := rfl

theorem skipSame_cons (x z : α) (l : List α) :
    skipSame f g x (z :: l) =
      if f z = f x ∧ g z < g x then z :: skipSame f g x l else x :: z :: l := by
  unfold skipSame
  by_cases h : f z = f x ∧ g z < g x <;> simp [h]

theorem skipInsert_cons (x z : α) (l : List α) :
    skipInsert f g x (z :: l) =
      if f z < f x then z :: skipInsert f g x l else skipSame f g x (z :: l) := by
  unfold skipInsert
  by_cases h : f z < f x <;> simp [h]

/-! ## Contents -/

theorem skipSame_perm (x : α) (l : List α) : (skipSame f g x l).Perm (x :: l) := by
  unfold skipSame
  refine List.perm_middle.trans (List.Perm.cons x ?_)
  rw [List.takeWhile_append_dropWhile]

/-- Inserting adds exactly the new node. -/
theorem skipInsert_perm (x : α) (l : List α) : (skipInsert f g x l).Perm (x :: l) := by
  unfold skipInsert
  refine ((skipSame_perm x _).append_left _).trans (List.perm_middle.trans ?_)
  rw [List.takeWhile_append_dropWhile]

@[simp] theorem mem_skipInsert {x y : α} {l : List α} :
    y ∈ skipInsert f g x l ↔ y = x ∨ y ∈ l := by
  rw [(skipInsert_perm x l).mem_iff, List.mem_cons]

/-- The new node is linked in at one place. -/
theorem skipInsert_eq_append (x : α) (l : List α) :
    ∃ front back, l = front ++ back ∧ skipInsert f g x l = front ++ x :: back := by
  refine ⟨l.takeWhile (fun y => f y < f x) ++
      (l.dropWhile fun y => f y < f x).takeWhile (fun y => f y = f x ∧ g y < g x),
    (l.dropWhile fun y => f y < f x).dropWhile (fun y => f y = f x ∧ g y < g x), ?_, ?_⟩
  · rw [List.append_assoc, List.takeWhile_append_dropWhile, List.takeWhile_append_dropWhile]
  · rw [List.append_assoc]
    rfl

/-! ## Two insertions with the same primary key commute -/

theorem skipSame_comm {x y : α} (hf : f x = f y) (hg : g x < g y) (l : List α) :
    skipSame f g x (skipSame f g y l) = skipSame f g y (skipSame f g x l) := by
  have hyx : ¬ g y < g x := not_lt.mpr hg.le
  induction l with
  | nil => simp [skipSame_cons, hf, hg, hyx]
  | cons z l ih =>
    rw [skipSame_cons y, skipSame_cons x z l]
    by_cases hz : f z = f x ∧ g z < g x
    · -- both walks pass `z`
      have hz' : f z = f y ∧ g z < g y := ⟨hz.1.trans hf, hz.2.trans hg⟩
      rw [if_pos hz', if_pos hz, skipSame_cons, if_pos hz, skipSame_cons, if_pos hz', ih]
    · rw [if_neg hz]
      by_cases hz' : f z = f y ∧ g z < g y
      · -- only the walk of `y` passes `z`: `x` stops in front of it
        rw [if_pos hz', skipSame_cons, if_neg hz, skipSame_cons y x, if_pos ⟨hf, hg⟩,
          skipSame_cons y z, if_pos hz']
      · rw [if_neg hz', skipSame_cons, if_neg (fun h => hyx h.2), skipSame_cons y x,
          if_pos ⟨hf, hg⟩, skipSame_cons y z, if_neg hz']

/-- Behind a list whose head is not smaller, the first walk does nothing after a
`skipSame` with the same primary key. -/
theorem skipInsert_skipSame {x y : α} (hf : f x = f y) {l : List α}
    (hl : ∀ z ∈ l.head?, ¬ f z < f x) :
    skipInsert f g x (skipSame f g y l) = skipSame f g x (skipSame f g y l) := by
  cases l with
  | nil => rw [skipSame_nil, skipInsert_cons, if_neg (by rw [hf]; exact lt_irrefl _)]
  | cons z l =>
    have hz : ¬ f z < f x := hl z (by simp)
    rw [skipSame_cons]
    split
    · rw [skipInsert_cons, if_neg hz]
    · rw [skipInsert_cons, if_neg (by rw [hf]; exact lt_irrefl _)]

theorem skipInsert_comm_of_lt {x y : α} (hf : f x = f y) (hg : g x < g y) (l : List α) :
    skipInsert f g x (skipInsert f g y l) = skipInsert f g y (skipInsert f g x l) := by
  induction l with
  | nil =>
    simp only [skipInsert_nil, skipInsert_cons, hf, lt_irrefl, if_false]
    exact skipSame_comm hf hg []
  | cons z l ih =>
    rw [skipInsert_cons y, skipInsert_cons x z l, hf]
    by_cases hz : f z < f y
    · rw [if_pos hz, if_pos hz, skipInsert_cons, skipInsert_cons, hf, if_pos hz, if_pos hz, ih]
    · rw [if_neg hz, if_neg hz,
        skipInsert_skipSame hf (by simpa [hf] using hz),
        skipInsert_skipSame hf.symm (by simpa using hz)]
      exact skipSame_comm hf hg _

/-- The order of two insertions with one primary key and different secondary
keys is unobservable, whatever list they go into. -/
theorem skipInsert_comm {x y : α} (hf : f x = f y) (hg : g x ≠ g y) (l : List α) :
    skipInsert f g x (skipInsert f g y l) = skipInsert f g y (skipInsert f g x l) := by
  rcases lt_or_gt_of_ne hg with h | h
  · exact skipInsert_comm_of_lt hf h l
  · exact (skipInsert_comm_of_lt hf.symm h l).symm

/-! ## Insertion and maps -/

theorem map_skipInsert (f : α → ι) (g : α → κ) (f' : β → ι) (g' : β → κ) (h : α → β)
    (hf : ∀ a, f' (h a) = f a) (hg : ∀ a, g' (h a) = g a) (x : α) (l : List α) :
    (skipInsert f g x l).map h = skipInsert f' g' (h x) (l.map h) := by
  have same : ∀ l : List α, (skipSame f g x l).map h = skipSame f' g' (h x) (l.map h) := by
    intro l
    induction l with
    | nil => rfl
    | cons z l ih =>
      rw [List.map_cons, skipSame_cons, skipSame_cons, hf, hf, hg, hg]
      split
      · rw [List.map_cons, ih]
      · rfl
  induction l with
  | nil => rfl
  | cons z l ih =>
    rw [List.map_cons, skipInsert_cons, skipInsert_cons, hf, hf]
    split
    · rw [List.map_cons, ih]
    · exact same (z :: l)

/-! ## Sorted lists -/

/-- The lexicographic order on the two keys. -/
def KeyLt (f : α → ι) (g : α → κ) (a b : α) : Prop :=
  f a < f b ∨ f a = f b ∧ g a < g b

theorem KeyLt.trans {a b c : α} (hab : KeyLt f g a b) (hbc : KeyLt f g b c) : KeyLt f g a c := by
  rcases hab with h | ⟨h, h'⟩ <;> rcases hbc with k | ⟨k, k'⟩
  · exact Or.inl (h.trans k)
  · exact Or.inl (k ▸ h)
  · exact Or.inl (h ▸ k)
  · exact Or.inr ⟨h.trans k, h'.trans k'⟩

theorem KeyLt.secondary_lt {a b : α} (h : KeyLt f g a b) (hf : f a = f b) : g a < g b := by
  rcases h with hlt | ⟨-, hlt⟩
  · exact absurd hlt (hf ▸ lt_irrefl _)
  · exact hlt

theorem KeyLt.asymm {a b : α} (hab : KeyLt f g a b) : ¬ KeyLt f g b a := by
  rintro hba
  rcases hab.trans hba with h | ⟨-, h⟩ <;> exact lt_irrefl _ h

instance : Std.Antisymm (KeyLt f g) := ⟨fun _ _ h k => absurd k h.asymm⟩

theorem keyLt_of_not {a b : α} (h : ¬ KeyLt f g a b) (hg : g a ≠ g b) : KeyLt f g b a := by
  rcases lt_trichotomy (f a) (f b) with hf | hf | hf
  · exact absurd (Or.inl hf) h
  · rcases lt_or_gt_of_ne hg with hlt | hgt
    · exact absurd (Or.inr ⟨hf, hlt⟩) h
    · exact Or.inr ⟨hf.symm, hgt⟩
  · exact Or.inl hf

/-- On a list sorted by the two keys the two walks are one lexicographic
insertion. -/
theorem skipInsert_sorted {x : α} {l : List α} (hl : l.Pairwise (KeyLt f g))
    (hx : ∀ y ∈ l, g y ≠ g x) : (skipInsert f g x l).Pairwise (KeyLt f g) := by
  induction l with
  | nil => simp
  | cons z l ih =>
    obtain ⟨hz, hl'⟩ := List.pairwise_cons.mp hl
    have hx' : ∀ y ∈ l, g y ≠ g x := fun y hy => hx y (List.mem_cons_of_mem _ hy)
    -- once `x` is linked in front of `z`, everything behind `z` is larger too
    have front : KeyLt f g x z → (x :: z :: l).Pairwise (KeyLt f g) := by
      intro hxz
      refine List.pairwise_cons.mpr ⟨fun y hy => ?_, hl⟩
      rcases List.mem_cons.mp hy with rfl | hy
      · exact hxz
      · exact hxz.trans (hz y hy)
    -- with the primary keys of the tail at least `f z`, the first walk stops at once
    have tail : f z = f x → skipInsert f g x l = skipSame f g x l := by
      intro hfz
      cases l with
      | nil => rfl
      | cons w l =>
        have hzw : f z ≤ f w := by
          rcases hz w (by simp) with h | ⟨h, -⟩
          · exact h.le
          · exact h.le
        rw [skipInsert_cons, if_neg (by rw [← hfz]; exact not_lt.mpr hzw)]
    have cons : KeyLt f g z x → (z :: skipInsert f g x l).Pairwise (KeyLt f g) := by
      intro hzx
      refine List.pairwise_cons.mpr ⟨fun y hy => ?_, ih hl' hx'⟩
      rcases mem_skipInsert.mp hy with rfl | hy
      · exact hzx
      · exact hz y hy
    rw [skipInsert_cons]
    split
    next hlt => exact cons (Or.inl hlt)
    next hnlt =>
      rw [skipSame_cons]
      split
      next hsame =>
        rw [← tail hsame.1]
        exact cons (Or.inr hsame)
      next hns =>
        refine front (keyLt_of_not ?_ (hx z (by simp)))
        rintro (h | h)
        · exact hnlt h
        · exact hns h

/-! ## Arrivals behind everything older -/

/-- A node whose primary key exceeds everything present is walked past all of
it. -/
theorem skipInsert_append {x : α} {old l : List α} (hold : ∀ y ∈ old, f y < f x) :
    skipInsert f g x (old ++ l) = old ++ skipInsert f g x l := by
  induction old with
  | nil => rfl
  | cons y old ih =>
    rw [List.cons_append, skipInsert_cons, if_pos (hold y (by simp)),
      ih fun z hz => hold z (List.mem_cons_of_mem _ hz)]
    rfl

theorem foldl_skipInsert_append {c : ι} {new old : List α} (hold : ∀ y ∈ old, f y < c)
    (hnew : ∀ x ∈ new, f x = c) (l : List α) :
    new.foldl (fun l x => skipInsert f g x l) (old ++ l) =
      old ++ new.foldl (fun l x => skipInsert f g x l) l := by
  induction new generalizing l with
  | nil => rfl
  | cons x new ih =>
    have hx : ∀ y ∈ old, f y < f x := fun y hy => by
      rw [hnew x (by simp)]
      exact hold y hy
    rw [List.foldl_cons, List.foldl_cons, skipInsert_append hx,
      ih fun z hz => hnew z (List.mem_cons_of_mem _ hz)]

theorem foldl_skipInsert_perm (new l : List α) :
    (new.foldl (fun l x => skipInsert f g x l) l).Perm (new ++ l) := by
  induction new generalizing l with
  | nil => exact List.Perm.refl _
  | cons x new ih =>
    rw [List.foldl_cons]
    exact (ih _).trans (((skipInsert_perm x l).append_left new).trans List.perm_middle)

theorem foldl_skipInsert_sorted {new l : List α} (hl : l.Pairwise (KeyLt f g))
    (hnew : new.Pairwise fun a b => g a ≠ g b) (hdisj : ∀ x ∈ new, ∀ y ∈ l, g y ≠ g x) :
    (new.foldl (fun l x => skipInsert f g x l) l).Pairwise (KeyLt f g) := by
  induction new generalizing l with
  | nil => exact hl
  | cons x new ih =>
    obtain ⟨hx, hnew'⟩ := List.pairwise_cons.mp hnew
    rw [List.foldl_cons]
    refine ih (skipInsert_sorted hl (hdisj x (by simp))) hnew' fun z hz y hy => ?_
    rcases mem_skipInsert.mp hy with rfl | hy
    · exact hx z hz
    · exact hdisj z (List.mem_cons_of_mem _ hz) y hy

/-- Sorting by the secondary key sorts by both when the primary key is shared. -/
theorem insertionSort_keyLt {c : ι} {new : List α} (hnew : ∀ x ∈ new, f x = c)
    (hg : new.Pairwise fun a b => g a ≠ g b) :
    (new.insertionSort fun a b => g a ≤ g b).Pairwise (KeyLt f g) := by
  have hle := List.pairwise_insertionSort (fun a b : α => g a ≤ g b) new
  have hne : (new.insertionSort fun a b => g a ≤ g b).Pairwise fun a b => g a ≠ g b :=
    (List.perm_insertionSort _ new).symm.pairwise hg fun h => h.symm
  refine (hle.and hne).imp_of_mem fun {a b} ha hb h => Or.inr ⟨?_, lt_of_le_of_ne h.1 h.2⟩
  rw [hnew a (by simpa using ha), hnew b (by simpa using hb)]

/-- **Arrivals of one instant.** Nodes that share a primary key `c` larger than
everything present end up behind it, in the order of their secondary keys,
whatever order they are inserted in. -/
theorem foldl_skipInsert_eq {c : ι} {new old : List α} (hold : ∀ y ∈ old, f y < c)
    (hnew : ∀ x ∈ new, f x = c) (hg : new.Pairwise fun a b => g a ≠ g b) :
    new.foldl (fun l x => skipInsert f g x l) old =
      old ++ new.insertionSort fun a b => g a ≤ g b := by
  have h := foldl_skipInsert_append (g := g) hold hnew []
  rw [List.append_nil] at h
  rw [h]
  congr 1
  have hperm : (new.foldl (fun l x => skipInsert f g x l) []).Perm new := by
    simpa using foldl_skipInsert_perm (f := f) (g := g) new []
  exact List.Perm.eq_of_pairwise' (foldl_skipInsert_sorted List.Pairwise.nil hg (by simp))
    (insertionSort_keyLt hnew hg) (hperm.trans (List.perm_insertionSort _ new).symm)

end Lib
