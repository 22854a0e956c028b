import Mathlib.Algebra.Order.Ring.Int
import Mathlib.Logic.Function.Iterate
import Mathlib.Order.Bounds.Basic
import Mathlib.Tactic.NormNum

/-!
# A tape behind a scrolling window

A terminal of `height` rows of `width` cells shows a window of an unbounded
tape. Writing goes on to the right on the tape; on the terminal it goes on to the
right until it leaves the last row, and then the window moves down by whole
rows. `Window` relates the two, and each operation of the terminal keeps it.

- `Tape`: cells without end, and the position that is written next. `put` writes one cell and `fill`
  several; `fill_cells` and `fill_position` say what is where afterwards.
- `scrolled`: the screen after all rows have moved up by one, with a blank last row.
- `Window`: the screen shows the tape from row `s` on, the position on the screen is where the next
  cell goes, and the tape is blank below the screen.

Main results:

- `Window.put`: putting a cell. On the terminal a cell past the last row is dropped, which keeps the
  relation if it is a blank.
- `Window.scroll`: the window is one row further down.
- `Window.isLeast`: with its position on the screen, the window is the first one that shows it, so
  nothing is scrolled too early or too far.
-/

namespace Lib

/-- Cells without end, and the position that is written next. -/
structure Tape (α : Type*) where
  cells : Nat → α
  position : Nat

namespace Tape

variable {α : Type*}

/-- Write one cell, and go on to the next. -/
def put (a : α) (T : Tape α) : Tape α where
  cells := Function.update T.cells T.position a
  position := T.position + 1

/-- Write one cell after the other. -/
def fill (a : α) (n : Nat) (T : Tape α) : Tape α := (put a)^[n] T

@[simp] theorem put_position (a : α) (T : Tape α) : (T.put a).position = T.position + 1 := rfl

theorem put_cells (a : α) (T : Tape α) (k : Nat) :
    (T.put a).cells k = if k = T.position then a else T.cells k :=
  Function.update_apply ..

@[simp] theorem fill_position (a : α) (n : Nat) (T : Tape α) :
    (T.fill a n).position = T.position + n := by
  unfold fill
  induction n generalizing T with
  | zero => rfl
  | succ n ih =>
    rw [Function.iterate_succ_apply, ih, put_position]
    omega

theorem fill_succ (a : α) (n : Nat) (T : Tape α) : T.fill a (n + 1) = (T.put a).fill a n :=
  Function.iterate_succ_apply _ _ _

theorem fill_cells (a : α) (n : Nat) (T : Tape α) (k : Nat) :
    (T.fill a n).cells k =
      if T.position ≤ k ∧ k < T.position + n then a else T.cells k := by
  induction n generalizing T with
  | zero => rw [if_neg (by omega)]; rfl
  | succ n ih =>
    rw [fill_succ, ih, put_position]
    by_cases hk : k = T.position
    · rw [if_neg (by omega), if_pos (by omega), put_cells, if_pos hk]
    · rw [put_cells, if_neg hk]
      by_cases hrange : T.position + 1 ≤ k ∧ k < T.position + 1 + n
      · rw [if_pos hrange, if_pos (by omega)]
      · rw [if_neg hrange, if_neg (by omega)]

end Tape

section Window

variable {α : Type*}

/-- The screen after all rows have moved up by one and the last one is blank. -/
def scrolled (width height : Nat) (blank : α) (screen : Nat → α) : Nat → α := fun k =>
  if k + width < width * height then screen (k + width) else blank

/-- The screen shows the tape from row `s` on, `address` is the position on the
screen, and the tape is blank below the screen. -/
structure Window (width height : Nat) (blank : α) (s : Nat) (screen : Nat → α) (address : Nat)
    (T : Tape α) : Prop where
  position : T.position = address + width * s
  visible : ∀ k < width * height, screen k = T.cells (width * s + k)
  below : ∀ k, width * height ≤ k → T.cells (width * s + k) = blank
  /-- It has not moved further down than it had to. -/
  least : s = 0 ∨ width * height ≤ address + width

namespace Window

variable {width height : Nat} {blank : α} {s : Nat} {screen screen' : Nat → α} {address : Nat}
  {T : Tape α}

theorem put_cells (h : Window width height blank s screen address T) (a : α) (k : Nat) :
    (T.put a).cells (width * s + k) = if k = address then a else T.cells (width * s + k) := by
  unfold Tape.put
  dsimp only
  rw [h.position]
  by_cases hk : k = address
  · rw [if_pos hk, hk, Nat.add_comm address, Function.update_self]
  · rw [if_neg hk, Function.update_of_ne (by omega)]

/-- Putting a cell. A cell that is dropped below the screen has to be blank. -/
theorem put (h : Window width height blank s screen address T) {a : α}
    (ha : address < width * height ∨ a = blank)
    (hscreen : ∀ k < width * height, screen' k = if k = address then a else screen k) :
    Window width height blank s screen' (address + 1) (T.put a) where
  position := by
    rw [Tape.put_position, h.position]
    omega
  visible k hk := by
    rw [h.put_cells, hscreen k hk, h.visible k hk]
  below k hk := by
    rw [h.put_cells, h.below k hk]
    by_cases hkey : k = address
    · rw [if_pos hkey]
      exact ha.resolve_left (by omega)
    · rw [if_neg hkey]
  least := h.least.imp_right fun hleast => by omega

/-- One row further down. -/
theorem scroll (h : Window width height blank s screen address T)
    (hle : width * height ≤ address) (hwidth : width ≤ address)
    (hscreen : ∀ k < width * height, screen' k = scrolled width height blank screen k) :
    Window width height blank (s + 1) screen' (address - width) T where
  position := by
    rw [h.position, Nat.mul_succ]
    omega
  visible k hk := by
    rw [hscreen k hk, scrolled, show width * (s + 1) + k = width * s + (k + width) by
      rw [Nat.mul_succ]; omega]
    by_cases hlt : k + width < width * height
    · rw [if_pos hlt, h.visible _ hlt]
    · rw [if_neg hlt, h.below _ (Nat.le_of_not_lt hlt)]
  below k hk := by
    rw [show width * (s + 1) + k = width * s + (k + width) by rw [Nat.mul_succ]; omega]
    exact h.below _ (by omega)
  least := Or.inr (by omega)

/-- With the position on the screen, the window is the first one that shows it. -/
theorem isLeast (h : Window width height blank s screen address T)
    (hlt : address < width * height) :
    IsLeast {s : Nat | (T.position : Int) - width * s < width * height} s := by
  have hposition : (T.position : Int) = address + width * s := by
    rw [h.position]
    push_cast
    rfl
  have hlt' : (address : Int) < width * height := by exact_mod_cast hlt
  refine ⟨?_, ?_⟩
  · show (T.position : Int) - width * s < width * height
    omega
  · intro r hr
    rcases h.least with rfl | hleast
    · exact Nat.zero_le r
    · by_contra hrs
      have hstep : (width : Int) * (r + 1) ≤ width * s :=
        mul_le_mul_of_nonneg_left (by omega) (by omega)
      have hleast' : (width : Int) * height ≤ address + width := by exact_mod_cast hleast
      have hr' : (T.position : Int) - width * r < width * height := hr
      rw [mul_add, mul_one] at hstep
      omega

end Window

end Window

end Lib
