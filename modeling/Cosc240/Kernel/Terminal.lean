import Cosc240.Kernel.Write
import Cosc240.Lib.Tape

/-!
# `write` is a scrolling terminal

What `write` (tutorial8/kernel.c:190–227) leaves on the screen is a window of an unbounded tape on
which the message is laid out from the cursor. The screen scrolls after each character, in
place, and blanks that fall past its end before that are dropped: the cells are
blank on the tape too, so nothing of it is lost.

- `Cell`, `Machine.screen`, `Machine.tape`: a character and its colour, the screen cell by cell, and
  the tape that starts with it and goes on with blanks.
- `layoutChar` and `layout`: what a message looks like on the tape. A newline writes blanks up to
  the next multiple of 80, a tab writes 8 of them, and any other character goes to the current cell.
- `Shows`: the screen is a `Window` of the tape. It is kept by `writeChar`, by a run of blanks, by
  `putChar` and by `scroll`, which gives the loop.

Main results:

- `screen_scrolled`: one round of scrolling, where the copy runs upwards, so that each byte is read
  before it is overwritten (`vidptr_copies`).
- `Shows.putChar`, `Shows.scroll`, `Shows.foldl_writeStep`: one character, the scrolling behind it,
  and the loop.
- `write_refines`: with `E` the position after the layout, and `s` the least number of rows that
  brings it onto the screen, the screen shows the tape from row `s` on and the cursor is at `E - 80
  * s`.
-/

namespace Cosc240

open Lib

namespace Kernel

/-- A cell of the screen. -/
structure Cell where
  char : UInt8
  colour : UInt8
  deriving DecidableEq, Repr

/-- A space in colour 7. -/
def blankCell : Cell := ⟨ascii ' ', 7⟩

/-- The screen, cell by cell. The visible ones are the first `80 * 25`. -/
def Machine.screen (m : Machine) (k : Nat) : Cell := ⟨m.vidptr (k * 2), m.vidptr (k * 2 + 1)⟩

/-! ## The layout of a message -/

/-- The tape starts with the screen and goes on with blanks. -/
def Machine.tape (m : Machine) : Tape Cell where
  cells k := if k < 80 * 25 then m.screen k else blankCell
  position := m.cursorPosition

/-- A newline writes blanks up to the next multiple of 80, a tab writes 8 of
them, and any other character goes to the current cell. -/
def layoutChar (T : Tape Cell) (c : UInt8) : Tape Cell :=
  if c = ascii '\n' then T.fill blankCell (80 - T.position % 80)
  else if c = ascii '\t' then T.fill blankCell 8
  else T.put ⟨c, 7⟩

/-- The tape after the message. -/
def layout (m : Machine) (msg : List UInt8) : Tape Cell := msg.foldl layoutChar m.tape

/-! ## The operations, cell by cell -/

/-- Storing a character and its colour is storing a cell. -/
theorem screen_store_store (m : Machine) (address : Nat) (c colour : UInt8) (k : Nat) :
    ((m.store (address * 2) c).store (address * 2 + 1) colour).screen k =
      if k = address then ⟨c, colour⟩ else m.screen k := by
  unfold Machine.screen Machine.store
  dsimp only
  by_cases hk : k = address
  · rw [if_pos hk, hk, Function.update_self, Function.update_of_ne (by omega),
      Function.update_self]
  · rw [if_neg hk, Function.update_of_ne (by omega), Function.update_of_ne (by omega),
      Function.update_of_ne (by omega), Function.update_of_ne (by omega)]

/-- On the screen `write_char` changes the cell at its address. -/
theorem screen_writeChar (m : Machine) (address : Nat) (c : UInt8) {k : Nat} (hk : k < 80 * 25) :
    (writeChar m address c 7 0).screen k = if k = address then ⟨c, 7⟩ else m.screen k := by
  unfold writeChar
  dsimp only
  by_cases hle : address ≤ 80 * 25
  · rw [if_pos hle]
    exact screen_store_store m address c _ k
  · -- dropped: the address is not on the screen
    rw [if_neg hle, if_neg (by omega)]

/-- The copy runs upwards, so each source is read before it is overwritten. -/
theorem vidptr_copies (m : Machine) (n k : Nat) :
    ((List.range n).foldl (fun m j => m.copy j (j + 80 * 2)) m).vidptr k =
      if k < n then m.vidptr (k + 80 * 2) else m.vidptr k := by
  induction n generalizing k with
  | zero => rfl
  | succ n ih =>
    rw [List.range_succ, List.foldl_append, List.foldl_cons, List.foldl_nil, Machine.copy]
    dsimp only
    -- copy `n` reads a byte further down, which no earlier copy has written
    by_cases hk : k = n
    · rw [hk, Function.update_self, ih, if_neg (by omega), if_pos (Nat.lt_succ_self n)]
    · rw [Function.update_of_ne hk, ih]
      by_cases hlt : k < n
      · rw [if_pos hlt, if_pos (by omega)]
      · rw [if_neg hlt, if_neg (by omega)]

/-- All rows but the last one have moved up by one. -/
theorem screen_moveRowsUp (m : Machine) (k : Nat) :
    (moveRowsUp m).screen k = if k < 80 * 24 then m.screen (k + 80) else m.screen k := by
  unfold moveRowsUp Machine.screen
  rw [vidptr_copies, vidptr_copies]
  by_cases hk : k < 80 * 24
  · rw [if_pos hk, if_pos (by omega), if_pos (by omega)]
    congr 2 <;> omega
  · rw [if_neg hk, if_neg (by omega), if_neg (by omega)]

/-- The loop that blanks the last row, after `n` rounds. -/
theorem screen_blanks (m : Machine) (n k : Nat) :
    ((List.range n).foldl (fun m i =>
        (m.store (80 * 24 * 2 + 2 * i) (ascii ' ')).store
          (80 * 24 * 2 + 2 * i + 1) 0x7) m).screen k =
      if 80 * 24 ≤ k ∧ k < 80 * 24 + n then blankCell else m.screen k := by
  induction n with
  | zero => rw [if_neg (by omega)]; rfl
  | succ n ih =>
    rw [List.range_succ, List.foldl_append, List.foldl_cons, List.foldl_nil,
      show 80 * 24 * 2 + 2 * n = (80 * 24 + n) * 2 by omega, screen_store_store, ih]
    by_cases hk : k = 80 * 24 + n
    · rw [if_pos hk, if_pos (by omega)]
      rfl
    · rw [if_neg hk]
      by_cases hrow : 80 * 24 ≤ k ∧ k < 80 * 24 + n
      · rw [if_pos hrow, if_pos (by omega)]
      · rw [if_neg hrow, if_neg (by omega)]

/-- One round of scrolling. -/
theorem screen_scrolled (m : Machine) {k : Nat} (hk : k < 80 * 25) :
    (blankLastRow (moveRowsUp m)).screen k = scrolled 80 25 blankCell m.screen k := by
  unfold blankLastRow scrolled
  dsimp only
  rw [screen_blanks, screen_moveRowsUp]
  by_cases hlast : k + 80 < 80 * 25
  · rw [if_pos hlast, if_neg (by omega), if_pos (by omega)]
  · rw [if_neg hlast, if_pos (by omega)]

/-! ## The operations and the tape -/

/-- The screen shows the tape from row `s` on, and the next character goes to
`address`. -/
abbrev Shows (s : Nat) (m : Machine) (address : Nat) (T : Tape Cell) : Prop :=
  Window 80 25 blankCell s m.screen address T

variable {s : Nat} {m : Machine} {address : Nat} {T : Tape Cell}

/-- A character goes on the tape where it goes on the screen. Past the end of the screen only a
blank is the same, since the row that scrolls in is blank. -/
theorem Shows.writeChar (h : Shows s m address T) (hle : address < uintMax) {c : UInt8}
    (hc : address < 80 * 25 ∨ c = ascii ' ') :
    Shows s (writeChar m address c 7 0) (incr address) (T.put ⟨c, 7⟩) := by
  rw [incr_of_lt hle (Nat.le_refl _)]
  refine h.put (hc.imp_right ?_) fun k hk => screen_writeChar m address c hk
  rintro rfl
  rfl

/-- The blanks of a newline or of a tab. -/
theorem Shows.blanks (n : Nat) (h : Shows s m address T) (hle : address + n ≤ uintMax) :
    Shows s (blanks n m address).1 (blanks n m address).2 (T.fill blankCell n) := by
  induction n generalizing m address T with
  | zero => exact h
  | succ n ih =>
    rw [Kernel.blanks, Tape.fill_succ]
    refine ih (h.writeChar (by omega) (Or.inr rfl)) ?_
    rw [incr_of_lt (m := uintMax) (by omega) (Nat.le_refl _)]
    omega

/-- The newline loop writes the blanks that are left in the row. -/
theorem newLine_eq_blanks (m : Machine) (address : Nat)
    (hle : address + (80 - address % 80) ≤ uintMax) :
    newLine m address = blanks (80 - address % 80) m address := by
  induction m, address using newLine.induct with
  | case1 m address m' hne ih =>
    rw [incr_of_lt (m := uintMax) (by omega) (Nat.le_refl _)] at hne ih
    rw [newLine, incr_of_lt (m := uintMax) (by omega) (Nat.le_refl _), if_pos hne,
      ih (by omega), show 80 - address % 80 = 80 - (address + 1) % 80 + 1 by omega,
      Kernel.blanks, incr_of_lt (m := uintMax) (by omega) (Nat.le_refl _)]
  | case2 m address heq =>
    rw [incr_of_lt (m := uintMax) (by omega) (Nat.le_refl _)] at heq
    rw [newLine, incr_of_lt (m := uintMax) (by omega) (Nat.le_refl _), if_neg heq,
      show 80 - address % 80 = 1 by omega, Kernel.blanks, Kernel.blanks,
      incr_of_lt (m := uintMax) (by omega) (Nat.le_refl _)]

/-- **One character**, before the screen is scrolled. -/
theorem Shows.putChar (h : Shows s m address T) (hlt : address < 80 * 25) (c : UInt8) :
    Shows s (putChar m address c).1 (putChar m address c).2 (layoutChar T c) := by
  have hcolumn : T.position % 80 = address % 80 := by
    rw [h.position]
    omega
  have hmax : 80 * 25 + 80 ≤ uintMax := by decide
  unfold Kernel.putChar layoutChar
  split
  · -- the rest of the row, so at most 80 blanks
    rw [newLine_eq_blanks m address (by omega), hcolumn]
    exact h.blanks _ (by omega)
  · split
    · exact h.blanks 8 (by omega)
    · exact h.writeChar (by omega) (Or.inl hlt)

/-- **Scrolling** brings the address back onto the screen. -/
theorem Shows.scroll (h : Shows s m address T) :
    ∃ s', Shows s' (scroll m address).1 (scroll m address).2 T ∧
      (scroll m address).2 < 80 * 25 := by
  induction m, address using Kernel.scroll.induct generalizing s with
  | case1 m address hle ih =>
    rw [Kernel.scroll, if_pos hle]
    exact ih (Window.scroll h hle (by omega) fun k hk => screen_scrolled m hk)
  | case2 m address hlt =>
    rw [Kernel.scroll, if_neg hlt]
    exact ⟨s, h, by omega⟩

/-- **The loop of `write`.** -/
theorem Shows.foldl_writeStep (msg : List UInt8) (h : Shows s m address T)
    (hlt : address < 80 * 25) :
    ∃ s' m' address', msg.foldl writeStep (m, address) = (m', address') ∧
      Shows s' m' address' (msg.foldl layoutChar T) ∧ address' < 80 * 25 := by
  induction msg generalizing s m address T with
  | nil => exact ⟨s, m, address, rfl, h, hlt⟩
  | cons c msg ih =>
    -- after each character the screen is scrolled until the address is on it
    obtain ⟨s', h', hlt'⟩ := (h.putChar hlt c).scroll
    exact ih h' hlt'

/-- The screen as it is shows the tape that starts with it. -/
theorem shows_tape (m : Machine) : Shows 0 m m.cursorPosition m.tape where
  position := rfl
  visible k hk := by
    rw [Nat.mul_zero, Nat.zero_add]
    exact (if_pos hk).symm
  below k hk := by
    rw [Nat.mul_zero, Nat.zero_add]
    exact if_neg (Nat.not_lt.mpr hk)
  least := Or.inl rfl

/-- One call of `write`. The window moves down by as many rows as it scrolls. -/
theorem Shows.write (msg : List UInt8) (hcursor : m.cursorPosition < 80 * 25) :
    ∃ s, Shows s (write m msg) (write m msg).cursorPosition (layout m msg) ∧
      (write m msg).cursorPosition < 80 * 25 := by
  obtain ⟨s, m', address, hfold, h, hlt⟩ := (shows_tape m).foldl_writeStep msg hcursor
  have hwrite : Kernel.write m msg = setCursor m' address := by
    rw [Kernel.write, hfold]
  rw [hwrite]
  exact ⟨s, h, hlt⟩

/-- **`write` refines the scrolling terminal.** With `E` the position after the
layout, and `s` the least number of rows that brings it onto the screen, the
screen shows the tape from row `s` on and the cursor is at `E - 80 * s`. Any
sequence of writes keeps it on the screen. -/
theorem write_refines (m : Machine) (hcursor : m.cursorPosition < 80 * 25) :
    (∀ msg : List UInt8, ∃ s : Nat,
      IsLeast {s : Nat | ((layout m msg).position : Int) - 80 * s < 80 * 25} s ∧
      (∀ k < 80 * 25, (write m msg).screen k = (layout m msg).cells (80 * s + k)) ∧
      ((write m msg).cursorPosition : Int) = (layout m msg).position - 80 * s ∧
      (write m msg).cursorPosition < 80 * 25) ∧
    ∀ msgs : List (List UInt8), (msgs.foldl write m).cursorPosition < 80 * 25 := by
  constructor
  · intro msg
    obtain ⟨s, h, hlt⟩ := Shows.write msg hcursor
    refine ⟨s, by simpa using h.isLeast hlt, h.visible, ?_, hlt⟩
    rw [h.position]
    omega
  · -- the cursor of each write is the one that the write before it has left
    intro msgs
    induction msgs generalizing m with
    | nil => exact hcursor
    | cons msg msgs ih =>
      obtain ⟨-, -, hlt⟩ := Shows.write msg hcursor
      exact ih (write m msg) hlt

/-- A blank screen. -/
def blankMachine (cursorPosition : Nat) : Machine where
  vidptr offset := if offset % 2 = 0 then ascii ' ' else 7
  cursorPosition := cursorPosition
  ports := []
  touched := []

/-- A character in the last cell of the screen scrolls it by one row. -/
theorem write_refines_lastCell :
    ∃ s : Nat,
      (∀ k < 80 * 25, (write (blankMachine 1999) [ascii 'A']).screen k =
        (layout (blankMachine 1999) [ascii 'A']).cells (80 * s + k)) ∧
      (write (blankMachine 1999) [ascii 'A']).cursorPosition < 80 * 25 := by
  obtain ⟨s, -, hscreen, -, hcursor⟩ :=
    (write_refines (blankMachine 1999) (by decide)).1 [ascii 'A']
  exact ⟨s, hscreen, hcursor⟩

end Kernel

end Cosc240
