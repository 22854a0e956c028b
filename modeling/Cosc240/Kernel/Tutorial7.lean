import Cosc240.Kernel.Keyboard

/-!
# The kernel of tutorial 7

The kernel before it could scroll (tutorial7/kernel.c:67–136). Its `write` leaves out the blanks of
a newline, has other tabs, and does not look where it writes. Up to the end of the screen, typing on
it looks the same as on the kernel of tutorial 8, if both start at `clear_screen`: the greeting that
`kmain` of tutorial 8 writes behind it is left out here.

- `writeChar`, `writeStep`, `write`, `clearScreen`, `keyboardHandlerMain`: the functions, with the
  `Machine` of tutorial 8. `set_cursor` is the same in both, and `handleKeyboard` has the part of
  the handler that is.
- `Holds`: the screen shows the tape of `Kernel.Terminal` from the top, and there are only blanks
  behind the cursor. Because of these a newline need not write any.

Main results:

- `Holds.write`: one character that is no tab and does not go past the end of the screen.
- `Holds.typing`: any sequence of interrupts of that kind.
- `displays_top`: on the other kernel, nothing has been scrolled as long as the tape ends on the
  screen.
- `same_as_tutorial8`: both screens show the same cells, and both cursors are in the same place.
-/

namespace Cosc240

open Lib

namespace Kernel

namespace Tutorial7

/-- `write_char`. -/
def writeChar (m : Machine) (address : Nat) (c foreground background : UInt8) : Machine :=
  let colour := ((background &&& 0x0F) <<< 4) ||| (foreground &&& 0x0F)
  (m.store (toUInt (address * 2)) c).store (toUInt (address * 2 + 1)) colour

/-- The body of the loop of `write`. -/
def writeStep (state : Machine × Nat) (c : UInt8) : Machine × Nat :=
  let (m, address) := state
  if c = ascii '\n' then (m, toUInt (address + (80 - address % 80)))
  else if c = ascii '\t' then (m, toUInt (address + (4 - address % 4)))
  else (writeChar m address c 7 0, incr address)

/-- `write`. -/
def write (m : Machine) (msg : List UInt8) : Machine :=
  let (m, address) := msg.foldl writeStep (m, m.cursorPosition)
  setCursor m address

/-- `clear_screen`. -/
def clearScreen (m : Machine) : Machine :=
  setCursor
    ((List.range (80 * 25)).foldl (fun m i => writeChar m i (ascii ' ') 7 0) (setCursor m 0)) 0

/-- `keyboard_handler_main`. -/
def keyboardHandlerMain (m : Machine) (i : Interrupt) : Option Machine := handleKeyboard write m i

/-- The keyboard interrupts after `kmain` has started everything. -/
def typing (m : Machine) (is : List Interrupt) : Option Machine := is.foldlM keyboardHandlerMain m

/-! ## On the screen -/

variable {m : Machine} {T : Tape Cell}

/-- One cell changes. -/
theorem screen_writeChar (m : Machine) {address : Nat} (hlt : address < 80 * 25) (c : UInt8)
    (k : Nat) :
    (writeChar m address c 7 0).screen k = if k = address then ⟨c, 7⟩ else m.screen k := by
  have hmax : 80 * 25 * 2 ≤ uintMax := by decide
  rw [writeChar, toUInt_of_le (by omega), toUInt_of_le (by omega)]
  exact screen_store_store m address c _ k

/-- The screen shows the tape from the top, and behind the cursor there are only blanks. -/
structure Holds (m : Machine) (T : Tape Cell) : Prop where
  cursor : m.cursorPosition = T.position
  visible : ∀ k < 80 * 25, m.screen k = T.cells k
  blank : ∀ k, T.position ≤ k → T.cells k = blankCell

/-- The blanks of `clear_screen` fill the whole screen, so nothing of it is left. -/
theorem holds_clearScreen (m : Machine) : Holds (clearScreen m) ⟨fun _ => blankCell, 0⟩ := by
  have hloop : ∀ n ≤ 80 * 25, ∀ (m : Machine) (k : Nat),
      ((List.range n).foldl (fun m i => writeChar m i (ascii ' ') 7 0) m).screen k =
        if k < n then blankCell else m.screen k := by
    intro n hn m k
    induction n with
    | zero => rw [if_neg (Nat.not_lt_zero k)]; rfl
    | succ n ih =>
      rw [List.range_succ, List.foldl_append, List.foldl_cons, List.foldl_nil,
        screen_writeChar _ (by omega), ih (by omega)]
      by_cases hk : k = n
      · rw [if_pos hk, if_pos (by omega)]
        rfl
      · rw [if_neg hk]
        by_cases hlt : k < n
        · rw [if_pos hlt, if_pos (by omega)]
        · rw [if_neg hlt, if_neg (by omega)]
  constructor
  · rfl
  · intro k hk
    rw [clearScreen, screen_setCursor, hloop _ le_rfl, if_pos hk]
  · exact fun _ _ => rfl

/-- The tape goes on to the right. -/
theorem position_layoutChar (T : Tape Cell) (c : UInt8) :
    T.position < (layoutChar T c).position ∧ (layoutChar T c).position ≤ T.position + 80 := by
  unfold layoutChar
  split
  · rw [Tape.fill_position]
    omega
  · split
    · rw [Tape.fill_position]
      omega
    · rw [Tape.put_position]
      omega

/-- Typing never moves back, so that a text which ends on the screen stays on it. -/
theorem position_le_foldl (text : List UInt8) (T : Tape Cell) :
    T.position ≤ (text.foldl layoutChar T).position := by
  induction text generalizing T with
  | nil => exact le_rfl
  | cons c text ih => exact Nat.le_trans (Nat.le_of_lt (position_layoutChar T c).1) (ih _)

/-- **One character** that is no tab and does not go past the end of the screen. The blanks of a
newline are there already. -/
theorem Holds.write (h : Holds m T) {c : UInt8} (htab : c ≠ ascii '\t')
    (hfits : (layoutChar T c).position < 80 * 25) : Holds (write m [c]) (layoutChar T c) := by
  have hmax : 80 * 25 ≤ uintMax := by decide
  obtain ⟨hgrow, -⟩ := position_layoutChar T c
  have hposition := h.cursor
  unfold Tutorial7.write
  rw [List.foldl_cons, List.foldl_nil, writeStep]
  unfold layoutChar at hfits hgrow ⊢
  dsimp only
  by_cases hnewline : c = ascii '\n'
  · rw [if_pos hnewline, Tape.fill_position] at hfits hgrow
    rw [if_pos hnewline, if_pos hnewline]
    have hcells : ∀ k, (T.fill blankCell (80 - T.position % 80)).cells k = T.cells k := by
      intro k
      rw [Tape.fill_cells]
      split
      · next hrow => exact (h.blank k hrow.1).symm
      · rfl
    constructor
    · rw [Tape.fill_position, ← hposition]
      exact toUInt_of_le (by omega)
    · intro k hk
      rw [hcells]
      exact h.visible k hk
    · intro k hk
      rw [Tape.fill_position] at hk
      rw [hcells]
      exact h.blank k (by omega)
  · rw [if_neg hnewline, if_neg htab, Tape.put_position] at hfits
    rw [if_neg hnewline, if_neg htab, if_neg hnewline, if_neg htab]
    constructor
    · show incr m.cursorPosition = T.position + 1
      rw [hposition]
      exact incr_of_lt (m := uintMax) (by omega) (Nat.le_refl _)
    · intro k hk
      show (writeChar m m.cursorPosition c 7 0).screen k = _
      rw [hposition, screen_writeChar m (by omega), h.visible k hk, Tape.put_cells]
    · intro k hk
      rw [Tape.put_position] at hk
      rw [Tape.put_cells, if_neg (by omega)]
      exact h.blank k (by omega)

/-- One interrupt. -/
theorem Holds.keyboardHandlerMain (h : Holds m T) (i : Interrupt)
    (htab : ascii '\t' ∉ i.typed) (hfits : (i.typed.foldl layoutChar T).position < 80 * 25) :
    ∃ m', keyboardHandlerMain m i = some m' ∧ Holds m' (i.typed.foldl layoutChar T) := by
  have hout : Holds (outPort m 0x20 0x20) T := ⟨h.cursor, h.visible, h.blank⟩
  rcases handleKeyboard_cases Tutorial7.write m i with ⟨htyped, hrun⟩ | ⟨c, htyped, hrun⟩
  · rw [htyped]
    exact ⟨_, hrun, hout⟩
  · rw [htyped] at htab hfits ⊢
    exact ⟨_, hrun, hout.write (fun heq => htab (heq ▸ List.mem_singleton_self _)) hfits⟩

theorem Holds.typing (h : Holds m T) (is : List Interrupt)
    (htab : ascii '\t' ∉ is.flatMap Interrupt.typed)
    (hfits : ((is.flatMap Interrupt.typed).foldl layoutChar T).position < 80 * 25) :
    ∃ m', typing m is = some m' ∧ Holds m' ((is.flatMap Interrupt.typed).foldl layoutChar T) := by
  induction is generalizing m T with
  | nil => exact ⟨m, rfl, h⟩
  | cons i is ih =>
    rw [List.flatMap_cons, List.mem_append, not_or] at htab
    rw [List.flatMap_cons, List.foldl_append] at hfits ⊢
    obtain ⟨m₁, hrun, h₁⟩ := h.keyboardHandlerMain i htab.1
      (Nat.lt_of_le_of_lt (position_le_foldl _ _) hfits)
    obtain ⟨m', hrun', h'⟩ := ih h₁ htab.2 hfits
    refine ⟨m', ?_, h'⟩
    rw [Tutorial7.typing, List.foldlM_cons, hrun]
    exact hrun'

/-- As long as the tape ends on the screen, nothing has been scrolled. -/
theorem displays_top {r : CursorRegisters} (h : Displays r m T) (hfits : T.position < 80 * 25) :
    m.cursorPosition = T.position ∧ ∀ k < 80 * 25, m.screen k = T.cells k := by
  obtain ⟨s, hshows⟩ := h.shows
  have hposition := hshows.position
  have htop : s = 0 := by
    rcases hshows.least with hs | hleast
    · exact hs
    · omega
  subst htop
  refine ⟨by omega, fun k hk => ?_⟩
  rw [hshows.visible k hk, Nat.mul_zero, Nat.zero_add]

/-- **Both kernels agree** as long as no tab is typed and the text ends on the screen, whatever
was on the two screens before they were cleared. Both start at `clear_screen`: the greeting
that `kmain` of tutorial 8 writes next is left out, as the other kernel has none. -/
theorem same_as_tutorial8 (m m₈ : Machine) (is : List Interrupt)
    (htab : ascii '\t' ∉ is.flatMap Interrupt.typed)
    (hfits : ((is.flatMap Interrupt.typed).foldl layoutChar
      ⟨fun _ => blankCell, 0⟩).position < 80 * 25) :
    ∃ m' m₈', typing (clearScreen m) is = some m' ∧
      Kernel.typing (Kernel.clearScreen m₈) is = some m₈' ∧
      (∀ k < 80 * 25, m'.screen k = m₈'.screen k) ∧ m'.cursorPosition = m₈'.cursorPosition := by
  obtain ⟨m', hrun, h⟩ := (holds_clearScreen m).typing is htab hfits
  obtain ⟨m₈', hrun₈, h₈⟩ := (displays_clearScreen ⟨0, 0, 0⟩ m₈).typing is
  obtain ⟨hcursor, hscreen⟩ := displays_top h₈ hfits
  refine ⟨m', m₈', hrun, hrun₈, fun k hk => ?_, ?_⟩
  · rw [h.visible k hk, hscreen k hk]
  · rw [h.cursor, hcursor]

/-- The keys A and Enter, which are pressed and released. -/
theorem same_as_tutorial8_enter :
    ∃ m' m₈',
      typing (clearScreen (blankMachine 7)) [⟨1, 30⟩, ⟨1, 158⟩, ⟨1, 28⟩, ⟨1, 156⟩] = some m' ∧
      Kernel.typing (Kernel.clearScreen (blankMachine 9))
        [⟨1, 30⟩, ⟨1, 158⟩, ⟨1, 28⟩, ⟨1, 156⟩] = some m₈' ∧
      (∀ k < 80 * 25, m'.screen k = m₈'.screen k) ∧ m'.cursorPosition = m₈'.cursorPosition :=
  same_as_tutorial8 (blankMachine 7) (blankMachine 9) _ (by decide) (by decide)

end Tutorial7

end Kernel

end Cosc240
